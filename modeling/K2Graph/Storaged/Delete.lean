import K2Graph.Lib.Except
import K2Graph.Storaged.Rows

/-!
# Deleting vertices and edges

`DeleteVerticesProcessor` and `DeleteEdgesProcessor` have two ways of deleting.  Without
indexes the keys are scanned and removed, one log for every vertex or edge; what a scan
meets depends on which of the removals before it have been committed by then.  With
indexes everything is done in one atomic operation, which removes the index keys of the
newest version as well.

The two ways scan differently.  The prefix of a vertex is also the prefix of its outgoing
edges: the plain way leaves out what is not a vertex key, the indexed way reads the tag of
everything it meets, which is fatal for an edge key.  Edges are found by the range of
their versions without indexes, and by their prefix with them; the range leaves out the
versions whose bytes are not below those of the largest number.
-/

namespace K2Graph.Storaged

open List AList LittleEndian Kvstore

/-! ### With indexes -/

/-- Why an atomic operation gives no log. -/
inductive Stop
  /-- The process ends. -/
  | fatal
  /-- It returns `folly::none`. -/
  | none

/-- The key of a row in an index, given how the row is opened: there is none if the index
is of another tag or edge type, or if the row lacks a column. -/
def indexKeyOf (schemaId : Int32) (read : Read RowReader) (indexKey : Int32 → IndexValues → Bytes)
    (index : IndexItem) : Except Stop (List Bytes) :=
  if index.schemaId = schemaId then
    match read with
    | .fatal => .error .fatal
    | .null => .error .none
    | .ok reader =>
        match collectIndexValues reader index.fields with
        | .fatal => .error .fatal
        | .null => .ok []
        | .ok values => .ok [indexKey index.indexId values]
  else .ok []

def rowIndexKeys (schemaId : Int32) (read : Read RowReader)
    (indexKey : Int32 → IndexValues → Bytes) (indexes : List IndexItem) :
    Except Stop (List Bytes) := do
  let keys ← indexes.mapM (indexKeyOf schemaId read indexKey)
  return keys.flatten

/-- The keys of a row in the indexes, if it is the newest of its versions. -/
def newestIndexKeys (newest : Bool) (schemaId : Int32) (read : Read RowReader)
    (indexKey : Int32 → IndexValues → Bytes) (indexes : List IndexItem) :
    Except Stop (List Bytes) :=
  if newest then rowIndexKeys schemaId read indexKey indexes else .ok []

variable (schemas : SchemaManager) (indexes : List IndexItem) (part : Int32)

/-- The keys removed for a vertex, given the tag that was met last. -/
def vertexRemovals (vertex : Int64) : Int32 → List (Bytes × Bytes) → Except Stop (List Bytes)
  | _, [] => .ok []
  | latestVVId, row :: rows =>
      match getTagId row.1 with
      | none => .error .fatal
      | some tagId => do
          let old ← newestIndexKeys (latestVVId ≠ tagId) tagId
            (schemas.getTagPropReader tagId row.2)
            (fun indexId => vertexIndexKey part indexId vertex) indexes
          let rest ← vertexRemovals vertex tagId rows
          return old ++ row.1 :: rest

/-- `DeleteVerticesProcessor::deleteVertices`. -/
def deleteVertices (vertices : List Int64) (e : Engine) : Except Stop (List WriteOp) := do
  let keys ← vertices.mapM fun vertex =>
    vertexRemovals schemas indexes part vertex (-1) (e.scan (vertexPrefix part vertex))
  return keys.flatten.map .remove

/-- The keys removed for an edge; the first row is of the latest version. -/
def edgeRemovals (edge : EdgeKey) : Bool → List (Bytes × Bytes) → Except Stop (List Bytes)
  | _, [] => .ok []
  | isLatestVE, row :: rows => do
      let old ← newestIndexKeys isLatestVE edge.edgeType
        (schemas.getEdgePropReader edge.edgeType row.2)
        (fun indexId => edgeIndexKey part indexId edge) indexes
      let rest ← edgeRemovals edge false rows
      return old ++ row.1 :: rest

/-- `DeleteEdgesProcessor::deleteEdges`. -/
def deleteEdges (edges : List EdgeKey) (e : Engine) : Except Stop (List WriteOp) := do
  let keys ← edges.mapM fun edge =>
    edgeRemovals schemas indexes part edge true (e.scan (edgePrefix part edge))
  return keys.flatten.map .remove

/-! ### Without indexes -/

def foundVertexKeys (vertex : Int64) (e : Engine) : List Bytes :=
  ((e.scan (vertexPrefix part vertex)).map Prod.fst).filter isVertex

def foundEdgeKeys (edge : EdgeKey) (e : Engine) : List Bytes :=
  (e.rangeScan (edgeKey part edge 0) (edgeKey part edge Int64.maxValue)).map Prod.fst

/-- The plain way: a scan and a log for every vertex or edge.  Before a scan, some of the
logs that are waiting are committed; the number is given with the vertex or edge. -/
def removeEach {α : Type} (found : α → Engine → List Bytes) :
    List (ℕ × α) → List (List Bytes) → Engine → Engine
  | [], waiting, e => e.write (waiting.flatten.map .remove)
  | (n, x) :: rest, waiting, e =>
      let e' := e.write ((waiting.take n).flatten.map .remove)
      removeEach found rest (waiting.drop n ++ [found x e']) e'

/-! ### Agreement -/

/-- The content of a partition: its data keys are keys of vertices and of edges. -/
structure Content (part : Int32) where
  engine : Engine
  graphKeys : ∀ key ∈ engine, keyItem part .data <+: key →
    (∃ vId, IsVertexKey part vId key) ∨ ∃ edge, IsEdgeKey part edge key

/-- Both ways of deleting the vertices are carried out and leave the same data keys,
whenever the plain removals are committed, and no data keys are gone but those of the
vertices. -/
def VertexDeletionsAgree {part : Int32} (content : Content part) (vertices : List Int64) : Prop :=
  ∃ batch, deleteVertices schemas indexes part vertices content.engine = .ok batch ∧
    ∀ timed : List (ℕ × Int64), timed.map Prod.snd = vertices →
      ∀ key, hasType key .data = true →
        (content.engine.write batch).lookup key =
          (removeEach (foundVertexKeys part) timed [] content.engine).lookup key ∧
        ((content.engine.write batch).lookup key = content.engine.lookup key ∨
          ∃ vId ∈ vertices, IsVertexKey part vId key)

/-- Both ways of deleting the edges are carried out and leave the same data keys, and no
data keys are gone but those of the edges. -/
def EdgeDeletionsAgree {part : Int32} (content : Content part) (edges : List EdgeKey) : Prop :=
  ∃ batch, deleteEdges schemas indexes part edges content.engine = .ok batch ∧
    ∀ timed : List (ℕ × EdgeKey), timed.map Prod.snd = edges →
      ∀ key, hasType key .data = true →
        (content.engine.write batch).lookup key =
          (removeEach (foundEdgeKeys part) timed [] content.engine).lookup key ∧
        ((content.engine.write batch).lookup key = content.engine.lookup key ∨
          ∃ edge ∈ edges, IsEdgeKey part edge key)

/-- The row is read for the indexes of its tag or edge type. -/
def RowReads (indexes : List IndexItem) (schemaId : Int32) (read : Read RowReader) : Prop :=
  ∀ index ∈ indexes, index.schemaId = schemaId →
    ∃ reader, read = .ok reader ∧ collectIndexValues reader index.fields ≠ .fatal

/-- No edge leaves the vertices, and the newest row of each of their tags is read. -/
def VerticesDeletable (vertices : List Int64) (e : Engine) : Prop :=
  ∀ vertex ∈ vertices,
    (∀ edge ev, edge.src = vertex → edgeKey part edge ev ∉ e) ∧
    ∀ tagId row, tagId &&& tagMaskSet = tagId →
      (e.scan (tagPrefix part vertex tagId)).head? = some row →
      RowReads indexes tagId (schemas.getTagPropReader tagId row.2)

/-- No version of the edges lies behind the range that is scanned, and the newest row of
each of them is read. -/
def EdgesDeletable (edges : List EdgeKey) (e : Engine) : Prop :=
  ∀ edge ∈ edges,
    (∀ ev, edgeKey part edge ev ∈ e → ofInt 8 ev.toInt < ofInt 8 Int64.maxValue.toInt) ∧
    ∀ row, (e.scan (edgePrefix part edge)).head? = some row →
      RowReads indexes edge.edgeType (schemas.getEdgePropReader edge.edgeType row.2)

/-! ### What is removed -/

theorem lookup_write_remove (e : Engine) (keys : List Bytes) (k : Bytes) :
    (e.write (keys.map .remove)).lookup k = if k ∈ keys then none else e.lookup k := by
  rw [Engine.lookup_write]
  induction keys generalizing e with
  | nil => rfl
  | cons key keys ih =>
    rw [map_cons, foldl_cons, WriteOp.onKey]
    have happly := ih (e.erase key)
    by_cases hk : key = k
    · subst hk
      rw [lookup_erase] at happly
      rw [if_pos rfl, happly, if_pos mem_cons_self, ite_self]
    · have hne : k ≠ key := fun h => hk h.symm
      rw [lookup_erase_ne hne] at happly
      rw [if_neg hk, happly]
      simp [hne]

/-- Removals that are found for the elements of a list: what is asked for goes, and nothing
else does. -/
theorem lookup_removals {α : Type} {f : α → Except Stop (List Bytes)} {xs : List α} {e : Engine}
    {asked : α → Prop} (h : xs.mapM f = .ok removed)
    (hf : ∀ x ∈ xs, ∀ ks, f x = .ok ks → (k ∈ ks ↔ k ∈ e ∧ asked x)) :
    ((e.write (removed.flatten.map .remove)).lookup k = none ∧ ∃ x ∈ xs, k ∈ e ∧ asked x) ∨
      ((e.write (removed.flatten.map .remove)).lookup k = e.lookup k ∧
        ∀ x ∈ xs, asked x → k ∉ e) := by
  have hmem := mem_flatten_iff_of_mapM h hf
  rw [lookup_write_remove]
  by_cases hk : k ∈ removed.flatten
  · exact .inl ⟨if_pos hk, hmem.mp hk⟩
  · exact .inr ⟨if_neg hk, fun x hx hasked hin => hk (hmem.mpr ⟨x, hx, hin, hasked⟩)⟩

section RemoveEach

variable {α : Type} {asked : α → Bytes → Bool}

/-- **The plain way removes the keys asked for**, whenever the removals are committed. -/
theorem lookup_removeEach (hfound : ∀ x e k, k ∈ found x e ↔ k ∈ e ∧ asked x k = true)
    (timed : List (ℕ × α)) (waiting : List (List Bytes)) (e : Engine) (k : Bytes) :
    (removeEach found timed waiting e).lookup k =
      if k ∈ waiting.flatten ∨ ∃ x ∈ timed.map Prod.snd, asked x k = true then none
      else e.lookup k := by
  induction timed generalizing waiting e with
  | nil =>
    rw [removeEach, lookup_write_remove]
    simp
  | cons nx rest ih =>
    obtain ⟨n, x⟩ := nx
    rw [removeEach, ih]
    have hsplit : k ∈ waiting.flatten ↔
        k ∈ (waiting.take n).flatten ∨ k ∈ (waiting.drop n).flatten := by
      rw [← mem_append, ← flatten_append, take_append_drop]
    simp only [flatten_append, flatten_singleton, mem_append, hfound, hsplit,
      lookup_write_remove, map_cons, exists_mem_cons_iff]
    by_cases htake : k ∈ (waiting.take n).flatten
    · simp [htake]
    -- a key that is asked for and not found is not there
    have hmem : k ∈ e.write ((waiting.take n).flatten.map .remove) ↔ k ∈ e := by
      rw [← lookup_isSome, ← lookup_isSome, lookup_write_remove, if_neg htake]
    rw [if_neg htake]
    by_cases hk : k ∈ e
    · refine if_congr ?_ rfl rfl
      rw [hmem, and_iff_right hk, or_iff_right htake, or_assoc]
    · rw [lookup_eq_none.mpr hk, ite_self, ite_self]

end RemoveEach

/-! ### The keys of a row in the indexes -/

/-- The row has the key in an index of its tag or edge type. -/
def HasIndexKey (schemaId : Int32) (read : Read RowReader)
    (indexKey : Int32 → IndexValues → Bytes) (indexes : List IndexItem) (key : Bytes) : Prop :=
  ∃ index ∈ indexes, index.schemaId = schemaId ∧ ∃ reader values, read = .ok reader ∧
    collectIndexValues reader index.fields = .ok values ∧ key = indexKey index.indexId values

variable {schemas indexes part} {read : Read RowReader} {keys : List Bytes} {key : Bytes}

theorem mem_indexKeyOf (h : indexKeyOf schemaId read indexKey index = .ok keys) :
    key ∈ keys ↔ index.schemaId = schemaId ∧ ∃ reader values, read = .ok reader ∧
      collectIndexValues reader index.fields = .ok values ∧
      key = indexKey index.indexId values := by
  unfold indexKeyOf at h
  by_cases hid : index.schemaId = schemaId
  · rw [if_pos hid] at h
    cases read with
    | fatal | null => cases h
    | ok reader =>
      cases hcollect : collectIndexValues reader index.fields with
      | fatal => simp [hcollect] at h
      | null =>
        simp only [hcollect, Except.ok.injEq] at h
        subst h
        simp [hcollect]
      | ok values =>
        simp only [hcollect, Except.ok.injEq] at h
        subst h
        simp [hid, hcollect]
  · rw [if_neg hid] at h
    cases h
    simp [hid]

theorem exists_rowIndexKeys_iff :
    (∃ keys, rowIndexKeys schemaId read indexKey indexes = .ok keys) ↔
      RowReads indexes schemaId read := by
  refine exists_map_eq_ok_iff.trans ((exists_mapM_eq_ok_iff _ _).trans ?_)
  refine forall₂_congr fun index _ => ?_
  unfold indexKeyOf
  by_cases hid : index.schemaId = schemaId
  · cases read with
    | fatal | null => simp [hid]
    | ok reader =>
      cases hcollect : collectIndexValues reader index.fields <;> simp [hid, hcollect]
  · rw [if_neg hid]
    exact iff_of_true ⟨[], rfl⟩ fun h => absurd h hid

theorem mem_rowIndexKeys (h : rowIndexKeys schemaId read indexKey indexes = .ok keys) :
    key ∈ keys ↔ HasIndexKey schemaId read indexKey indexes key := by
  obtain ⟨found, hfound, h⟩ := exists_of_bind_eq_ok h
  cases h
  exact mem_flatten_iff_of_mapM hfound fun index _ keys hkeys => mem_indexKeyOf hkeys

/-! ### The rows of a vertex -/

def rowTag (row : Bytes × Bytes) : Option Int32 := getTagId row.1

theorem exists_vertexRemovals_iff :
    (∃ keys, vertexRemovals schemas indexes part vertex latestVVId rows = .ok keys) ↔
      (∀ row ∈ rows, rowTag row ≠ none) ∧
      ∀ row ∈ heads rowTag (some latestVVId) rows, ∀ tagId, rowTag row = some tagId →
        RowReads indexes tagId (schemas.getTagPropReader tagId row.2) := by
  induction rows generalizing latestVVId with
  | nil => simp [vertexRemovals, heads]
  | cons row rows ih =>
    rw [vertexRemovals, forall_mem_cons, heads]
    cases htag : getTagId row.1 with
    | none => simp [rowTag, htag]
    | some tagId =>
      have hrow : rowTag row = some tagId := htag
      rw [exists_bind_bind_eq_ok_iff, ih, hrow]
      by_cases hlatest : latestVVId = tagId
      · subst hlatest
        simp [newestIndexKeys]
      have hne : ¬ some tagId = some latestVVId := fun h => hlatest (Option.some.inj h).symm
      rw [newestIndexKeys, if_pos (decide_eq_true hlatest), if_neg hne, exists_rowIndexKeys_iff,
        forall_mem_cons, hrow]
      simp only [Option.some.injEq, forall_eq', ne_eq, reduceCtorEq, not_false_eq_true, true_and]
      exact and_left_comm

theorem mem_vertexRemovals
    (h : vertexRemovals schemas indexes part vertex latestVVId rows = .ok keys) :
    key ∈ keys ↔ (∃ row ∈ rows, key = row.1) ∨
      ∃ row ∈ heads rowTag (some latestVVId) rows, ∃ tagId, rowTag row = some tagId ∧
        HasIndexKey tagId (schemas.getTagPropReader tagId row.2)
          (fun indexId => vertexIndexKey part indexId vertex) indexes key := by
  induction rows generalizing latestVVId keys with
  | nil =>
    cases h
    simp [heads]
  | cons row rows ih =>
    rw [vertexRemovals] at h
    cases htag : getTagId row.1 with
    | none => simp [htag] at h
    | some tagId =>
      have hrow : rowTag row = some tagId := htag
      rw [htag] at h
      obtain ⟨old, hold, h⟩ := exists_of_bind_eq_ok h
      obtain ⟨rest, hrest, h⟩ := exists_of_bind_eq_ok h
      cases h
      rw [mem_append, mem_cons, ih hrest, exists_mem_cons_iff, heads, hrow]
      by_cases hlatest : latestVVId = tagId
      · subst hlatest
        rw [newestIndexKeys, if_neg (by simp)] at hold
        cases hold
        simp [or_assoc]
      · have hne : ¬ some tagId = some latestVVId := fun heq => hlatest (Option.some.inj heq).symm
        rw [newestIndexKeys, if_pos (decide_eq_true hlatest)] at hold
        rw [if_neg hne, mem_rowIndexKeys hold, exists_mem_cons_iff, hrow]
        simp [or_assoc, or_left_comm]

/-! ### The rows of an edge -/

theorem edgeRemovals_false :
    edgeRemovals schemas indexes part edge false rows = .ok (rows.map Prod.fst) := by
  induction rows with
  | nil => rfl
  | cons row rows ih =>
    rw [edgeRemovals, ih]
    rfl

theorem mem_edgeRemovals (h : edgeRemovals schemas indexes part edge true rows = .ok keys) :
    key ∈ keys ↔ (∃ row ∈ rows, key = row.1) ∨
      ∃ row, rows.head? = some row ∧
        HasIndexKey edge.edgeType (schemas.getEdgePropReader edge.edgeType row.2)
          (fun indexId => edgeIndexKey part indexId edge) indexes key := by
  cases rows with
  | nil =>
    cases h
    simp
  | cons row rows =>
    obtain ⟨old, hold, h⟩ := exists_of_bind_eq_ok h
    obtain ⟨rest, hrest, h⟩ := exists_of_bind_eq_ok h
    cases h
    rw [edgeRemovals_false] at hrest
    cases hrest
    rw [mem_append, mem_rowIndexKeys hold, or_comm]
    simp

/-! ### What a scan meets in a partition -/

section Content

variable (content : Content part)

/-- What has the prefix of a vertex is a key of the vertex or of an edge that leaves it. -/
theorem Content.of_vertexPrefix (hkey : key ∈ content.engine)
    (hpre : vertexPrefix part vertex <+: key) :
    IsVertexKey part vertex key ∨ ∃ edge ev, edge.src = vertex ∧ key = edgeKey part edge ev := by
  have hdata : keyItem part .data <+: key := (prefix_append _ _).trans hpre
  rcases content.graphKeys key hkey hdata with ⟨vId, tagId, tv, rfl⟩ | ⟨edge, ev, rfl⟩
  · rw [vertexPrefix_prefix_vertexKey.mp hpre]
    exact .inl ⟨tagId, tv, rfl⟩
  · exact .inr ⟨edge, ev, (vertexPrefix_prefix_edgeKey.mp hpre).symm, rfl⟩

theorem Content.of_mem_scan (hrow : row ∈ content.engine.scan (vertexPrefix part vertex)) :
    IsVertexKey part vertex row.1 ∨ ∃ edge ev, edge.src = vertex ∧ row.1 = edgeKey part edge ev :=
  content.of_vertexPrefix (Engine.mem_of_mem_scan hrow) (Engine.mem_scan.mp hrow).2

theorem Content.of_edgePrefix (hkey : key ∈ content.engine) (hpre : edgePrefix part edge <+: key) :
    IsEdgeKey part edge key := by
  have hdata : keyItem part .data <+: key := (keyItem_prefix_edgePrefix part edge).trans hpre
  rcases content.graphKeys key hkey hdata with ⟨vId, tagId, tv, rfl⟩ | ⟨edge', ev, rfl⟩
  · exact absurd hpre not_edgePrefix_prefix_vertexKey
  · have hstored : edgePrefix part edge = edgePrefix part edge' :=
      edgePrefix_inj.mpr (edgePrefix_prefix_edgeKey.mp hpre)
    exact ⟨ev, by rw [edgeKey, edgeKey, hstored]⟩

theorem Content.forall_rowTag_iff (vertex : Int64) :
    (∀ row ∈ content.engine.scan (vertexPrefix part vertex), rowTag row ≠ none) ↔
      ∀ edge ev, edge.src = vertex → edgeKey part edge ev ∉ content.engine := by
  constructor
  · intro h edge ev hsrc hmem
    have hpre : vertexPrefix part vertex <+: edgeKey part edge ev :=
      vertexPrefix_prefix_edgeKey.mpr hsrc.symm
    obtain ⟨row, hrow, hkey⟩ := Engine.exists_mem_scan_iff.mpr ⟨hmem, hpre⟩
    exact h row hrow (by rw [rowTag, ← hkey, getTagId_edgeKey])
  · intro h row hrow
    rcases content.of_mem_scan hrow with ⟨tagId, tv, hkey⟩ | ⟨edge, ev, hsrc, hkey⟩
    · rw [rowTag, hkey]
      exact Option.some_ne_none _
    · exact absurd (hkey ▸ Engine.mem_of_mem_scan hrow) (h edge ev hsrc)

theorem Content.rowTag_eq_some_iff (hrow : row ∈ content.engine.scan (vertexPrefix part vertex)) :
    rowTag row = some tagId ↔ tagId &&& tagMaskSet = tagId ∧
      tagPrefix part vertex tagId <+: row.1 := by
  rcases content.of_mem_scan hrow with ⟨tagId', tv, hkey⟩ | ⟨edge, ev, hsrc, hkey⟩
  · rw [rowTag, hkey, getTagId_vertexKey, tagPrefix_prefix_vertexKey, Option.some.injEq]
    constructor
    · rintro rfl
      rw [Int32.and_assoc]
      exact ⟨rfl, rfl, rfl⟩
    · rintro ⟨hmask, -, htag⟩
      rw [← htag, hmask]
  · rw [rowTag, hkey, getTagId_edgeKey]
    exact iff_of_false nofun fun h => not_tagPrefix_prefix_edgeKey h.2

theorem Content.grouped_rowTag
    (hall : ∀ row ∈ content.engine.scan (vertexPrefix part vertex), rowTag row ≠ none) :
    Grouped rowTag (content.engine.scan (vertexPrefix part vertex)) := by
  intro a b c hsub heq
  have hmem : ∀ row ∈ [a, b, c], row ∈ content.engine.scan (vertexPrefix part vertex) :=
    fun row hrow => hsub.subset hrow
  have hsorted : [a, b, c].Pairwise fun x y => x.1 < y.1 :=
    (content.engine.pairwise_scan _).sublist hsub
  have ha := hmem a (by simp)
  have hb := hmem b (by simp)
  have hc := hmem c (by simp)
  obtain ⟨tagId, htag⟩ := Option.ne_none_iff_exists'.mp (hall a ha)
  obtain ⟨hmask, hpa⟩ := (content.rowTag_eq_some_iff ha).mp htag
  obtain ⟨-, hpc⟩ := (content.rowTag_eq_some_iff hc).mp (heq ▸ htag)
  have hab : a.1 < b.1 := rel_of_pairwise_cons hsorted (by simp)
  have hbc : b.1 < c.1 := rel_of_pairwise_cons hsorted.of_cons (by simp)
  have hpb := prefix_of_between hpa hpc (List.le_of_lt hab) (List.le_of_lt hbc)
  rw [htag, (content.rowTag_eq_some_iff hb).mpr ⟨hmask, hpb⟩]

theorem Content.find?_rowTag (htag : tagId &&& tagMaskSet = tagId) :
    (content.engine.scan (vertexPrefix part vertex)).find? (fun row => rowTag row = some tagId) =
      (content.engine.scan (tagPrefix part vertex tagId)).head? := by
  have hpre : vertexPrefix part vertex <+: tagPrefix part vertex tagId := prefix_append _ _
  rw [← content.engine.filter_scan hpre, ← head?_filter]
  refine congrArg head? (filter_congr fun row hrow => ?_)
  rw [Bool.eq_iff_iff, decide_eq_true_iff, isPrefixOf_iff_prefix]
  rw [content.rowTag_eq_some_iff hrow, and_iff_right htag]

theorem Content.mem_heads_rowTag
    (hall : ∀ row ∈ content.engine.scan (vertexPrefix part vertex), rowTag row ≠ none)
    (row : Bytes × Bytes) (tagId : Int32) :
    (row ∈ heads rowTag (some (-1)) (content.engine.scan (vertexPrefix part vertex)) ∧
        rowTag row = some tagId) ↔
      tagId &&& tagMaskSet = tagId ∧
        (content.engine.scan (tagPrefix part vertex tagId)).head? = some row := by
  -- the loop begins with a tag that no key has
  have hlast : ∀ row ∈ content.engine.scan (vertexPrefix part vertex), rowTag row ≠ some (-1) :=
    fun row hrow h => absurd ((content.rowTag_eq_some_iff hrow).mp h).1 (by decide)
  rw [mem_heads_of_forall_ne (content.grouped_rowTag hall) hlast]
  constructor
  · rintro ⟨hfind, htag⟩
    have hmask := ((content.rowTag_eq_some_iff (mem_of_find?_eq_some hfind)).mp htag).1
    rw [htag, content.find?_rowTag hmask] at hfind
    exact ⟨hmask, hfind⟩
  · rintro ⟨hmask, hhead⟩
    rw [← content.find?_rowTag hmask] at hhead
    have htag : rowTag row = some tagId := by simpa using find?_some hhead
    rw [htag]
    exact ⟨hhead, rfl⟩

/-- **When the removals of a vertex are found**: no edge leaves it, and the newest row of
each tag is read. -/
theorem Content.exists_vertexRemovals_iff :
    (∃ keys, vertexRemovals schemas indexes part vertex (-1)
        (content.engine.scan (vertexPrefix part vertex)) = .ok keys) ↔
      (∀ edge ev, edge.src = vertex → edgeKey part edge ev ∉ content.engine) ∧
      ∀ tagId row, tagId &&& tagMaskSet = tagId →
        (content.engine.scan (tagPrefix part vertex tagId)).head? = some row →
        RowReads indexes tagId (schemas.getTagPropReader tagId row.2) := by
  rw [Storaged.exists_vertexRemovals_iff, content.forall_rowTag_iff]
  refine and_congr_right fun hnone => ?_
  have hheads := content.mem_heads_rowTag ((content.forall_rowTag_iff vertex).mpr hnone)
  constructor
  · intro h tagId row hmask hhead
    obtain ⟨hrow, htag⟩ := (hheads row tagId).mpr ⟨hmask, hhead⟩
    exact h row hrow tagId htag
  · intro h row hrow tagId htag
    obtain ⟨hmask, hhead⟩ := (hheads row tagId).mp ⟨hrow, htag⟩
    exact h tagId row hmask hhead

theorem Content.exists_deleteVertices_iff :
    (∃ batch, deleteVertices schemas indexes part vertices content.engine = .ok batch) ↔
      VerticesDeletable schemas indexes part vertices content.engine := by
  refine exists_map_eq_ok_iff.trans ((exists_mapM_eq_ok_iff _ _).trans ?_)
  exact forall₂_congr fun vertex _ => content.exists_vertexRemovals_iff

/-- **What is removed with a vertex**: the rows of the vertex, and the index keys of the
newest row of each tag. -/
theorem Content.mem_vertexRemovals
    (h : vertexRemovals schemas indexes part vertex (-1)
      (content.engine.scan (vertexPrefix part vertex)) = .ok keys) :
    key ∈ keys ↔ (key ∈ content.engine ∧ vertexPrefix part vertex <+: key) ∨
      ∃ tagId row, tagId &&& tagMaskSet = tagId ∧
        (content.engine.scan (tagPrefix part vertex tagId)).head? = some row ∧
        HasIndexKey tagId (schemas.getTagPropReader tagId row.2)
          (fun indexId => vertexIndexKey part indexId vertex) indexes key := by
  have hheads := content.mem_heads_rowTag
    ((Storaged.exists_vertexRemovals_iff.mp ⟨keys, h⟩).1)
  rw [Storaged.mem_vertexRemovals h, Engine.exists_mem_scan_iff]
  refine or_congr_right ⟨?_, ?_⟩
  · rintro ⟨row, hrow, tagId, htag, hkey⟩
    obtain ⟨hmask, hhead⟩ := (hheads row tagId).mp ⟨hrow, htag⟩
    exact ⟨tagId, row, hmask, hhead, hkey⟩
  · rintro ⟨tagId, row, hmask, hhead, hkey⟩
    obtain ⟨hrow, htag⟩ := (hheads row tagId).mpr ⟨hmask, hhead⟩
    exact ⟨row, hrow, tagId, htag, hkey⟩

theorem Content.mem_vertexRemovals_of_data
    (h : vertexRemovals schemas indexes part vertex (-1)
      (content.engine.scan (vertexPrefix part vertex)) = .ok keys)
    (hdata : hasType key .data = true) :
    key ∈ keys ↔ key ∈ content.engine ∧ vertexPrefix part vertex <+: key := by
  rw [content.mem_vertexRemovals h]
  refine or_iff_left ?_
  rintro ⟨-, -, -, -, index, -, -, reader, values, -, -, rfl⟩
  rw [hasType_vertexIndexKey] at hdata
  cases hdata

theorem mem_foundVertexKeys (vertex : Int64) (e : Engine) (key : Bytes) :
    key ∈ foundVertexKeys part vertex e ↔
      key ∈ e ∧ ((vertexPrefix part vertex).isPrefixOf key && isVertex key) = true := by
  have hscan := @Engine.exists_mem_scan_iff e (vertexPrefix part vertex) key
  rw [foundVertexKeys, mem_filter, mem_map, Bool.and_eq_true,
    isPrefixOf_iff_prefix, ← and_assoc, ← hscan]
  simp only [eq_comm]

theorem Content.vertexDeletionsAgree_iff :
    VertexDeletionsAgree schemas indexes content vertices ↔
      VerticesDeletable schemas indexes part vertices content.engine := by
  constructor
  · rintro ⟨batch, h, -⟩
    exact content.exists_deleteVertices_iff.mp ⟨batch, h⟩
  intro hdel
  obtain ⟨batch, h⟩ := content.exists_deleteVertices_iff.mpr hdel
  refine ⟨batch, h, fun timed htimed key hdata => ?_⟩
  rw [lookup_removeEach mem_foundVertexKeys, htimed]
  simp only [flatten_nil, not_mem_nil, false_or, Bool.and_eq_true, isPrefixOf_iff_prefix]
  -- the data keys that the atomic operation removes
  obtain ⟨keys, hkeys, h⟩ := exists_of_bind_eq_ok h
  cases h
  rcases lookup_removals hkeys fun vertex _ ks hks => content.mem_vertexRemovals_of_data hks hdata
    with ⟨hnone, vertex, hvertex, hin, hpre⟩ | ⟨hsame, hout⟩
  · have hkey : IsVertexKey part vertex key := by
      rcases content.of_vertexPrefix hin hpre with hkey | ⟨edge, ev, hsrc, rfl⟩
      · exact hkey
      · exact absurd hin ((hdel vertex hvertex).1 edge ev hsrc)
    have hasked : ∃ vertex ∈ vertices, vertexPrefix part vertex <+: key ∧ isVertex key = true := by
      obtain ⟨tagId, tv, rfl⟩ := hkey
      exact ⟨vertex, hvertex, vertexPrefix_prefix_vertexKey.mpr rfl, isVertex_vertexKey ..⟩
    rw [if_pos hasked, hnone]
    exact ⟨rfl, .inr ⟨vertex, hvertex, hkey⟩⟩
  · rw [hsame]
    refine ⟨?_, .inl rfl⟩
    split_ifs with hasked
    · obtain ⟨vertex, hvertex, hpre, -⟩ := hasked
      exact lookup_eq_none.mpr (hout vertex hvertex hpre)
    · rfl

/-! ### Edges -/

theorem inRange_edgeKey :
    inRange (edgeKey part edge 0) (edgeKey part edge Int64.maxValue) key = true ↔
      ∃ rest, key = edgePrefix part edge ++ rest ∧ ofInt 8 0 ≤ rest ∧
        rest < ofInt 8 Int64.maxValue.toInt := by
  rw [inRange, Bool.and_eq_true, decide_eq_true_iff, decide_eq_true_iff]
  constructor
  · rintro ⟨hstart, hstop⟩
    obtain ⟨rest, rfl⟩ : edgePrefix part edge <+: key :=
      prefix_of_between (prefix_append _ _) (prefix_append _ _) hstart
        (List.le_of_lt hstop)
    exact ⟨rest, rfl, append_le_append_iff.mp hstart, append_lt_append_iff.mp hstop⟩
  · rintro ⟨rest, rfl, hstart, hstop⟩
    exact ⟨append_le_append_iff.mpr hstart, append_lt_append_iff.mpr hstop⟩

/-- A version of an edge is in the range when its bytes are below those of the largest
number. -/
theorem inRange_edgeKey_edgeKey {edge : EdgeKey} {ev : Int64} :
    inRange (edgeKey part edge 0) (edgeKey part edge Int64.maxValue) (edgeKey part edge ev) = true ↔
      ofInt 8 ev.toInt < ofInt 8 Int64.maxValue.toInt := by
  rw [inRange_edgeKey]
  constructor
  · rintro ⟨rest, hkey, -, hstop⟩
    rw [edgeKey, append_cancel_left_eq] at hkey
    rw [hkey]
    exact hstop
  · intro hstop
    have hzero : ofInt 8 0 ≤ ofInt 8 ev.toInt := replicate_zero_le (length_ofInt 8 _).ge
    exact ⟨ofInt 8 ev.toInt, rfl, hzero, hstop⟩

theorem mem_foundEdgeKeys (edge : EdgeKey) (e : Engine) (key : Bytes) :
    key ∈ foundEdgeKeys part edge e ↔
      key ∈ e ∧ inRange (edgeKey part edge 0) (edgeKey part edge Int64.maxValue) key = true := by
  rw [foundEdgeKeys, mem_map]
  constructor
  · rintro ⟨row, hrow, rfl⟩
    obtain ⟨hval, hrange⟩ := Engine.mem_rangeScan.mp hrow
    exact ⟨lookup_isSome.mp (by rw [hval]; rfl), hrange⟩
  · rintro ⟨hin, hrange⟩
    obtain ⟨val, hval⟩ := Option.isSome_iff_exists.mp (lookup_isSome.mpr hin)
    exact ⟨(key, val), Engine.mem_rangeScan.mpr ⟨hval, hrange⟩, rfl⟩

theorem Content.exists_deleteEdges_iff :
    (∃ batch, deleteEdges schemas indexes part edges content.engine = .ok batch) ↔
      ∀ edge ∈ edges, ∀ row, (content.engine.scan (edgePrefix part edge)).head? = some row →
        RowReads indexes edge.edgeType (schemas.getEdgePropReader edge.edgeType row.2) := by
  refine exists_map_eq_ok_iff.trans ((exists_mapM_eq_ok_iff _ _).trans ?_)
  refine forall₂_congr fun edge _ => ?_
  cases content.engine.scan (edgePrefix part edge) with
  | nil => simp [edgeRemovals]
  | cons row rows =>
    rw [edgeRemovals, exists_bind_bind_eq_ok_iff, newestIndexKeys, if_pos rfl,
      exists_rowIndexKeys_iff, edgeRemovals_false]
    simp

theorem mem_edgeRemovals_of_data {e : Engine}
    (h : edgeRemovals schemas indexes part edge true (e.scan (edgePrefix part edge)) = .ok keys)
    (hdata : hasType key .data = true) : key ∈ keys ↔ key ∈ e ∧ edgePrefix part edge <+: key := by
  rw [mem_edgeRemovals h, Engine.exists_mem_scan_iff]
  refine or_iff_left ?_
  rintro ⟨-, -, index, -, -, reader, values, -, -, rfl⟩
  rw [hasType_edgeIndexKey] at hdata
  cases hdata

/-- The data keys that the atomic operation removes. -/
theorem Content.lookup_deleteEdges
    (h : deleteEdges schemas indexes part edges content.engine = .ok batch)
    (hdata : hasType key .data = true) : ((content.engine.write batch).lookup key = none ∧
        ∃ edge ∈ edges, IsEdgeKey part edge key ∧ key ∈ content.engine) ∨
      ((content.engine.write batch).lookup key = content.engine.lookup key ∧
        ∀ edge ∈ edges, edgePrefix part edge <+: key → key ∉ content.engine) := by
  obtain ⟨keys, hkeys, h⟩ := exists_of_bind_eq_ok h
  cases h
  refine (lookup_removals hkeys fun edge _ ks hks => mem_edgeRemovals_of_data hks hdata).imp_left ?_
  rintro ⟨hnone, edge, hedge, hin, hpre⟩
  exact ⟨hnone, edge, hedge, content.of_edgePrefix hin hpre, hin⟩

theorem Content.edgeDeletionsAgree_iff :
    EdgeDeletionsAgree schemas indexes content edges ↔
      EdgesDeletable schemas indexes part edges content.engine := by
  have hplain (timed : List (ℕ × EdgeKey)) (htimed : timed.map Prod.snd = edges) (key : Bytes) :
      (removeEach (foundEdgeKeys part) timed [] content.engine).lookup key =
        if ∃ edge ∈ edges, inRange (edgeKey part edge 0) (edgeKey part edge Int64.maxValue) key =
          true
        then none else content.engine.lookup key := by
    rw [lookup_removeEach mem_foundEdgeKeys, htimed]
    simp
  constructor
  · rintro ⟨batch, h, hagree⟩ edge hedge
    have hreads := content.exists_deleteEdges_iff.mp ⟨batch, h⟩
    refine ⟨fun ev hin => ?_, hreads edge hedge⟩
    -- the atomic operation removes this version, so it is found in a range
    have hself : edgePrefix part edge <+: edgeKey part edge ev := prefix_append _ _
    obtain ⟨heq, -⟩ := hagree (edges.map fun edge => (0, edge))
      (by rw [map_map]; exact map_id edges) _ (hasType_edgeKey part edge ev)
    rcases content.lookup_deleteEdges h (hasType_edgeKey part edge ev) with ⟨hnone, -⟩ | ⟨-, hout⟩
    · rw [hnone, hplain _ (by rw [map_map]; exact map_id edges)] at heq
      split_ifs at heq with hrange
      · obtain ⟨edge', -, hrange⟩ := hrange
        obtain ⟨rest, hkey, -⟩ := inRange_edgeKey.mp hrange
        have hpre : edgePrefix part edge' <+: edgeKey part edge ev := ⟨rest, hkey.symm⟩
        have hsame : edgePrefix part edge' = edgePrefix part edge :=
          edgePrefix_inj.mpr (edgePrefix_prefix_edgeKey.mp hpre)
        rw [edgeKey, edgeKey, hsame] at hrange
        exact inRange_edgeKey_edgeKey.mp hrange
      · exact absurd heq.symm (fun hc => lookup_eq_none.mp hc hin)
    · exact absurd hin (hout edge hedge hself)
  · intro hdel
    obtain ⟨batch, h⟩ := content.exists_deleteEdges_iff.mpr
      fun edge hedge => (hdel edge hedge).2
    refine ⟨batch, h, fun timed htimed key hdata => ?_⟩
    rw [hplain timed htimed]
    rcases content.lookup_deleteEdges h hdata with ⟨hnone, edge, hedge, hkey, hin⟩ | ⟨hsame, hout⟩
    · obtain ⟨ev, rfl⟩ := hkey
      have hrange := (@inRange_edgeKey_edgeKey part edge ev).mpr ((hdel edge hedge).1 ev hin)
      rw [if_pos ⟨edge, hedge, hrange⟩, hnone]
      exact ⟨rfl, .inr ⟨edge, hedge, ev, rfl⟩⟩
    rw [hsame]
    refine ⟨?_, .inl rfl⟩
    split_ifs with hrange
    · obtain ⟨edge, hedge, hrange⟩ := hrange
      obtain ⟨rest, rfl, -⟩ := inRange_edgeKey.mp hrange
      exact lookup_eq_none.mpr (hout edge hedge (prefix_append _ _))
    · rfl

end Content

/-- **Indexed and plain deletion agree** exactly when the vertices have no outgoing edges,
the versions of the edges are in the range, and the newest rows are read. -/
theorem deletionsAgree_iff (schemas : SchemaManager) (indexes : List IndexItem) {part : Int32}
    (content : Content part) (vertices : List Int64) (edges : List EdgeKey) :
    (VertexDeletionsAgree schemas indexes content vertices ↔
      VerticesDeletable schemas indexes part vertices content.engine) ∧
    (EdgeDeletionsAgree schemas indexes content edges ↔
      EdgesDeletable schemas indexes part edges content.engine) :=
  ⟨content.vertexDeletionsAgree_iff, content.edgeDeletionsAgree_iff⟩

/-! ### An edge that leaves a vertex -/

/-- Rows of one byte are read and have no properties; an empty row is not read. -/
def plainSchemas : SchemaManager where
  getTagPropReader _ row := if row = [] then .null else .ok ⟨fun _ => .null⟩
  getEdgePropReader _ row := if row = [] then .null else .ok ⟨fun _ => .null⟩

/-- An edge from the vertex `1`. -/
def outEdge : EdgeKey := ⟨1, 7, 0, 2⟩

/-- The vertex `1` with a tag, and an edge that leaves it, whose row is not read. -/
def edgeContent : Content 1 where
  engine := (AList.insert (vertexKey 1 1 5 0) [0] ∅).insert (edgeKey 1 outEdge 0) []
  graphKeys := by
    intro key hkey _
    rcases (mem_insert _).mp hkey with rfl | hkey
    · exact .inr ⟨outEdge, 0, rfl⟩
    · rcases (mem_insert _).mp hkey with rfl | hkey
      · exact .inl ⟨1, 5, 0, rfl⟩
      · exact absurd hkey (notMem_empty key)

/-- With an index the vertex is not deleted, because an edge leaves it: the tag of the edge
key is read, which is fatal.  The edge is not deleted either, because its row is not read.
Without indexes both are. -/
theorem not_deletionsAgree :
    ¬ VertexDeletionsAgree plainSchemas [⟨1, 5, []⟩] edgeContent [1] ∧
      ¬ EdgeDeletionsAgree plainSchemas [⟨2, 7, []⟩] edgeContent [outEdge] := by
  constructor
  · rw [edgeContent.vertexDeletionsAgree_iff]
    intro h
    exact (h 1 mem_cons_self).1 outEdge 0 rfl ((mem_insert _).mpr (.inl rfl))
  rw [edgeContent.edgeDeletionsAgree_iff]
  intro h
  have hhead : (edgeContent.engine.scan (edgePrefix 1 outEdge)).head? =
      some (edgeKey 1 outEdge 0, []) := by decide +kernel
  obtain ⟨reader, hread, -⟩ := (h outEdge mem_cons_self).2 _ hhead ⟨2, 7, []⟩
    mem_cons_self rfl
  cases hread

end K2Graph.Storaged
