import K2Graph.Storaged.Mutate

/-!
# Rows that cannot be read

When a row is not opened, `addVertices` and `addEdges` return an empty string where
`folly::none` would make the operation fail.  The empty log is committed and the client is
told of a success, although nothing was written.  `UpdateVertexProcessor` does the same
when the new row cannot be encoded.

Rows whose tag or edge type has no index are not read at all, and the updates write a new
row whether or not it can be read.
-/

namespace K2Graph.Storaged

open List AList LittleEndian Kvstore

/-- The indexes of a space.  Every index has an id of its own, and those of edges are of
edge types, not of their reverses. -/
structure IndexSet where
  tags : List IndexItem
  edges : List IndexItem
  ids : ((tags ++ edges).map IndexItem.indexId).Nodup
  positive : ∀ index ∈ edges, 0 < index.schemaId

/-- The row can be read. -/
def Readable (read : Read RowReader) : Prop := ∃ reader, read = .ok reader

variable (schemas : SchemaManager)

def readTagRow (row : Bytes × Bytes) : Read RowReader :=
  schemas.getTagPropReader (int32At row.1 12) row.2

/-- A row of an edge is opened, with the schema of the edge type in either direction. -/
def readEdgeRow (row : Bytes × Bytes) : Read RowReader :=
  schemas.getEdgePropReader (absType (typeOfWord (int32At row.1 12))) row.2

/-- The rows of a request, and the newest rows that are stored in their places. -/
def Table.involved (T : Table) (rows : List (Bytes × Bytes)) (e : Engine) : List (Bytes × Bytes) :=
  newRows rows ++ (newRows rows).filterMap fun row => (e.scan (T.versions row.1)).head?

/-- A row that cannot be read makes the operation fail and changes nothing; after a success
every row is written. -/
def AddAtomic (T : Table) (readRow : Bytes × Bytes → Read RowReader) (rows : List (Bytes × Bytes))
    (e : Engine) (result : Report × Engine) : Prop :=
  ((∃ row ∈ T.involved rows e, ¬ Readable (readRow row)) → result = (.failed, e)) ∧
  (result.1 = .succeeded → ∀ row ∈ newRows rows, result.2.lookup row.1 = some row.2)

variable (newest : Option (Bytes × Bytes)) (read : Bytes → Read RowReader) (req : UpdateRequest)

/-- The new row, where the update gets that far. -/
def evaluated : Option Evaluated :=
  match newest with
  | some row =>
      match read row.2 with
      | .ok reader => some (req.evaluate (some reader))
      | _ => none
  | none => if req.insertable then some (req.evaluate none) else none

/-- If the old row or the new one cannot be read the operation fails and changes nothing;
after a success the new row is written. -/
def UpdateAtomic (newKey : Bytes) (e : Engine) (result : Report × Engine) : Prop :=
  ((∃ row, newest = some row ∧ ¬ Readable (read row.2)) ∨
      (∃ nVal, evaluated newest read req = some (.row nVal) ∧ ¬ Readable (read nVal)) →
    result = (.failed, e)) ∧
  (result.1 = .succeeded → ∃ nVal, evaluated newest read req = some (.row nVal) ∧
    result.2.lookup ((newest.map Prod.fst).getD newKey) = some nVal)

/-- Opening the old row does not end the process, and the new row can be read. -/
def UpdateSafe : Prop :=
  (∀ row, newest = some row → read row.2 ≠ .fatal) ∧
  ∀ nVal, evaluated newest read req = some (.row nVal) → Readable (read nVal)

variable (indexes : List IndexItem) (part : Int32) (version : Int64)

/-- `AddVertices` is atomic. -/
def VerticesAddedAtomically (vertices : List NewVertex) (e : Engine) : Prop :=
  AddAtomic (tagTable schemas part) (readTagRow schemas) (vertexRows part version vertices) e
    (addVertices schemas indexes part [] version vertices e)

/-- `AddEdges` is atomic. -/
def EdgesAddedAtomically (edges : List NewEdge) (e : Engine) : Prop :=
  AddAtomic (edgeTable schemas part) (readEdgeRow schemas) (edgeRows part version edges) e
    (addEdges schemas indexes part [] version edges e)

/-- `UpdateVertex` is atomic. -/
def VertexUpdatedAtomically (vId : Int64) (tagId : Int32) (req : UpdateRequest) (e : Engine) :
    Prop :=
  UpdateAtomic (e.scan (tagPrefix part vId tagId)).head? (schemas.getTagPropReader tagId) req
    (vertexKey part vId tagId version) e (updateVertex schemas indexes part vId tagId version req e)

/-- `UpdateEdge` is atomic. -/
def EdgeUpdatedAtomically (edge : EdgeKey) (req : UpdateRequest) (e : Engine) : Prop :=
  UpdateAtomic (e.scan (edgePrefix part edge)).head?
    (schemas.getEdgePropReader (absType edge.edgeType)) req (edgeKey part edge version) e
    (updateEdge schemas indexes part edge version req e)

/-! ### Adding -/

theorem lookup_foldl_insert (rows : List (Bytes × Bytes)) (m : Engine) (k : Bytes) :
    (rows.foldl (fun m row => m.insert row.1 row.2) m).lookup k =
      ((rows.foldl (fun m row => m.insert row.1 row.2) (∅ : Engine)).lookup k).or (m.lookup k) := by
  induction rows using reverseRecOn with
  | nil => rw [foldl_nil, foldl_nil, lookup_empty, Option.none_or]
  | append_singleton rows row ih =>
    rw [foldl_concat, foldl_concat]
    by_cases hk : k = row.1
    · rw [hk, lookup_insert, lookup_insert, Option.some_or]
    · rw [lookup_insert_ne hk, lookup_insert_ne hk, ih]

variable {rows : List (Bytes × Bytes)}

theorem mem_of_lookup_foldl_insert
    (h : (rows.foldl (fun m row => m.insert row.1 row.2) (∅ : Engine)).lookup k = some v) :
    (k, v) ∈ rows := by
  induction rows using reverseRecOn with
  | nil => cases h
  | append_singleton rows row ih =>
    rw [foldl_concat] at h
    rw [mem_append, mem_singleton]
    by_cases hk : k = row.1
    · rw [hk, lookup_insert] at h
      cases h
      exact .inr (by rw [hk])
    · rw [lookup_insert_ne hk] at h
      exact .inl (ih h)

variable {row : Bytes × Bytes}

theorem mem_of_mem_newRows (h : row ∈ newRows rows) : row ∈ rows :=
  mem_of_lookup_foldl_insert (Engine.mem_scan.mp h).1

namespace Table

variable {T : Table} {indexes : List IndexItem}

theorem process_ne_failed : (T.process [] indexes rows e).1 ≠ .failed := by
  rw [process]
  split_ifs
  · nofun
  rw [add]
  cases (newRows rows).mapM (T.addRow [] indexes e) with
  | ok ops => nofun
  | error stop =>
    cases stop with
    | fatal => nofun
    | none => nofun

theorem lookup_of_add (hdata : ∀ row ∈ rows, hasType row.1 .data = true)
    (hkey : ∀ key indexId values, hasType (T.indexKey key indexId values) .data = false)
    (h : (newRows rows).mapM (T.addRow [] indexes e) = .ok opss) (hrow : row ∈ newRows rows) :
    (e.write opss.flatten).lookup row.1 = some row.2 := by
  have hdescribes := describes_add h
  have hindex {key val k : Bytes} (hk : T.HasKey indexes key val k) : k ≠ row.1 := by
    rintro rfl
    obtain ⟨_, _, _, _, _, _, _, hk⟩ := hk
    have htype := hdata row (mem_of_mem_newRows hrow)
    rw [hk, hkey] at htype
    cases htype
  rw [lookup_write_of_put, if_pos]
  · exact (hdescribes.put_mem _ _).mpr ⟨row, hrow, .inr ⟨rfl, rfl⟩⟩
  intro op hop htouch
  cases op with
  | put k v =>
    obtain rfl : k = row.1 := by simpa [touches] using htouch
    obtain ⟨row', hrow', ⟨-, hk⟩ | ⟨hk, hv⟩⟩ := (hdescribes.put_mem _ _).mp hop
    · exact absurd rfl (hindex hk)
    have hrow'' : (row.1, v) ∈ newRows rows := by
      rw [hk, hv]
      exact hrow'
    rw [value_eq_of_mem_newRows hrow'' hrow]
  | remove k =>
    obtain rfl : k = row.1 := by simpa [touches] using htouch
    obtain ⟨_, _, -, hk⟩ := (hdescribes.remove_mem _).mp hop
    exact absurd rfl (hindex hk)
  | removeRange start stop => exact absurd hop (hdescribes.no_range start stop)

/-- **When additions are atomic**: when all rows can be read. -/
theorem addAtomic_iff (hdata : ∀ row ∈ rows, hasType row.1 .data = true)
    (hkey : ∀ key indexId values, hasType (T.indexKey key indexId values) .data = false)
    (hself : ∀ row ∈ rows, T.versions row.1 <+: row.1)
    (hread : ∀ row ∈ rows, ∀ index ∈ indexes, index.schemaId = T.schemaId row.1 →
      ∀ key val, T.versions row.1 <+: key → readRow (key, val) = T.read (T.schemaId row.1) val) :
    AddAtomic T readRow rows e (T.process [] indexes rows e) ↔
      ∀ row ∈ T.involved rows e, Readable (readRow row) := by
  constructor
  · rintro ⟨hbad, -⟩ row hrow
    by_contra hnot
    have hfailed := congrArg Prod.fst (hbad ⟨row, hrow, hnot⟩)
    exact process_ne_failed hfailed
  intro hall
  refine ⟨fun ⟨row, hrow, hnot⟩ => absurd (hall row hrow) hnot, fun hsucceeded row hrow => ?_⟩
  rw [process] at hsucceeded ⊢
  split_ifs at hsucceeded ⊢
  · -- the plain way writes the rows that the map holds
    have hwrite : e.write (Operation.multiPut rows).writes =
        rows.foldl (fun m row => m.insert row.1 row.2) e := by
      rw [Operation.writes, Engine.write, foldl_map]
      rfl
    rw [hwrite, lookup_foldl_insert, (Engine.mem_scan.mp hrow).1, Option.some_or]
  rw [add] at hsucceeded ⊢
  cases hops : (newRows rows).mapM (T.addRow [] indexes e) with
  | ok opss => exact lookup_of_add hdata hkey hops hrow
  | error stop =>
    cases stop with
    | fatal =>
      rw [hops] at hsucceeded
      cases hsucceeded
    | none =>
      -- the row that is not opened is among those that can be read
      exfalso
      obtain ⟨row, hrow, index, hindex, hid, hnull⟩ := exists_null_of_add hops
      have hmem := mem_of_mem_newRows hrow
      rcases hnull with ⟨hne, hnull⟩ | hnull
      · rw [findObsoleteIndex, if_pos rfl] at hne hnull
        cases hhead : (e.scan (T.versions row.1)).head? with
        | none =>
          rw [hhead] at hne
          exact hne rfl
        | some old =>
          have hstored : old ∈ T.involved rows e :=
            mem_append_right _ (mem_filterMap.mpr ⟨row, hrow, hhead⟩)
          have hstart := (Engine.mem_scan.mp (mem_of_mem_head? hhead)).2
          obtain ⟨reader, hreader⟩ := hall old hstored
          rw [hread row hmem index hindex hid old.1 old.2 hstart] at hreader
          rw [hhead] at hnull
          cases hreader.symm.trans hnull
      · obtain ⟨reader, hreader⟩ := hall row (mem_append_left _ hrow)
        rw [hread row hmem index hindex hid row.1 row.2 (hself row hmem)] at hreader
        cases hreader.symm.trans hnull

end Table

section Tables

variable {schemas : SchemaManager} {part : Int32} {version : Int64} {indexes : List IndexItem}

theorem verticesAddedAtomically_iff :
    VerticesAddedAtomically schemas indexes part version vertices e ↔
      ∀ row ∈ (tagTable schemas part).involved (vertexRows part version vertices) e,
        Readable (readTagRow schemas row) := by
  have hkeys : ∀ row ∈ vertexRows part version vertices,
      ∃ vId tagId, row.1 = vertexKey part vId tagId version := by
    intro row hrow
    obtain ⟨v, -, hrow⟩ := mem_flatMap.mp hrow
    obtain ⟨tag, -, rfl⟩ := mem_map.mp hrow
    exact ⟨v.id, tag.1, rfl⟩
  refine Table.addAtomic_iff ?_ (fun _ _ _ => hasType_vertexIndexKey _ _ _ _) ?_ ?_
  · intro row hrow
    obtain ⟨vId, tagId, hkey⟩ := hkeys row hrow
    rw [hkey, hasType_vertexKey]
  · intro row hrow
    obtain ⟨vId, tagId, hkey⟩ := hkeys row hrow
    show tagPrefix part (int64At row.1 4) (int32At row.1 12) <+: row.1
    rw [hkey, int64At_vertexKey, int32At_vertexKey, tagPrefix_and]
    exact prefix_append _ _
  · intro row hrow index _ _ key val hstart
    obtain ⟨vId, tagId, hkey⟩ := hkeys row hrow
    have hid : int32At row.1 12 &&& tagMaskSet = int32At row.1 12 := by
      rw [hkey, int32At_vertexKey, Int32.and_assoc, Int32.and_self]
    show schemas.getTagPropReader (int32At key 12) val = _
    rw [int32At_of_eq (vertexPrefix part _) _ hstart (length_vertexPrefix part _), hid]
    rfl

theorem edgesAddedAtomically_iff (hpositive : ∀ index ∈ indexes, 0 < index.schemaId) :
    EdgesAddedAtomically schemas indexes part version edges e ↔
      ∀ row ∈ (edgeTable schemas part).involved (edgeRows part version edges) e,
        Readable (readEdgeRow schemas row) := by
  have hkeys : ∀ row ∈ edgeRows part version edges,
      ∃ edge, row.1 = edgeKey part edge version := by
    intro row hrow
    obtain ⟨edge, -, rfl⟩ := mem_map.mp hrow
    exact ⟨edge.key, rfl⟩
  refine Table.addAtomic_iff ?_ (fun _ _ _ => hasType_edgeIndexKey _ _ _ _) ?_ ?_
  · intro row hrow
    obtain ⟨edge, hkey⟩ := hkeys row hrow
    rw [hkey, hasType_edgeKey]
  · intro row hrow
    obtain ⟨edge, hkey⟩ := hkeys row hrow
    show edgePrefix part (edgeOfKey row.1) <+: row.1
    rw [hkey, edgePrefix_edgeOfKey]
    exact prefix_append _ _
  intro row hrow index hindex hid key val hstart
  obtain ⟨edge, hkey⟩ := hkeys row hrow
  have hword : int32At key 12 = int32At row.1 12 := by
    change edgePrefix part (edgeOfKey row.1) <+: key at hstart
    rw [hkey, edgePrefix_edgeOfKey] at hstart
    rw [int32At_of_edgePrefix hstart, hkey, int32At_edgeKey]
  -- an index is of a positive type, which is its own absolute value
  have hpos : ¬ typeOfWord (int32At row.1 12) < 0 := by
    have hlt := hpositive index hindex
    rw [hid] at hlt
    exact Int32.not_lt.mpr (Int32.le_of_lt hlt)
  show schemas.getEdgePropReader (absType (typeOfWord (int32At key 12))) val = _
  rw [hword, absType, if_neg hpos]
  rfl

end Tables

/-! ### Updating -/

section Update

variable {read : Bytes → Read RowReader} {req : UpdateRequest} {e : Engine}

theorem presentKeys_ne_none : presentKeys schemaId r indexKey index ≠ .error .none := by
  intro h
  unfold presentKeys at h
  cases r with
  | null => cases h
  | fatal | ok reader => cases (read_of_indexKeyOf h).2

variable {key old nVal : Bytes} {indexes : List IndexItem}

theorem writeBack_ne_none :
    writeBack schemaId read indexKey indexes key old nVal ≠ .error .none := by
  intro h
  rcases error_of_bind_eq_error h with h | ⟨_, _, h⟩
  · obtain ⟨index, -, h⟩ := exists_of_mapM_eq_error h
    rcases error_of_bind_eq_error h with h | ⟨_, _, h⟩
    · rw [replacedKeys] at h
      split_ifs at h
      exact presentKeys_ne_none h
    · rcases error_of_bind_eq_error h with h | ⟨_, _, h⟩
      · exact presentKeys_ne_none h
      · cases h
  · cases h

theorem lookup_of_writeBack (h : writeBack schemaId read indexKey indexes key old nVal = .ok op) :
    (e.write op.writes).lookup key = some nVal := by
  obtain ⟨opss, -, h⟩ := exists_of_bind_eq_ok h
  cases h
  rw [Operation.writes, Engine.write_append]
  exact lookup_insert _

/-- What an update writes, given how a row that cannot be encoded ends. -/
structure WritesRow (write : Bytes → Bytes → Evaluated → Except Stop Operation) (quiet : Bool) :
    Prop where
  fatal : ∀ key old, write key old .fatal = .error .fatal
  rejected : ∀ key old, write key old .rejected = .error .none
  unencodable : ∀ key old, write key old .unencodable = if quiet then .ok .sync else .error .none
  ne_none : ∀ key old nVal, write key old (.row nVal) ≠ .error .none
  lookup : ∀ key old nVal op (e : Engine), write key old (.row nVal) = .ok op →
    (e.write op.writes).lookup key = some nVal

/-- An update whose old row was read. -/
theorem WritesRow.atomic_iff (hw : WritesRow write quiet) (key old : Bytes) (ev : Evaluated) :
    ((∃ nVal, ev = .row nVal ∧ ¬ Readable (read nVal)) →
        atomicOp (write key old ev) e = (.failed, e)) ∧
      ((atomicOp (write key old ev) e).1 = .succeeded → ∃ nVal, ev = .row nVal ∧
        (atomicOp (write key old ev) e).2.lookup key = some nVal) ↔
    (∀ nVal, ev = .row nVal → Readable (read nVal)) ∧ (quiet = true → ev ≠ .unencodable) := by
  cases ev with
  | fatal => simp [hw.fatal, atomicOp]
  | rejected => simp [hw.rejected, atomicOp]
  | unencodable =>
    rw [hw.unencodable]
    cases quiet <;> simp [atomicOp]
  | row nVal =>
    cases hwrite : write key old (.row nVal) with
    | error stop =>
      cases stop with
      | none => exact absurd hwrite (hw.ne_none key old nVal)
      | fatal => simp [atomicOp]
    | ok op => simp [atomicOp, hw.lookup key old nVal op e hwrite]

theorem WritesRow.updateAtomic_iff (hw : WritesRow write quiet) (newest : Option (Bytes × Bytes))
    (newKey : Bytes) :
    UpdateAtomic newest read req newKey e (atomicOp (updateRow newest read req newKey write) e) ↔
      UpdateSafe newest read req ∧
        (quiet = true → evaluated newest read req ≠ some .unencodable) := by
  cases newest with
  | none =>
    by_cases hinsert : req.insertable = true
    · simp only [UpdateAtomic, UpdateSafe, evaluated, updateRow, hinsert, if_true, reduceCtorEq,
        false_and, exists_false, false_or, Option.some.injEq,
        false_implies, implies_true, true_and, ne_eq]
      exact hw.atomic_iff newKey [] (req.evaluate none)
    · simp [UpdateAtomic, UpdateSafe, evaluated, updateRow, hinsert, atomicOp]
  | some row =>
    cases hread : read row.2 with
    | fatal => simp [UpdateAtomic, UpdateSafe, updateRow, atomicOp, Readable, hread]
    | null => simp [UpdateAtomic, UpdateSafe, evaluated, updateRow, atomicOp, hread]
    | ok reader =>
      have hreadable : Readable (.ok reader) := ⟨reader, rfl⟩
      simp only [UpdateAtomic, UpdateSafe, evaluated, updateRow, hread, Option.some.injEq,
        exists_eq_left', forall_eq', hreadable, not_true_eq_false, false_or, reduceCtorEq, ne_eq,
          not_false_eq_true, true_and]
      exact hw.atomic_iff row.1 row.2 (req.evaluate (some reader))

end Update

/-- **Indexed writes and rows that cannot be read.**  For every partition and every request,
additions are atomic exactly when all rows involved can be read; updates when opening the
old row does not end the process and the new row can be read and, for vertices, encoded. -/
theorem writesAtomic_iff (schemas : SchemaManager) (sets : IndexSet) (part : Int32)
    (version : Int64) (e : Engine) :
    (∀ vertices, VerticesAddedAtomically schemas sets.tags part version vertices e ↔
      ∀ row ∈ (tagTable schemas part).involved (vertexRows part version vertices) e,
        Readable (readTagRow schemas row)) ∧
    (∀ edges, EdgesAddedAtomically schemas sets.edges part version edges e ↔
      ∀ row ∈ (edgeTable schemas part).involved (edgeRows part version edges) e,
        Readable (readEdgeRow schemas row)) ∧
    (∀ vId tagId req, VertexUpdatedAtomically schemas sets.tags part version vId tagId req e ↔
      UpdateSafe (e.scan (tagPrefix part vId tagId)).head? (schemas.getTagPropReader tagId) req ∧
        evaluated (e.scan (tagPrefix part vId tagId)).head? (schemas.getTagPropReader tagId) req ≠
          some .unencodable) ∧
    ∀ edge req, EdgeUpdatedAtomically schemas sets.edges part version edge req e ↔
      UpdateSafe (e.scan (edgePrefix part edge)).head?
        (schemas.getEdgePropReader (absType edge.edgeType)) req := by
  refine ⟨fun vertices => verticesAddedAtomically_iff,
    fun edges => edgesAddedAtomically_iff sets.positive, fun vId tagId req => ?_,
    fun edge req => ?_⟩
  · have hwrites : WritesRow (writeVertex schemas sets.tags part vId tagId) true :=
      ⟨fun _ _ => rfl, fun _ _ => rfl, fun _ _ => rfl, fun _ _ _ => writeBack_ne_none,
        fun _ _ _ _ _ => lookup_of_writeBack⟩
    refine (hwrites.updateAtomic_iff _ _).trans ?_
    exact and_congr_right fun _ => ⟨fun h => h rfl, fun h _ => h⟩
  · have hwrites : WritesRow (writeEdge schemas sets.edges part edge) false :=
      ⟨fun _ _ => rfl, fun _ _ => rfl, fun _ _ => rfl, fun _ _ _ => writeBack_ne_none,
        fun _ _ _ _ _ => lookup_of_writeBack⟩
    refine (hwrites.updateAtomic_iff _ _).trans ?_
    exact and_iff_left nofun

/-! ### An empty log -/

/-- A vertex, an edge and an update that go wrong: the rows are empty, and the new row is
not encoded. -/
theorem not_writesAtomic :
    ¬ VerticesAddedAtomically plainSchemas [⟨1, 5, []⟩] 1 0 [⟨1, [(5, [])]⟩] ∅ ∧
      ¬ EdgesAddedAtomically plainSchemas [⟨2, 7, []⟩] 1 0 [⟨outEdge, []⟩] ∅ ∧
      ¬ VertexUpdatedAtomically plainSchemas [⟨1, 5, []⟩] 1 0 1 5 ⟨true,
        fun _ => .unencodable⟩ ∅ := by
  refine ⟨fun h => ?_, fun h => ?_, fun h => ?_⟩
  · have hwritten := h.2 (by decide +kernel) (vertexKey 1 1 5 0, []) (by decide +kernel)
    revert hwritten
    decide +kernel
  · have hwritten := h.2 (by decide +kernel) (edgeKey 1 outEdge 0, []) (by decide +kernel)
    revert hwritten
    decide +kernel
  · obtain ⟨nVal, hnew, -⟩ := h.2 (by decide +kernel)
    have hnone : evaluated ((∅ : Engine).scan (tagPrefix 1 1 5)).head?
        (plainSchemas.getTagPropReader 5) ⟨true, fun _ => .unencodable⟩ = some .unencodable := rfl
    cases hnone.symm.trans hnew

end K2Graph.Storaged
