import K2Graph.Storaged.BadRows

/-!
# Index keys of the newest rows

An index is right when its keys are those of the newest rows.  A write touches some
items, which are the tags of vertices and the edges, without their versions.  The index
stays right if for these items the keys of the old newest rows go and those of the new
ones come: an index key tells what item it is of, so that nothing else can need a key
that goes.

## Main results

* `Effect.consistent` — such a write keeps the index right.
* `Replaces.effect`, `effect_of_removed`, `effect_of_no_items` — three ways of writing.
-/

namespace K2Graph.Storaged

open List LittleEndian Kvstore

/-! ### Newest rows -/

variable {row : Bytes × Bytes}

theorem find?_eq_some_iff_least {rows : List (Bytes × Bytes)}
    (hsorted : rows.Pairwise fun x y => x.1 < y.1) : rows.find? p = some row ↔
      row ∈ rows ∧ p row = true ∧ ∀ row' ∈ rows, p row' = true → row.1 ≤ row'.1 := by
  induction rows with
  | nil => simp
  | cons first rows ih =>
    obtain ⟨hfirst, hrest⟩ := pairwise_cons.mp hsorted
    by_cases hp : p first = true
    · rw [find?_cons_of_pos hp, Option.some.injEq]
      constructor
      · rintro rfl
        refine ⟨mem_cons_self, hp, forall_mem_cons.mpr ⟨fun _ => List.le_refl _, ?_⟩⟩
        exact fun row' hrow' _ => List.le_of_lt (hfirst row' hrow')
      · rintro ⟨hrow, -, hleast⟩
        rcases mem_cons.mp hrow with rfl | hrow
        · rfl
        · have hle := hleast first mem_cons_self hp
          exact absurd (hfirst row hrow) (List.not_lt.mpr hle)
    · rw [find?_cons_of_neg hp, ih hrest, mem_cons, forall_mem_cons]
      constructor
      · rintro ⟨hrow, hprow, hleast⟩
        exact ⟨.inr hrow, hprow, fun h => absurd h hp, hleast⟩
      · rintro ⟨rfl | hrow, hprow, -, hleast⟩
        · exact absurd hprow hp
        · exact ⟨hrow, hprow, hleast⟩

theorem isNewest_scan_iff {e : Engine} : IsNewest (e.scan start) row ↔ row ∈ e.scan start ∧
      ∀ row' ∈ e.scan start, keyWithNoVersion row'.1 = keyWithNoVersion row.1 → row.1 ≤ row'.1 := by
  rw [IsNewest, find?_eq_some_iff_least (e.pairwise_scan start)]
  simp

theorem IsNewest.eq (h : IsNewest rows row) (h' : IsNewest rows row')
    (hitem : keyWithNoVersion row.1 = keyWithNoVersion row'.1) : row = row' := by
  rw [IsNewest, hitem] at h
  exact Option.some.inj (h.symm.trans h')

theorem head?_scan_eq_some_iff {e : Engine} : (e.scan start).head? = some row ↔
      row ∈ e.scan start ∧ ∀ row' ∈ e.scan start, row.1 ≤ row'.1 := by
  have hfind : (e.scan start).head? = (e.scan start).find? fun _ => true := by
    cases e.scan start <;> rfl
  rw [hfind, find?_eq_some_iff_least (e.pairwise_scan start)]
  simp

theorem hasType_of_keyItem {key : Bytes} (h : keyItem part type <+: key) (type' : KeyType) :
    hasType key type' = decide (type = type') := by
  obtain ⟨rest, rfl⟩ := h
  exact hasType_keyItem part type type' rest

theorem not_data_of_index {key : Bytes} (h : keyItem part .index <+: key) :
    ¬ keyItem part .data <+: key := by
  intro hdata
  have htype := hasType_of_keyItem hdata .index
  rw [hasType_of_keyItem h .index] at htype
  cases htype

/-! ### Tags and edges -/

inductive Kind
  | tag
  | edge

/-- `isVertex` or `isEdge`. -/
def Kind.hasKey : Kind → Bytes → Bool
  | .tag => isVertex
  | .edge => isEdge

/-- A partition of a space, with the schemas, the indexes and the flag
`enable_multi_versions`.  There is no reader for a row that is empty, because the version
of its schema is not known. -/
structure Space where
  schemas : SchemaManager
  indexes : IndexSet
  part : Int32
  multiVersions : Bool
  emptyTag : ∀ tagId, schemas.getTagPropReader tagId [] = .null
  emptyEdge : ∀ edgeType, schemas.getEdgePropReader edgeType [] = .null

namespace Space

variable (S : Space)

def table : Kind → Table
  | .tag => tagTable S.schemas S.part
  | .edge => edgeTable S.schemas S.part

def items : Kind → List IndexItem
  | .tag => S.indexes.tags
  | .edge => S.indexes.edges

def dataRows (e : Engine) : List (Bytes × Bytes) := e.scan (keyItem S.part .data)

def Indexed (row : Bytes × Bytes) (k : Bytes) : Prop :=
  ∃ kind : Kind, kind.hasKey row.1 = true ∧ (S.table kind).HasKey (S.items kind) row.1 row.2 k

end Space

/-- The index keys of the partition are those of the newest rows. -/
def IndexConsistent (S : Space) (e : Engine) : Prop :=
  ∀ k, keyItem S.part .index <+: k →
    (k ∈ e ↔ ∃ row, IsNewest (S.dataRows e) row ∧ S.Indexed row k)

variable (part : Int32)

/-- A key of a tag of a vertex, or of an edge. -/
def GraphKey : Kind → Bytes → Prop
  | .tag, key => ∃ vId, IsVertexKey part vId key
  | .edge, key => ∃ edge, IsEdgeKey part edge key

section GraphKey

variable {part : Int32}

section

variable (h : GraphKey part kind key)
include h

theorem GraphKey.data : keyItem part .data <+: key := by
  cases kind with
  | tag =>
    obtain ⟨vId, tagId, tv, rfl⟩ := h
    exact ((prefix_append _ _).trans (prefix_append _ _)).trans (prefix_append _ _)
  | edge =>
    obtain ⟨edge, ev, rfl⟩ := h
    exact (prefix_append _ _).trans
      ((prefix_append (vertexPrefix part edge.src) _).trans
        (typePrefix_prefix_edgeKey_self part edge ev))

theorem GraphKey.hasKey : kind'.hasKey key = true ↔ kind' = kind := by
  cases kind with
  | tag =>
    obtain ⟨vId, tagId, tv, rfl⟩ := h
    cases kind' <;> simp [Kind.hasKey]
  | edge =>
    obtain ⟨edge, ev, rfl⟩ := h
    cases kind' <;> simp [Kind.hasKey]

theorem GraphKey.length :
    (keyWithNoVersion key).length = match kind with | .tag => 16 | .edge => 32 := by
  cases kind with
  | tag =>
    obtain ⟨vId, tagId, tv, rfl⟩ := h
    rw [keyWithNoVersion_vertexKey, length_tagPrefix]
  | edge =>
    obtain ⟨edge, ev, rfl⟩ := h
    rw [keyWithNoVersion_edgeKey, length_edgePrefix]

theorem GraphKey.kind_eq (h' : GraphKey part kind' key')
    (hitem : keyWithNoVersion key = keyWithNoVersion key') : kind = kind' := by
  have hlen := h.length
  rw [hitem, h'.length] at hlen
  cases kind <;> cases kind' <;> simp_all

theorem GraphKey.prefix_iff (h' : GraphKey part kind' key') :
    keyWithNoVersion key <+: key' ↔ keyWithNoVersion key' = keyWithNoVersion key := by
  constructor
  · intro hstart
    cases kind with
    | tag =>
      obtain ⟨vId, tagId, tv, rfl⟩ := h
      rw [keyWithNoVersion_vertexKey] at hstart ⊢
      cases kind' with
      | tag =>
        obtain ⟨vId', tagId', tv', rfl⟩ := h'
        exact (tagPrefix_inj.mpr (tagPrefix_prefix_vertexKey.mp hstart)).symm
      | edge =>
        obtain ⟨edge', ev', rfl⟩ := h'
        exact absurd hstart not_tagPrefix_prefix_edgeKey
    | edge =>
      obtain ⟨edge, ev, rfl⟩ := h
      rw [keyWithNoVersion_edgeKey] at hstart ⊢
      cases kind' with
      | tag =>
        obtain ⟨vId', tagId', tv', rfl⟩ := h'
        exact absurd hstart not_edgePrefix_prefix_vertexKey
      | edge =>
        obtain ⟨edge', ev', rfl⟩ := h'
        rw [keyWithNoVersion_edgeKey]
        exact (edgePrefix_inj.mpr (edgePrefix_prefix_edgeKey.mp hstart)).symm
  · intro hitem
    rw [← hitem]
    exact take_prefix _ _

end

end GraphKey

/-- The data keys are keys of vertices and edges. -/
def WellKeyed (e : Engine) : Prop :=
  ∀ key ∈ e, keyItem part .data <+: key → ∃ kind, GraphKey part kind key

/-- A partition with such keys. -/
def WellKeyed.content {part : Int32} {e : Engine} (h : WellKeyed part e) : Content part where
  engine := e
  graphKeys := by
    intro key hkey hdata
    obtain ⟨kind, hgraph⟩ := h key hkey hdata
    cases kind with
    | tag => exact .inl hgraph
    | edge => exact .inr hgraph

section Rows

variable {S : Space}

theorem mem_of_mem_dataRows (h : row ∈ S.dataRows e) : row.1 ∈ e := Engine.mem_of_mem_scan h

theorem WellKeyed.of_mem_dataRows (h : WellKeyed S.part e) (hrow : row ∈ S.dataRows e) :
    ∃ kind, GraphKey S.part kind row.1 :=
  h row.1 (mem_of_mem_dataRows hrow) (Engine.mem_scan.mp hrow).2

theorem IsNewest.mem_dataRows (h : IsNewest (S.dataRows e) row) : row ∈ S.dataRows e :=
  (isNewest_scan_iff.mp h).1

theorem WellKeyed.head?_scan (h : WellKeyed S.part e) (hkey : GraphKey S.part kind key) :
    (e.scan (keyWithNoVersion key)).head? = some row ↔
      IsNewest (S.dataRows e) row ∧ keyWithNoVersion row.1 = keyWithNoVersion key := by
  have hmem (r : Bytes × Bytes) : r ∈ e.scan (keyWithNoVersion key) ↔
      r ∈ S.dataRows e ∧ keyWithNoVersion r.1 = keyWithNoVersion key := by
    constructor
    · intro hr
      obtain ⟨hval, hstart⟩ := Engine.mem_scan.mp hr
      have hdata : keyItem S.part .data <+: r.1 := by
        refine List.IsPrefix.trans ?_ hstart
        have hcut : keyWithNoVersion key <+: key := take_prefix _ _
        refine prefix_of_prefix_length_le hkey.data hcut ?_
        rw [hkey.length, length_keyItem]
        cases kind <;> simp only <;> omega
      have hrow : r ∈ S.dataRows e := Engine.mem_scan.mpr ⟨hval, hdata⟩
      obtain ⟨kind', hgraph⟩ := h.of_mem_dataRows hrow
      exact ⟨hrow, (hkey.prefix_iff hgraph).mp hstart⟩
    · rintro ⟨hr, hitem⟩
      obtain ⟨kind', hgraph⟩ := h.of_mem_dataRows hr
      exact Engine.mem_scan.mpr ⟨(Engine.mem_scan.mp hr).1, (hkey.prefix_iff hgraph).mpr hitem⟩
  rw [head?_scan_eq_some_iff, Space.dataRows, isNewest_scan_iff, hmem]
  constructor
  · rintro ⟨⟨hrow, hitem⟩, hleast⟩
    exact ⟨⟨hrow, fun r hr heq => hleast r ((hmem r).mpr ⟨hr, heq.trans hitem⟩)⟩, hitem⟩
  rintro ⟨⟨hrow, hleast⟩, hitem⟩
  refine ⟨⟨hrow, hitem⟩, fun r hr => ?_⟩
  obtain ⟨hr, hritem⟩ := (hmem r).mp hr
  exact hleast r hr (hritem.trans hitem.symm)

/-! ### Index keys -/

theorem GraphKey.indexed_iff (h : GraphKey S.part kind row.1) :
    S.Indexed row k ↔ (S.table kind).HasKey (S.items kind) row.1 row.2 k := by
  constructor
  · rintro ⟨kind', hhas, hkey⟩
    obtain rfl := h.hasKey.mp hhas
    exact hkey
  · intro hkey
    exact ⟨kind, h.hasKey.mpr rfl, hkey⟩

section

variable (h : GraphKey S.part kind key)
include h

theorem GraphKey.versions :
    (S.table kind).versions key = keyWithNoVersion key := by
  cases kind with
  | tag =>
    obtain ⟨vId, tagId, tv, rfl⟩ := h
    show tagPrefix S.part (int64At _ 4) (int32At _ 12) = _
    rw [int64At_vertexKey, int32At_vertexKey, tagPrefix_and, keyWithNoVersion_vertexKey]
  | edge =>
    obtain ⟨edge, ev, rfl⟩ := h
    show edgePrefix S.part (edgeOfKey _) = _
    rw [edgePrefix_edgeOfKey, keyWithNoVersion_edgeKey]

theorem GraphKey.congr (h' : GraphKey S.part kind key')
    (hitem : keyWithNoVersion key = keyWithNoVersion key') :
    (S.table kind).schemaId key = (S.table kind).schemaId key' ∧
      (S.table kind).indexKey key = (S.table kind).indexKey key' := by
  cases kind with
  | tag =>
    obtain ⟨vId, tagId, tv, rfl⟩ := h
    obtain ⟨vId', tagId', tv', rfl⟩ := h'
    rw [keyWithNoVersion_vertexKey, keyWithNoVersion_vertexKey, tagPrefix_inj] at hitem
    simp [Space.table, tagTable, int64At_vertexKey, int32At_vertexKey, hitem]
  | edge =>
    obtain ⟨edge, ev, rfl⟩ := h
    obtain ⟨edge', ev', rfl⟩ := h'
    rw [keyWithNoVersion_edgeKey, keyWithNoVersion_edgeKey, edgePrefix_inj] at hitem
    obtain ⟨hsrc, hword, hrank, hdst⟩ := EdgeKey.mk.inj hitem
    simp [Space.table, edgeTable, edgeOfKey_edgeKey, int32At_edgeKey, hsrc, hword, hrank, hdst]

theorem GraphKey.hasKey_congr (h' : GraphKey S.part kind key')
    (hitem : keyWithNoVersion key = keyWithNoVersion key') :
    (S.table kind).HasKey indexes key val k ↔ (S.table kind).HasKey indexes key' val k := by
  obtain ⟨hid, hindex⟩ := h.congr h' hitem
  rw [Table.HasKey, Table.HasKey, hid, hindex]

end

theorem indexPrefix_of_hasKey (h : (S.table kind).HasKey indexes key val k) :
    ∃ index ∈ indexes, index.schemaId = (S.table kind).schemaId key ∧
      indexPrefix S.part index.indexId <+: k ∧
      ∃ values, k = (S.table kind).indexKey key index.indexId values := by
  obtain ⟨index, hindex, hid, reader, values, -, -, rfl⟩ := h
  refine ⟨index, hindex, hid, ?_, values, rfl⟩
  cases kind <;> exact prefix_append _ _

theorem keyItem_of_hasKey (h : (S.table kind).HasKey indexes key val k) :
    keyItem S.part .index <+: k := by
  obtain ⟨index, -, -, hstart, -⟩ := indexPrefix_of_hasKey h
  exact (prefix_append _ _).trans hstart

theorem mem_tags_append_edges (h : index ∈ S.items kind) :
    index ∈ S.indexes.tags ++ S.indexes.edges := by
  cases kind with
  | tag => exact mem_append_left _ h
  | edge => exact mem_append_right _ h

theorem index_eq_of_indexPrefix (h : index ∈ S.items kind) (h' : index' ∈ S.items kind')
    (hstart : indexPrefix S.part index.indexId <+: k)
    (hstart' : indexPrefix S.part index'.indexId <+: k) : kind = kind' ∧ index = index' := by
  have hlen (id : Int32) : (indexPrefix S.part id).length = 8 := by
    rw [indexPrefix, length_append, length_keyItem, length_ofInt]
  have hpre : indexPrefix S.part index.indexId = indexPrefix S.part index'.indexId := by
    rw [prefix_iff_eq_take.mp hstart, prefix_iff_eq_take.mp hstart', hlen, hlen]
  have hid : index.indexId = index'.indexId := by
    rw [indexPrefix, indexPrefix, append_cancel_left_eq, ofInt_int32_inj] at hpre
    exact hpre
  have hids := S.indexes.ids
  refine ⟨?_, inj_on_of_nodup_map hids (mem_tags_append_edges h) (mem_tags_append_edges h') hid⟩
  rw [map_append, nodup_append] at hids
  have hne := hids.2.2
  cases kind <;> cases kind'
  · rfl
  · exact absurd hid (hne _ (mem_map_of_mem h) _ (mem_map_of_mem h'))
  · exact absurd hid.symm (hne _ (mem_map_of_mem h') _ (mem_map_of_mem h))
  · rfl

/-- What an index key is of stands in the key, but for the tag or the edge type, which is
that of the index. -/
theorem item_eq_of_indexKey (h : GraphKey S.part kind key) (h' : GraphKey S.part kind key')
    (hid : (S.table kind).schemaId key = (S.table kind).schemaId key')
    (heq : (S.table kind).indexKey key indexId values =
      (S.table kind).indexKey key' indexId values') :
    keyWithNoVersion key = keyWithNoVersion key' := by
  cases kind with
  | tag =>
    obtain ⟨vId, tagId, tv, rfl⟩ := h
    obtain ⟨vId', tagId', tv', rfl⟩ := h'
    have hvertex := vertexIndexKey_inj heq
    rw [int64At_vertexKey, int64At_vertexKey] at hvertex
    simp only [Space.table, tagTable, int32At_vertexKey] at hid
    rw [keyWithNoVersion_vertexKey, keyWithNoVersion_vertexKey, tagPrefix_inj]
    exact ⟨hvertex, hid⟩
  | edge =>
    obtain ⟨edge, ev, rfl⟩ := h
    obtain ⟨edge', ev', rfl⟩ := h'
    have hends := edgeIndexKey_inj heq
    simp only [edgeOfKey_edgeKey] at hends
    have hbit (type : Int32) : (type ||| edgeMaskSet) &&& tagEdgeMask ≠ 0 := by
      rw [or_edgeMaskSet_and]
      decide
    simp only [Space.table, edgeTable, int32At_edgeKey] at hid
    rw [keyWithNoVersion_edgeKey, keyWithNoVersion_edgeKey, edgePrefix_inj, EdgeKey.mk.injEq]
    exact ⟨hends.1, typeOfWord_inj (hbit _) (hbit _) hid, hends.2⟩

theorem GraphKey.item_eq (h : GraphKey S.part kind key) (h' : GraphKey S.part kind' key')
    (hkey : (S.table kind).HasKey (S.items kind) key val k)
    (hkey' : (S.table kind').HasKey (S.items kind') key' val' k) :
    keyWithNoVersion key = keyWithNoVersion key' := by
  obtain ⟨index, hindex, hid, hstart, values, heq⟩ := indexPrefix_of_hasKey hkey
  obtain ⟨index', hindex', hid', hstart', values', heq'⟩ := indexPrefix_of_hasKey hkey'
  obtain ⟨rfl, rfl⟩ := index_eq_of_indexPrefix hindex hindex' hstart hstart'
  exact item_eq_of_indexKey h h' (hid.symm.trans hid') (heq.symm.trans heq')

end Rows

/-! ### Writes -/

/-- A key with a version that is given. -/
def Versioned (version : Int64) (key : Bytes) : Prop :=
  (∃ vId tagId, key = vertexKey part vId tagId version) ∨
    ∃ edge, key = edgeKey part edge version

/-- What a write does: other items keep their rows, new data keys have the version that is
given, and of the items that are touched the index keys of the old newest rows go and those
of the new ones come. -/
structure Effect (S : Space) (version : Int64) (e e' : Engine) (touched : Bytes → Prop) : Prop where
  keys : ∀ key ∈ e', keyItem S.part .data <+: key → key ∈ e ∨ Versioned S.part version key
  data : ∀ key, keyItem S.part .data <+: key → ¬ touched (keyWithNoVersion key) →
    e'.lookup key = e.lookup key
  index : ∀ k, keyItem S.part .index <+: k →
    (k ∈ e' ↔
      (∃ row, touched (keyWithNoVersion row.1) ∧ IsNewest (S.dataRows e') row ∧ S.Indexed row k) ∨
      (k ∈ e ∧ ∀ row, touched (keyWithNoVersion row.1) → IsNewest (S.dataRows e) row →
        ¬ S.Indexed row k))

section Writes

variable {S : Space} {version : Int64} {e : Engine} {kind : Kind}

theorem GraphKey.of_versioned {part : Int32} (h : Versioned part version key) :
    ∃ kind, GraphKey part kind key := by
  rcases h with ⟨vId, tagId, rfl⟩ | ⟨edge, rfl⟩
  · exact ⟨.tag, vId, tagId, version, rfl⟩
  · exact ⟨.edge, edge, version, rfl⟩

section

variable (h : Effect S version e e' touched)
include h

theorem Effect.wellKeyed (hkeys : WellKeyed S.part e) :
    WellKeyed S.part e' := by
  intro key hkey hdata
  rcases h.keys key hkey hdata with hold | hnew
  · exact hkeys key hold hdata
  · exact GraphKey.of_versioned hnew

theorem Effect.isNewest_iff (hrow : ¬ touched (keyWithNoVersion row.1)) :
    IsNewest (S.dataRows e') row ↔ IsNewest (S.dataRows e) row := by
  have hmem (r : Bytes × Bytes) (hr : keyWithNoVersion r.1 = keyWithNoVersion row.1) :
      r ∈ S.dataRows e' ↔ r ∈ S.dataRows e := by
    rw [Space.dataRows, Space.dataRows, Engine.mem_scan, Engine.mem_scan]
    refine and_congr_left fun hdata => ?_
    rw [h.data r.1 hdata (hr ▸ hrow)]
  rw [Space.dataRows, Space.dataRows, isNewest_scan_iff, isNewest_scan_iff]
  refine and_congr (hmem row rfl) (forall_congr' fun r => ?_)
  constructor
  · intro hle hr hitem
    exact hle ((hmem r hitem).mpr hr) hitem
  · intro hle hr hitem
    exact hle ((hmem r hitem).mp hr) hitem

/-- **Such a write keeps the index right.** -/
theorem Effect.consistent (hkeys : WellKeyed S.part e) (hcons : IndexConsistent S e) :
    IndexConsistent S e' := by
  intro k hk
  rw [h.index k hk]
  constructor
  · rintro (⟨row, -, hnew, hindexed⟩ | ⟨hmem, hnone⟩)
    · exact ⟨row, hnew, hindexed⟩
    obtain ⟨row, hnew, hindexed⟩ := (hcons k hk).mp hmem
    by_cases htouched : touched (keyWithNoVersion row.1)
    · exact absurd hindexed (hnone row htouched hnew)
    · exact ⟨row, (h.isNewest_iff htouched).mpr hnew, hindexed⟩
  rintro ⟨row, hnew, hindexed⟩
  by_cases htouched : touched (keyWithNoVersion row.1)
  · exact .inl ⟨row, htouched, hnew, hindexed⟩
  have hold := (h.isNewest_iff htouched).mp hnew
  refine .inr ⟨(hcons k hk).mpr ⟨row, hold, hindexed⟩, fun row' htouched' hnew' hindexed' => ?_⟩
  -- the key would be of two items
  obtain ⟨kind, hgraph⟩ := hkeys.of_mem_dataRows hold.mem_dataRows
  obtain ⟨kind', hgraph'⟩ := hkeys.of_mem_dataRows hnew'.mem_dataRows
  have hitem := hgraph.item_eq hgraph' (hgraph.indexed_iff.mp hindexed)
    (hgraph'.indexed_iff.mp hindexed')
  exact htouched (hitem ▸ htouched')

end

theorem effect_of_no_items (hitems : S.items kind = [])
    (hkeys : WellKeyed S.part e) (hkeys' : WellKeyed S.part e')
    (hnew : ∀ key ∈ e', keyItem S.part .data <+: key → key ∈ e ∨ Versioned S.part version key)
    (hsame : ∀ key, ¬ GraphKey S.part kind key → e'.lookup key = e.lookup key) :
    Effect S version e e' fun p => ∃ key, GraphKey S.part kind key ∧ keyWithNoVersion key = p := by
  have hnone {e : Engine} (hkeys : WellKeyed S.part e) {row : Bytes × Bytes} {k : Bytes}
      (htouched : ∃ key, GraphKey S.part kind key ∧ keyWithNoVersion key = keyWithNoVersion row.1)
      (hnew : IsNewest (S.dataRows e) row) : ¬ S.Indexed row k := by
    intro hindexed
    obtain ⟨key, hkey, hitem⟩ := htouched
    obtain ⟨kind', hgraph⟩ := hkeys.of_mem_dataRows hnew.mem_dataRows
    obtain rfl := hkey.kind_eq hgraph hitem
    obtain ⟨index, hindex, -⟩ := hgraph.indexed_iff.mp hindexed
    rw [hitems] at hindex
    cases hindex
  refine ⟨hnew, fun key _ htouched => hsame key fun hkey => htouched ⟨key, hkey, rfl⟩, ?_⟩
  intro k hk
  have hindex : ¬ GraphKey S.part kind k := fun hgraph => not_data_of_index hk hgraph.data
  rw [← AList.lookup_isSome, hsame k hindex, AList.lookup_isSome]
  constructor
  · intro hmem
    exact .inr ⟨hmem, fun row htouched hnew => hnone hkeys htouched hnew⟩
  · rintro (⟨row, htouched, hnew, hindexed⟩ | ⟨hmem, -⟩)
    · exact absurd hindexed (hnone hkeys' htouched hnew)
    · exact hmem

theorem effect_of_removed {keys : List Bytes}
    (hdata : ∀ key ∈ e, keyItem S.part .data <+: key →
      (key ∈ keys ↔ touched (keyWithNoVersion key)))
    (hindex : ∀ k, keyItem S.part .index <+: k →
      (k ∈ keys ↔ ∃ row, touched (keyWithNoVersion row.1) ∧ IsNewest (S.dataRows e) row ∧
        S.Indexed row k)) :
    Effect S version e (e.write (keys.map .remove)) touched := by
  have hmem (key : Bytes) : key ∈ e.write (keys.map .remove) ↔ key ∈ e ∧ key ∉ keys := by
    rw [← AList.lookup_isSome, lookup_write_remove, ← AList.lookup_isSome]
    split_ifs with hkey
    · simp [hkey]
    · simp [hkey]
  refine ⟨fun key hkey _ => .inl ((hmem key).mp hkey).1, fun key hkey htouched => ?_, ?_⟩
  · rw [lookup_write_remove]
    split_ifs with hremoved
    · have hout : key ∉ e := fun hin => htouched ((hdata key hin hkey).mp hremoved)
      exact (AList.lookup_eq_none.mpr hout).symm
    · rfl
  intro k hk
  rw [hmem, hindex k hk]
  constructor
  · rintro ⟨hin, hnone⟩
    exact .inr ⟨hin, fun row htouched hnew hindexed => hnone ⟨row, htouched, hnew, hindexed⟩⟩
  rintro (⟨row, htouched, hnew, -⟩ | ⟨hin, hnone⟩)
  · -- no row of the items is left
    have hrow := hnew.mem_dataRows
    obtain ⟨hin, hout⟩ := (hmem row.1).mp (mem_of_mem_dataRows hrow)
    exact absurd ((hdata row.1 hin (Engine.mem_scan.mp hrow).2).mpr htouched) hout
  · exact ⟨hin, fun ⟨row, htouched, hnew, hindexed⟩ => hnone row htouched hnew hindexed⟩

/-- The batch gives items new newest rows, with their index keys. -/
structure Replaces (S : Space) (kind : Kind) (version : Int64) (e : Engine)
    (rows : List (Bytes × Bytes)) (batch : List WriteOp) : Prop where
  keys : ∀ row ∈ rows, GraphKey S.part kind row.1
  fresh : ∀ row ∈ rows, row.1 ∈ e ∨ Versioned S.part version row.1
  least : ∀ row ∈ rows, ∀ key ∈ e, keyItem S.part .data <+: key →
    keyWithNoVersion key = keyWithNoVersion row.1 → row.1 ≤ key
  one : ∀ row ∈ rows, ∀ row' ∈ rows, keyWithNoVersion row.1 = keyWithNoVersion row'.1 → row = row'
  describes : Describes batch
    (fun k => ∃ row ∈ rows, ∃ old, IsNewest (S.dataRows e) old ∧
      keyWithNoVersion old.1 = keyWithNoVersion row.1 ∧
      (S.table kind).HasKey (S.items kind) old.1 old.2 k)
    fun k v => ∃ row ∈ rows,
      (v = [] ∧ (S.table kind).HasKey (S.items kind) row.1 row.2 k) ∨ (k = row.1 ∧ v = row.2)
  notUndone : batch.Pairwise NotUndone

namespace Replaces

section

variable (h : Replaces S kind version e rows batch)
include h

theorem op_of_touches {key : Bytes} (hdata : keyItem S.part .data <+: key) (hop : op ∈ batch)
    (htouch : touches key op = true) : ∃ row ∈ rows, key = row.1 ∧ op = .put key row.2 := by
  have hno {indexes : List IndexItem} {key' val : Bytes}
      (hkey : (S.table kind).HasKey indexes key' val key) : False :=
    not_data_of_index (keyItem_of_hasKey hkey) hdata
  cases op with
  | put k v =>
    obtain rfl : k = key := by simpa [touches] using htouch
    obtain ⟨row, hrow, ⟨-, hkey⟩ | ⟨hk, rfl⟩⟩ := (h.describes.put_mem k v).mp hop
    · exact (hno hkey).elim
    · exact ⟨row, hrow, hk, rfl⟩
  | remove k =>
    obtain rfl : k = key := by simpa [touches] using htouch
    obtain ⟨row, -, old, -, -, hkey⟩ := (h.describes.remove_mem k).mp hop
    exact (hno hkey).elim
  | removeRange start stop => exact absurd hop (h.describes.no_range start stop)

theorem lookup_row (hrow : row ∈ rows) : (e.write batch).lookup row.1 = some row.2 := by
  rw [lookup_write_of_put, if_pos]
  · exact (h.describes.put_mem _ _).mpr ⟨row, hrow, .inr ⟨rfl, rfl⟩⟩
  · intro op hop htouch
    obtain ⟨row', hrow', hkey, rfl⟩ := h.op_of_touches (h.keys row hrow).data hop htouch
    rw [h.one row hrow row' hrow' (by rw [hkey])]

theorem lookup_of_ne {key : Bytes} (hdata : keyItem S.part .data <+: key)
    (hne : ∀ row ∈ rows, key ≠ row.1) :
    (e.write batch).lookup key = e.lookup key := by
  have htouch : ∀ op ∈ batch, ¬ touches key op = true := by
    intro op hop htouch
    obtain ⟨row, hrow, hkey, -⟩ := h.op_of_touches hdata hop htouch
    exact hne row hrow hkey
  rw [lookup_write_of_put (v := []) fun op hop hop' => absurd hop' (htouch op hop), if_neg]
  exact fun hput => htouch _ hput (by simp [touches])

theorem isNewest_row (hrow : row ∈ rows) : IsNewest (S.dataRows (e.write batch)) row := by
  refine isNewest_scan_iff.mpr ⟨?_, fun row' hrow' hitem => ?_⟩
  · exact Engine.mem_scan.mpr ⟨h.lookup_row hrow, (h.keys row hrow).data⟩
  obtain ⟨hval, hdata⟩ := Engine.mem_scan.mp hrow'
  by_cases hnew : ∃ r ∈ rows, row'.1 = r.1
  · obtain ⟨r, hr, hkey⟩ := hnew
    rw [hkey] at hitem ⊢
    rw [h.one r hr row hrow hitem]
    exact List.le_refl _
  · have hold : (e.write batch).lookup row'.1 = e.lookup row'.1 :=
      h.lookup_of_ne hdata fun r hr heq => hnew ⟨r, hr, heq⟩
    have hmem : row'.1 ∈ e := AList.lookup_isSome.mp (by rw [← hold, hval]; rfl)
    exact h.least row hrow row'.1 hmem hdata hitem

theorem effect (hkeys : WellKeyed S.part e) :
    Effect S version e (e.write batch) fun p => ∃ row ∈ rows, keyWithNoVersion row.1 = p := by
  refine ⟨fun key hkey hdata => ?_, fun key hdata htouched => ?_, fun k hk => ?_⟩
  · by_cases hnew : ∃ row ∈ rows, key = row.1
    · obtain ⟨row, hrow, rfl⟩ := hnew
      exact h.fresh row hrow
    have hold := h.lookup_of_ne hdata fun row hrow heq => hnew ⟨row, hrow, heq⟩
    have hsome := AList.lookup_isSome.mpr hkey
    rw [hold] at hsome
    exact .inl (AList.lookup_isSome.mp hsome)
  · refine h.lookup_of_ne hdata fun row hrow heq => htouched ⟨row, hrow, ?_⟩
    rw [heq]
  rw [mem_write_iff h.describes.no_range h.notUndone, h.describes.remove_mem]
  refine or_congr ?_ (and_congr_right fun _ => ?_)
  · simp only [h.describes.put_mem]
    constructor
    · rintro ⟨v, row, hrow, ⟨-, hkey⟩ | ⟨rfl, -⟩⟩
      · exact ⟨row, ⟨row, hrow, rfl⟩, h.isNewest_row hrow, (h.keys row hrow).indexed_iff.mpr hkey⟩
      · exact absurd (h.keys row hrow).data (not_data_of_index hk)
    · rintro ⟨row, ⟨row', hrow', hitem⟩, hnew, hindexed⟩
      obtain rfl := hnew.eq (h.isNewest_row hrow') hitem.symm
      exact ⟨[], row, hrow', .inl ⟨rfl, (h.keys row hrow').indexed_iff.mp hindexed⟩⟩
  -- an old row is of the kind of the new one
  have hkind {row old : Bytes × Bytes} (hrow : row ∈ rows) (hnew : IsNewest (S.dataRows e) old)
      (hitem : keyWithNoVersion row.1 = keyWithNoVersion old.1) : GraphKey S.part kind old.1 := by
    obtain ⟨kind', hgraph⟩ := hkeys.of_mem_dataRows hnew.mem_dataRows
    obtain rfl := (h.keys row hrow).kind_eq hgraph hitem
    exact hgraph
  constructor
  · rintro hnone old ⟨row, hrow, hitem⟩ hnew hindexed
    exact hnone ⟨row, hrow, old, hnew, hitem.symm,
      (hkind hrow hnew hitem).indexed_iff.mp hindexed⟩
  · rintro hnone ⟨row, hrow, old, hnew, hitem, hkey⟩
    exact hnone old ⟨row, hrow, hitem.symm⟩ hnew
      ((hkind hrow hnew hitem.symm).indexed_iff.mpr hkey)

end

end Replaces

end Writes

end K2Graph.Storaged
