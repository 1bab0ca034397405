import Mathlib.Data.List.Find
import K2Graph.Storaged.Rows

/-!
# Compaction and time to live

`StorageCompactionFilter` sees the keys of a partition in order and tells which ones to
drop: rows of dropped schemas, rows that cannot be read, rows whose time is over, and the
older versions of a vertex tag or an edge.  An older version is one whose key agrees with
the key kept last but for the version; a key that was dropped is not remembered.

A query reads the first version of a vertex tag or an edge, and shows nothing if its time
is over.  The filter has the time to live as an `int`, the query as an `int64_t`, and a
query shows some edges without reading their rows.
-/

namespace K2Graph.Storaged

open List LittleEndian Kvstore

/-! ### Time to live -/

/-- `cpp2::SchemaProp`. -/
structure SchemaProp where
  ttlDuration : Option Int64
  ttlCol : Option Bytes

/-- `SchemaProviderIf`. -/
structure TtlSchema where
  /-- The properties of a `NebulaSchemaProvider`; `none` is another provider. -/
  prop : Option SchemaProp
  getFieldType : Bytes → SupportedType

/-- An open row, given by its numbers; `none` is an error code. -/
structure TtlReader where
  getInt : Bytes → Option Int64
  getVid : Bytes → Option Int64

/-- The schemas of tags, or of edge types. -/
structure SchemaSource where
  /-- `none` is an error; `-1` stands for a schema that was dropped. -/
  getLatestSchemaVersion : Int32 → Option Int64
  getSchema : Int32 → Option TtlSchema
  getPropReader : Int32 → Bytes → Read TtlReader

/-- The schema manager. -/
structure TtlSchemas where
  tags : SchemaSource
  edges : SchemaSource

/-- `checkDataExpiredForTTL`.  A sum that overflows is undefined; here it wraps, which is one of
the things that can happen, and `ttlAgrees_iff` excludes it. -/
def checkDataExpiredForTTL (now : Int64) (schema : TtlSchema) (reader : TtlReader)
    (ttlCol : Bytes) (ttlDuration : Int64) : Bool :=
  let v := match schema.getFieldType ttlCol with
    | .timestamp | .int => reader.getInt ttlCol
    | .vid => reader.getVid ttlCol
    | _ => none
  match v with
  | none => false
  | some v => v + ttlDuration < now

/-- The column and the duration, if there is a column and the duration is positive. -/
def SchemaProp.ttl (prop : SchemaProp) (ttlDuration : Int64) : Option (Bytes × Int64) :=
  let ttlCol := prop.ttlCol.getD []
  if ttlCol = [] ∨ ttlDuration ≤ 0 then none else some (ttlCol, ttlDuration)

/-- `checkDataTtlValid`.  The duration is put into an `int`. -/
def checkDataTtlValid (now : Int64) (schema : TtlSchema) (reader : TtlReader) : Bool :=
  match schema.prop with
  | none => true
  | some prop =>
      match prop.ttl (prop.ttlDuration.getD 0).toInt32.toInt64 with
      | none => true
      | some (ttlCol, ttlDuration) => !checkDataExpiredForTTL now schema reader ttlCol ttlDuration

/-- `getTagTTLInfo` and `getEdgeTTLInfo`. -/
def getTTLInfo (schema : Option TtlSchema) : Option (Bytes × Int64) := do
  let prop ← (← schema).prop
  prop.ttl (prop.ttlDuration.getD 0)

/-- What the queries ask of a row. -/
def dataExpired (now : Int64) (schema : Option TtlSchema) (reader : TtlReader) : Bool :=
  match schema, getTTLInfo schema with
  | some schema, some (ttlCol, ttlDuration) =>
      checkDataExpiredForTTL now schema reader ttlCol ttlDuration
  | _, _ => false

/-- Both paths give a row the same verdict at any time: its time is over exactly when the
sum of the value and the duration is past. -/
def TtlAgrees (schema : TtlSchema) (reader : TtlReader) (v ttlDuration : Int64) : Prop :=
  ∀ now, dataExpired now (some schema) reader = !checkDataTtlValid now schema reader ∧
    (dataExpired now (some schema) reader = true ↔ v.toInt + ttlDuration.toInt < now.toInt)

/-- **The two paths agree on a row at any time** when the duration fits an `int` and the sum an
`int64_t`; they also agree when the duration is not positive as an `int` and the sum is the
largest number, which no time exceeds. -/
theorem ttlAgrees_iff {schema : TtlSchema} {reader : TtlReader} {ttlCol : Bytes}
    {v ttlDuration : Int64} (hprop : schema.prop = some ⟨some ttlDuration, some ttlCol⟩)
    (hcol : ttlCol ≠ []) (hpos : 0 < ttlDuration)
    (htype : schema.getFieldType ttlCol = .int ∨ schema.getFieldType ttlCol = .timestamp)
    (hv : reader.getInt ttlCol = some v) :
    TtlAgrees schema reader v ttlDuration ↔ v.toInt + ttlDuration.toInt < 2 ^ 63 ∧
      (ttlDuration.toInt < 2 ^ 31 ∨
        ttlDuration.toInt32.toInt ≤ 0 ∧ v.toInt + ttlDuration.toInt = 2 ^ 63 - 1) := by
  have hexpired (now d : Int64) :
      checkDataExpiredForTTL now schema reader ttlCol d = decide (v + d < now) := by
    rcases htype with htype | htype <;> simp [checkDataExpiredForTTL, htype, hv]
  have hquery (now : Int64) :
    dataExpired now (some schema) reader = decide (v + ttlDuration < now) := by
    have hinfo : getTTLInfo (some schema) = some (ttlCol, ttlDuration) := by
      simp [getTTLInfo, hprop, SchemaProp.ttl, hcol, hpos]
    simp only [dataExpired, hinfo]
    exact hexpired now ttlDuration
  have hfilter (now : Int64) : checkDataTtlValid now schema reader =
      !decide (0 < ttlDuration.toInt32.toInt64 ∧ v + ttlDuration.toInt32.toInt64 < now) := by
    rw [checkDataTtlValid, hprop]
    by_cases hle : ttlDuration.toInt32.toInt64 ≤ 0
    · simp [SchemaProp.ttl, hle]
    · simp [SchemaProp.ttl, hle, hcol, hexpired]
  have hlow := v.le_toInt
  have hwrap {d : Int64} (hd : 0 < d.toInt) (h : v.toInt + d.toInt < 2 ^ 63) :
      (v + d).toInt = v.toInt + d.toInt := by
    rw [Int64.toInt_add, Int.bmod_eq_of_le (by omega) (by omega)]
  have hint : ttlDuration.toInt32.toInt64.toInt = ttlDuration.toInt32.toInt := Int32.toInt_toInt64 _
  have hshort := ttlDuration.toInt32.toInt_lt
  have hmod : ttlDuration.toInt32.toInt = ttlDuration.toInt.bmod (2 ^ 32) := Int64.toInt_toInt32 _
  have hv' := v.toInt_lt
  have hd := ttlDuration.toInt_lt
  rw [Int64.lt_iff_toInt_lt, Int64.toInt_zero] at hpos
  simp only [TtlAgrees, hquery, hfilter, Bool.not_not, decide_eq_decide, decide_eq_true_eq,
    Int64.lt_iff_toInt_lt, Int64.toInt_zero]
  constructor
  · intro h
    have hsum : v.toInt + ttlDuration.toInt < 2 ^ 63 := by
      have hover' := (h 0).2
      rw [Int64.toInt_add, Int.bmod_def, Int64.toInt_zero] at hover'
      omega
    by_contra hnot
    -- a time at which only one of the two is over
    obtain ⟨now, hnow⟩ : ∃ now : Int64, now.toInt = v.toInt + ttlDuration.toInt +
        if ttlDuration.toInt32.toInt ≤ 0 then 1 else 0 :=
      ⟨.ofInt _, Int64.toInt_ofInt_of_le (by omega) (by omega)⟩
    have hsame := (h now).1
    rw [hwrap hpos hsum, hnow] at hsame
    split_ifs at hsame with hle
    · omega
    · rw [hwrap (by omega) (by omega)] at hsame
      omega
  · rintro ⟨hsum, hshort⟩ now
    have hlast := now.toInt_lt
    rw [hwrap hpos hsum]
    rcases hshort with hshort | ⟨hle, hmax⟩
    · rw [Int.bmod_eq_of_le (by omega) (by omega)] at hmod
      rw [hwrap (by omega) (by omega)]
      omega
    · omega

theorem ttlAgrees_sample :
    TtlAgrees ⟨some ⟨some 100, some [97]⟩, fun _ => .int⟩ ⟨fun _ => some 0, fun _ => none⟩ 0 100 :=
  (ttlAgrees_iff rfl (by decide) (by decide) (.inl rfl) rfl).mpr (by decide)

/-- A time to live of 2³² seconds is 0 as an `int`: a row is not shown any more, and never
dropped. -/
theorem not_ttlAgrees :
    let schema : TtlSchema := ⟨some ⟨some (2 ^ 32), some [97]⟩, fun _ => .int⟩
    let reader : TtlReader := ⟨fun _ => some 0, fun _ => none⟩
    dataExpired (2 ^ 32 + 1) (some schema) reader = true ∧
      checkDataTtlValid (2 ^ 32 + 1) schema reader = true ∧
        ¬ TtlAgrees schema reader 0 (2 ^ 32) := by
  refine ⟨by decide, by decide, fun h => ?_⟩
  exact absurd (h (2 ^ 32 + 1)).1 (by decide)

/-! ### The filter -/

variable (source : SchemaSource)

def SchemaSource.valid (id : Int32) : Bool :=
  source.getLatestSchemaVersion id ≠ some (-1)

variable (schemas : TtlSchemas) (now : Int64)

def schemaValid (key : Bytes) : Bool :=
  if isVertex key then schemas.tags.valid (int32At key 12)
  else if isEdge key then schemas.edges.valid (absType (typeOfWord (int32At key 12)))
  else true

def isInvalidReverseEdgeKey (row : Bytes × Bytes) : Bool :=
  isEdge row.1 && (typeOfWord (int32At row.1 12) < 0 && row.2.isEmpty)

/-- The time of a row is not over; `none` is the end of the process. -/
def SchemaSource.ttlValid (now : Int64) (id : Int32) (val : Bytes) : Option Bool :=
  match source.getSchema id with
  | none => some false
  | some schema =>
      match source.getPropReader id val with
      | .fatal => none
      | .null => some false
      | .ok reader => some (checkDataTtlValid now schema reader)

def ttlValid (row : Bytes × Bytes) : Option Bool :=
  if isVertex row.1 then schemas.tags.ttlValid now (int32At row.1 12) row.2
  else if isEdge row.1 then
    schemas.edges.ttlValid now (absType (typeOfWord (int32At row.1 12))) row.2
  else some true

/-- The checks of `filter` that come before the versions. -/
def passes (row : Bytes × Bytes) : Option Bool :=
  if !schemaValid schemas row.1 then some false
  else if isInvalidReverseEdgeKey row then some false
  else ttlValid schemas now row

/-- `filter` over the data keys of a partition: what is left of them.  `last` is
`lastKeyWithNoVersion_`. -/
def compact : Bytes → List (Bytes × Bytes) → Option (List (Bytes × Bytes))
  | _, [] => some []
  | last, row :: rows => match passes schemas now row with
      | none => none
      | some false => compact last rows
      | some true => if keyWithNoVersion row.1 = last then compact last rows
          else (row :: ·) <$> compact (keyWithNoVersion row.1) rows

/-! ### The query -/

def scanRows (start : Bytes) (rows : List (Bytes × Bytes)) : List (Bytes × Bytes) :=
  rows.filter fun row => start.isPrefixOf row.1

def SchemaSource.showRow (now : Int64) (id : Int32) (row : Bytes × Bytes) : Read (Bytes × Bytes) :=
  match source.getPropReader id row.2 with
  | .fatal => .fatal
  | .null => .null
  | .ok reader => if dataExpired now (source.getSchema id) reader then .null else .ok row

variable (view : Bytes × Bytes → Read (Bytes × Bytes))

/-- The first row, if it is shown. -/
def showFirst : Option (Bytes × Bytes) → Read (Bytes × Bytes)
  | none => .null
  | some row => view row

def collectVertexProps (part : Int32) (vId : Int64) (tagId : Int32)
    (rows : List (Bytes × Bytes)) : Read (Bytes × Bytes) :=
  showFirst (schemas.tags.showRow now tagId) (scanRows (tagPrefix part vId tagId) rows).head?

/-- A row of `collectEdgeProps`: without properties to return and without a time to live it
is not read, and neither is an empty row. -/
def showEdge (edgeType : Int32) (onlyStructure : Bool) (row : Bytes × Bytes) :
    Read (Bytes × Bytes) :=
  let id := absType edgeType
  if (!onlyStructure || (getTTLInfo (schemas.edges.getSchema id)).isSome) && !row.2.isEmpty then
    schemas.edges.showRow now id row
  else .ok row

def rankDst (row : Bytes × Bytes) : Option (Int64 × Int64) :=
  some (int64At row.1 16, int64At row.1 24)

/-- The loop of `collectEdgeProps`; `none` is the end of the process.  `last` holds `lastRank`
and `lastDstId`, and nothing in the first round. -/
def collectEdges : Option (Int64 × Int64) → List (Bytes × Bytes) → Option (List (Bytes × Bytes))
  | _, [] => some []
  | last, row :: rows =>
      if rankDst row = last then collectEdges last rows
      else
        match view row with
        | .fatal => none
        | .null => collectEdges (rankDst row) rows
        | .ok row' => (row' :: ·) <$> collectEdges (rankDst row) rows

/-- `collectEdgeProps`, for a vertex with any number of edges and without a filter. -/
def collectEdgeProps (part : Int32) (vId : Int64) (edgeType : Int32)
    (onlyStructure : Bool) (rows : List (Bytes × Bytes)) : Option (List (Bytes × Bytes)) :=
  collectEdges (showEdge schemas now edgeType onlyStructure) none
    (scanRows (typePrefix part vId edgeType) rows)

/-! ### What is compared -/

/-- The key of a vertex or an edge of a partition. -/
abbrev IsGraphKey (part : Int32) (key : Bytes) : Prop :=
  (∃ vId, IsVertexKey part vId key) ∨ ∃ edge, IsEdgeKey part edge key

/-- The rows of a partition in key order. -/
structure DataStream (part : Int32) where
  rows : List (Bytes × Bytes)
  sorted : rows.Pairwise fun x y => x.1 < y.1
  graphKeys : ∀ row ∈ rows, (∃ vId, IsVertexKey part vId row.1) ∨ ∃ edge, IsEdgeKey part edge row.1

/-- Every query gives the same before and after the compaction.  Queries name tags and edge
types that keys can hold. -/
def CompactionUnseen (part : Int32) (rows : List (Bytes × Bytes)) : Prop :=
  ∃ kept, compact schemas now [] rows = some kept ∧
    (∀ vId tagId, tagId &&& tagMaskSet = tagId →
      collectVertexProps schemas now part vId tagId kept =
        collectVertexProps schemas now part vId tagId rows) ∧
    ∀ vId edgeType onlyStructure, typeOfWord (edgeType ||| edgeMaskSet) = edgeType →
      collectEdgeProps schemas now part vId edgeType onlyStructure kept =
        collectEdgeProps schemas now part vId edgeType onlyStructure rows

/-- A row as a query shows it when it is the first. -/
def showData (onlyStructure : Bool) (row : Bytes × Bytes) : Read (Bytes × Bytes) :=
  if isVertex row.1 then schemas.tags.showRow now (int32At row.1 12) row
  else showEdge schemas now (typeOfWord (int32At row.1 12)) onlyStructure row

def passing (rows : List (Bytes × Bytes)) : List (Bytes × Bytes) :=
  rows.filter fun row => passes schemas now row = some true

/-- No row ends the filter, and a row that is shown is the newest version exactly if it is
the newest that passes the checks. -/
def VersionsSafe (rows : List (Bytes × Bytes)) : Prop :=
  (∀ row ∈ rows, passes schemas now row ≠ none) ∧
  ∀ onlyStructure, ∀ row ∈ rows, showData schemas now onlyStructure row ≠ .null →
    (IsNewest rows row ↔ IsNewest (passing schemas now rows) row)

/-! ### The filter as a selection -/

variable {onlyStructure : Bool} {edgeType tagId : Int32} {source : SchemaSource}

section Filter

variable {schemas now}

/-- **What the filter leaves**: the first rows of those that pass. -/
theorem compact_eq (rows : List (Bytes × Bytes)) (last : Bytes) :
    compact schemas now last rows = if ∀ row ∈ rows, passes schemas now row ≠ none then
      some (heads (fun x : Bytes × Bytes => keyWithNoVersion x.1) last (passing schemas now rows))
      else none := by
  induction rows generalizing last with
  | nil => rfl
  | cons row rows ih =>
    rw [compact, passing, filter_cons]
    simp only [forall_mem_cons, ih]
    rcases hpass : passes schemas now row with _ | _ | _
    · simp
    · refine if_congr ?_ (by simp [passing]) rfl
      exact (and_iff_right (by simp)).symm
    · simp only [decide_true, if_true, heads]
      split_ifs <;> simp_all [passing]

variable {id : Int32}

theorem SchemaSource.exists_reader (h : source.ttlValid now id val = some true) :
    ∃ reader, source.getPropReader id val = .ok reader := by
  rw [ttlValid] at h
  split at h
  · cases h
  split at h
  · cases h
  · cases h
  · rename_i reader hreader
    exact ⟨reader, hreader⟩

theorem SchemaSource.showRow_eq (h : source.showRow now id row = .ok row') :
    row' = row := by
  rw [showRow] at h
  split at h
  · cases h
  · cases h
  · split_ifs at h
    cases h
    rfl

theorem SchemaSource.showRow_ne_fatal (h : source.ttlValid now id row.2 = some true) :
    source.showRow now id row ≠ .fatal := by
  obtain ⟨reader, hreader⟩ := exists_reader h
  rw [showRow, hreader]
  show (if _ then _ else _) ≠ _
  split_ifs <;> nofun

theorem showEdge_eq (h : showEdge schemas now edgeType onlyStructure row = .ok row') :
    row' = row := by
  rw [showEdge] at h
  split_ifs at h
  · exact SchemaSource.showRow_eq h
  · cases h
    rfl

theorem showData_ne_fatal (hdata : isVertex row.1 = true ∨ isEdge row.1 = true)
    (h : passes schemas now row = some true) : showData schemas now onlyStructure row ≠ .fatal := by
  have hvalid : Storaged.ttlValid schemas now row = some true := by
    rw [passes] at h
    split_ifs at h
    · cases h
    · cases h
    · exact h
  unfold Storaged.ttlValid at hvalid
  rw [showData]
  split_ifs at hvalid ⊢ with hvertex hedge
  · exact SchemaSource.showRow_ne_fatal hvalid
  · rw [showEdge]
    split_ifs
    · exact SchemaSource.showRow_ne_fatal hvalid
    · nofun
  · exact absurd hdata (by simp [hvertex, hedge])

end Filter

/-! ### The queries as selections -/

variable {view : Bytes × Bytes → Read (Bytes × Bytes)}

theorem showFirst_eq_iff (hview : ∀ x y, view x = .ok y → y = x)
    (hb : ∀ x, b = some x → view x ≠ .fatal) :
    showFirst view b = showFirst view a ↔ ∀ x, view x ≠ .null → (a = some x ↔ b = some x) := by
  have hinj {x y : Bytes × Bytes} (hxy : view x = view y) (hx : view x ≠ .null)
      (hfatal : view x ≠ .fatal) : x = y := by
    match hz : view x with
    | .fatal => exact absurd hz hfatal
    | .null => exact absurd hz hx
    | .ok z => rw [← hview x z hz, ← hview y z (hxy.symm.trans hz)]
  constructor
  · intro h x hx
    constructor
    · rintro rfl
      cases b with
      | none => exact absurd h.symm hx
      | some y =>
        have hxy : view y = view x := h
        rw [hinj hxy (hxy ▸ hx) (hb y rfl)]
    · rintro rfl
      cases a with
      | none => exact absurd h hx
      | some y => rw [hinj h hx (hb x rfl)]
  intro h
  cases a with
  | some x =>
    by_cases hx : view x = .null
    · cases b with
      | none => exact hx.symm
      | some y =>
        by_cases hy : view y = .null
        · exact hy.trans hx.symm
        · cases (h y hy).mpr rfl
          rfl
    · rw [(h x hx).mp rfl]
  | none =>
    cases b with
    | none => rfl
    | some y =>
      by_contra hy
      cases (h y hy).mpr rfl

/-- What is shown of a list of rows; `none` is the end of the process. -/
def showAll (view : Bytes × Bytes → Read (Bytes × Bytes)) (rows : List (Bytes × Bytes)) :
    Option (List (Bytes × Bytes)) :=
  if ∀ row ∈ rows, view row ≠ .fatal then some (rows.filter fun row => view row ≠ .null) else none

theorem collectEdges_eq (hview : ∀ x y, view x = .ok y → y = x) (rows : List (Bytes × Bytes))
    (last : Option (Int64 × Int64)) :
    collectEdges view last rows = showAll view (heads rankDst last rows) := by
  induction rows generalizing last with
  | nil => rfl
  | cons row rows ih =>
    rw [collectEdges, heads]
    split_ifs
    · exact ih last
    simp only [showAll, forall_mem_cons, filter_cons, ih]
    cases hrow : view row with
    | fatal => simp
    | null =>
      refine if_congr ?_ (by simp) rfl
      exact (and_iff_right (by simp)).symm
    | ok row' =>
      obtain rfl := hview row row' hrow
      split_ifs <;> simp_all

theorem showAll_eq_iff (hxs : xs.Pairwise fun x y => x.1 < y.1)
    (hys : ys.Pairwise fun x y => x.1 < y.1) (hy : ∀ y ∈ ys, view y ≠ .fatal) :
    showAll view ys = showAll view xs ↔ ∀ x, view x ≠ .null → (x ∈ xs ↔ x ∈ ys) := by
  rw [showAll, showAll, if_pos hy]
  constructor
  · intro h x hx
    split_ifs at h
    have hmem := congrArg (x ∈ ·) (Option.some.inj h)
    simp only [mem_filter, decide_eq_true hx, and_true, eq_iff_iff] at hmem
    exact hmem.symm
  intro h
  have hx : ∀ x ∈ xs, view x ≠ .fatal := by
    intro x hx hfatal
    refine hy x ((h x ?_).mp hx) hfatal
    rw [hfatal]
    nofun
  rw [if_pos hx]
  refine congrArg some (Engine.eq_of_pairwise (hys.sublist filter_sublist)
    (hxs.sublist filter_sublist) fun x => ?_)
  rw [mem_filter, mem_filter]
  refine and_congr_left fun hnull => (h x (of_decide_eq_true hnull)).symm

/-! ### Rows of a partition -/

variable {vId : Int64}

section Rows

variable {row : Bytes × Bytes}

theorem tagPrefix_prefix_iff (hrow : IsGraphKey part row.1) :
    tagPrefix part vId tagId <+: row.1 ↔ keyWithNoVersion row.1 = tagPrefix part vId tagId := by
  rcases hrow with ⟨vId', tagId', tv, hkey⟩ | ⟨edge, ev, hkey⟩
  · rw [hkey, tagPrefix_prefix_vertexKey, keyWithNoVersion_vertexKey, tagPrefix_inj]
    exact ⟨fun h => ⟨h.1.symm, h.2.symm⟩, fun h => ⟨h.1.symm, h.2.symm⟩⟩
  rw [hkey, keyWithNoVersion_edgeKey]
  refine iff_of_false not_tagPrefix_prefix_edgeKey fun heq => ?_
  have hlen := congrArg length heq
  rw [length_edgePrefix, length_tagPrefix] at hlen
  exact absurd hlen (by decide)

theorem head?_scanRows_tagPrefix (hrows : ∀ row ∈ rows, IsGraphKey part row.1) (vId : Int64)
    (tagId : Int32) :
    (scanRows (tagPrefix part vId tagId) rows).head? =
      rows.find? fun x => keyWithNoVersion x.1 = tagPrefix part vId tagId := by
  rw [scanRows, head?_filter]
  refine find?_congr fun row hrow => ?_
  rw [Bool.eq_iff_iff, isPrefixOf_iff_prefix, decide_eq_true_iff]
  exact tagPrefix_prefix_iff (hrows row hrow)

theorem exists_edge_of_typePrefix (hrow : IsGraphKey part row.1)
    (h : typePrefix part vId edgeType <+: row.1) :
    ∃ edge ev, row.1 = edgeKey part edge ev ∧ edge.src = vId ∧
      edge.edgeType ||| edgeMaskSet = edgeType ||| edgeMaskSet := by
  rcases hrow with ⟨vId', tagId, tv, hkey⟩ | ⟨edge, ev, hkey⟩
  · rw [hkey, vertexKey, prefix_append_of_length (by simp), typePrefix, tagPrefix,
      append_eq_append_iff_of_size_eq_left (by simp), ofInt_int32_inj] at h
    have hbit := or_edgeMaskSet_and edgeType
    rw [h.2, and_tagMaskSet_and] at hbit
    exact absurd hbit (by decide)
  · refine ⟨edge, ev, hkey, ?_⟩
    rw [hkey, edgeKey, edgePrefix, append_assoc, prefix_append_of_length (by simp),
      typePrefix_inj] at h
    exact ⟨h.1.symm, h.2.symm⟩

theorem rankDst_edgeKey (part : Int32) (edge : EdgeKey) (ev : Int64) (val : Bytes) :
    rankDst (edgeKey part edge ev, val) = some (edge.ranking, edge.dst) := by
  have hrank := getRank_edgeKey part edge ev
  have hdst := getDstId_edgeKey part edge ev
  rw [getRank, field, if_pos (length_edgeKey part edge ev), Option.some.injEq] at hrank
  rw [getDstId, field, if_pos (length_edgeKey part edge ev), Option.some.injEq] at hdst
  rw [rankDst, hrank, hdst]

/-- Among the edges of a vertex and a type, the rank and the destination give the edge. -/
theorem rankDst_eq_iff (hx : IsGraphKey part x.1) (hy : IsGraphKey part y.1)
    (hpx : typePrefix part vId edgeType <+: x.1) (hpy : typePrefix part vId edgeType <+: y.1) :
    keyWithNoVersion x.1 = keyWithNoVersion y.1 ↔ rankDst x = rankDst y := by
  obtain ⟨x, xval⟩ := x
  obtain ⟨y, yval⟩ := y
  obtain ⟨edge, ev, rfl, hsrc, htype⟩ := exists_edge_of_typePrefix hx hpx
  obtain ⟨edge', ev', rfl, hsrc', htype'⟩ := exists_edge_of_typePrefix hy hpy
  rw [keyWithNoVersion_edgeKey, keyWithNoVersion_edgeKey, rankDst_edgeKey, rankDst_edgeKey,
    edgePrefix_inj, EdgeKey.mk.injEq, Option.some.injEq,
    Prod.mk.injEq]
  exact ⟨fun h => h.2.2, fun h => ⟨hsrc.trans hsrc'.symm, htype.trans htype'.symm, h⟩⟩

/-- **The edges that the query looks at** are the newest ones. -/
theorem mem_heads_rankDst (hsorted : rows.Pairwise fun x y => x.1 < y.1)
    (hrows : ∀ row ∈ rows, IsGraphKey part row.1) :
    row ∈ heads rankDst none (scanRows (typePrefix part vId edgeType) rows) ↔
      typePrefix part vId edgeType <+: row.1 ∧ IsNewest rows row := by
  have hmem {x : Bytes × Bytes} (hx : x ∈ scanRows (typePrefix part vId edgeType) rows) :
      x ∈ rows ∧ typePrefix part vId edgeType <+: x.1 := by
    rw [scanRows, mem_filter, isPrefixOf_iff_prefix] at hx
    exact hx
  have hsame : ∀ x ∈ scanRows (typePrefix part vId edgeType) rows,
      ∀ y ∈ scanRows (typePrefix part vId edgeType) rows,
      keyWithNoVersion x.1 = keyWithNoVersion y.1 ↔ rankDst x = rankDst y := by
    intro x hx y hy
    exact rankDst_eq_iff (hrows x (hmem hx).1) (hrows y (hmem hy).1) (hmem hx).2 (hmem hy).2
  have hlen : ∀ x ∈ scanRows (typePrefix part vId edgeType) rows, x.1.length = edgeLen := by
    intro x hx
    obtain ⟨edge, ev, hkey, -⟩ := exists_edge_of_typePrefix (hrows x (hmem hx).1) (hmem hx).2
    rw [hkey, length_edgeKey]
  have hgroup : Grouped rankDst (scanRows (typePrefix part vId edgeType) rows) :=
    (grouped_keyWithNoVersion (hsorted.sublist filter_sublist) hlen).congr hsame
  rw [mem_heads_of_forall_ne hgroup fun _ _ => Option.some_ne_none _]
  by_cases hrow : row ∈ scanRows (typePrefix part vId edgeType) rows
  · have hfind : (scanRows (typePrefix part vId edgeType) rows).find?
        (fun z => rankDst z = rankDst row) =
          rows.find? fun z => keyWithNoVersion z.1 = keyWithNoVersion row.1 := by
      have hcongr : (scanRows (typePrefix part vId edgeType) rows).find?
          (fun z => rankDst z = rankDst row) = (scanRows (typePrefix part vId edgeType) rows).find?
            fun z => keyWithNoVersion z.1 = keyWithNoVersion row.1 :=
        find?_congr fun z hz => decide_eq_decide.mpr (hsame z hz row hrow).symm
      rw [hcongr, scanRows, find?_filter]
      refine find?_congr fun z hz => ?_
      rw [Bool.eq_iff_iff, decide_eq_true_iff, isPrefixOf_iff_prefix]
      refine and_iff_right_of_imp fun heq => ?_
      -- the prefix of the type is a part of what the keys have in common
      obtain ⟨edge, ev, hkey, rfl, htype⟩ :=
        exists_edge_of_typePrefix (hrows row (hmem hrow).1) (hmem hrow).2
      have hz : keyWithNoVersion z.1 = edgePrefix part edge := by
        rw [of_decide_eq_true heq, hkey, keyWithNoVersion_edgeKey]
      have htypes : typePrefix part edge.src edgeType = typePrefix part edge.src edge.edgeType :=
        typePrefix_inj.mpr ⟨rfl, htype.symm⟩
      have hstart : typePrefix part edge.src edgeType <+: edgePrefix part edge := by
        rw [htypes]
        exact prefix_append _ _
      exact (hz ▸ hstart).trans <| take_prefix _ _
    rw [hfind]
    exact (and_iff_right (hmem hrow).2).symm
  · refine iff_of_false (fun h => hrow (mem_of_find?_eq_some h)) ?_
    rintro ⟨hstart, hnew⟩
    refine hrow (mem_filter.mpr ⟨mem_of_find?_eq_some hnew, ?_⟩)
    exact isPrefixOf_iff_prefix.mpr hstart

end Rows

/-! ### Before and after -/

namespace DataStream

variable {schemas now} (stream : DataStream part)

/-- The rows after the compaction. -/
def kept (schemas : TtlSchemas) (now : Int64) : List (Bytes × Bytes) :=
  heads (fun x : Bytes × Bytes => keyWithNoVersion x.1) [] (passing schemas now stream.rows)

theorem kept_sublist : (stream.kept schemas now).Sublist stream.rows :=
  (heads_sublist _ _ _).trans filter_sublist

theorem isData (hrow : row ∈ stream.rows) : isVertex row.1 = true ∨ isEdge row.1 = true := by
  rcases stream.graphKeys row hrow with ⟨vId, tagId, tv, hkey⟩ | ⟨edge, ev, hkey⟩
  · rw [hkey, isVertex_vertexKey]
    exact .inl rfl
  · rw [hkey, isEdge_edgeKey]
    exact .inr rfl

theorem isNewest_kept (hrow : row ∈ stream.rows) :
    IsNewest (stream.kept schemas now) row ↔ IsNewest (passing schemas now stream.rows) row := by
  have hne : [] ≠ keyWithNoVersion row.1 := by
    intro hnil
    have hlen := congrArg length hnil
    rcases stream.graphKeys row hrow with ⟨vId, tagId, tv, hkey⟩ | ⟨edge, ev, hkey⟩
    · rw [hkey, keyWithNoVersion_vertexKey] at hlen
      cases hlen
    · rw [hkey, keyWithNoVersion_edgeKey] at hlen
      cases hlen
  rw [IsNewest, kept, find?_heads hne, IsNewest]

theorem showData_ne_fatal_of_passing (hrow : row ∈ passing schemas now stream.rows) :
    showData schemas now onlyStructure row ≠ .fatal := by
  obtain ⟨hmem, hpass⟩ := mem_filter.mp hrow
  exact showData_ne_fatal (stream.isData hmem) (of_decide_eq_true hpass)

theorem showData_of_tag (hrow : row ∈ stream.rows) (htag : tagId &&& tagMaskSet = tagId)
    (hkey : keyWithNoVersion row.1 = tagPrefix part vId tagId) (onlyStructure : Bool) :
    showData schemas now onlyStructure row = schemas.tags.showRow now tagId row := by
  have hstart := (tagPrefix_prefix_iff (stream.graphKeys row hrow)).mpr hkey
  rcases stream.graphKeys row hrow with ⟨vId', tagId', tv, hrow⟩ | ⟨edge, ev, hrow⟩
  · rw [hrow, tagPrefix_prefix_vertexKey, htag] at hstart
    rw [showData, hrow, isVertex_vertexKey, if_pos rfl, int32At_vertexKey, ← hstart.2]
  · rw [hrow] at hstart
    exact absurd hstart not_tagPrefix_prefix_edgeKey

theorem showData_of_type (hrow : row ∈ stream.rows)
    (htype : typeOfWord (edgeType ||| edgeMaskSet) = edgeType)
    (hstart : typePrefix part vId edgeType <+: row.1) (onlyStructure : Bool) :
    showData schemas now onlyStructure row = showEdge schemas now edgeType onlyStructure row := by
  obtain ⟨edge, ev, hkey, -, hword⟩ :=
    exists_edge_of_typePrefix (stream.graphKeys row hrow) hstart
  rw [showData, hkey, if_neg (by simp), int32At_edgeKey, hword, htype]

theorem collectVertexProps_eq_iff (htag : tagId &&& tagMaskSet = tagId) (onlyStructure : Bool) :
    collectVertexProps schemas now part vId tagId (stream.kept schemas now) =
        collectVertexProps schemas now part vId tagId stream.rows ↔
      ∀ row ∈ stream.rows, keyWithNoVersion row.1 = tagPrefix part vId tagId →
        showData schemas now onlyStructure row ≠ .null →
        (IsNewest stream.rows row ↔ IsNewest (passing schemas now stream.rows) row) := by
  have hne : [] ≠ tagPrefix part vId tagId := by
    intro hnil
    have hlen := congrArg length hnil
    cases hlen
  have hfound {xs : List (Bytes × Bytes)} {row : Bytes × Bytes}
      (h : xs.find? (fun x => keyWithNoVersion x.1 = tagPrefix part vId tagId) = some row) :
      row ∈ xs ∧ keyWithNoVersion row.1 = tagPrefix part vId tagId :=
    ⟨mem_of_find?_eq_some h, by simpa using find?_some h⟩
  rw [collectVertexProps, collectVertexProps, head?_scanRows_tagPrefix stream.graphKeys,
    head?_scanRows_tagPrefix
      (fun row hrow => stream.graphKeys row (stream.kept_sublist.subset hrow)),
    kept, find?_heads hne, showFirst_eq_iff fun _ _ => SchemaSource.showRow_eq]
  · constructor
    · intro h row hrow hkey hshown
      rw [stream.showData_of_tag hrow htag hkey] at hshown
      rw [IsNewest, IsNewest, hkey]
      exact h row hshown
    intro h row hshown
    by_cases hrow : row ∈ stream.rows ∧ keyWithNoVersion row.1 = tagPrefix part vId tagId
    · have hiff := h row hrow.1 hrow.2
      rw [stream.showData_of_tag hrow.1 htag hrow.2, IsNewest, IsNewest, hrow.2] at hiff
      exact hiff hshown
    · refine iff_of_false (fun hfind => hrow (hfound hfind)) fun hfind => hrow ?_
      exact ⟨(mem_filter.mp (hfound hfind).1).1, (hfound hfind).2⟩
  · intro row hfind
    obtain ⟨hpassing, hkey⟩ := hfound hfind
    rw [← stream.showData_of_tag (mem_filter.mp hpassing).1 htag hkey onlyStructure]
    exact stream.showData_ne_fatal_of_passing hpassing

theorem collectEdgeProps_eq_iff (htype : typeOfWord (edgeType ||| edgeMaskSet) = edgeType) :
    collectEdgeProps schemas now part vId edgeType onlyStructure (stream.kept schemas now) =
        collectEdgeProps schemas now part vId edgeType onlyStructure stream.rows ↔
      ∀ row ∈ stream.rows, typePrefix part vId edgeType <+: row.1 →
        showData schemas now onlyStructure row ≠ .null →
        (IsNewest stream.rows row ↔ IsNewest (passing schemas now stream.rows) row) := by
  have hkeptSorted : (stream.kept schemas now).Pairwise fun x y => x.1 < y.1 :=
    stream.sorted.sublist stream.kept_sublist
  have hkeptKeys : ∀ row ∈ stream.kept schemas now, IsGraphKey part row.1 :=
    fun row hrow => stream.graphKeys row (stream.kept_sublist.subset hrow)
  have hview : ∀ x y, showEdge schemas now edgeType onlyStructure x = .ok y → y = x :=
    fun _ _ => showEdge_eq
  have hpairwise {xs : List (Bytes × Bytes)} (hxs : xs.Pairwise fun x y => x.1 < y.1) :
      (heads rankDst none (scanRows (typePrefix part vId edgeType) xs)).Pairwise
        fun x y => x.1 < y.1 :=
    hxs.sublist ((heads_sublist _ _ _).trans filter_sublist)
  rw [collectEdgeProps, collectEdgeProps, collectEdges_eq hview, collectEdges_eq hview,
    showAll_eq_iff (hpairwise stream.sorted) (hpairwise hkeptSorted)]
  · simp only [mem_heads_rankDst stream.sorted stream.graphKeys,
      mem_heads_rankDst hkeptSorted hkeptKeys]
    constructor
    · intro h row hrow hstart hshown
      rw [stream.showData_of_type hrow htype hstart] at hshown
      have hiff := h row hshown
      rwa [and_iff_right hstart, and_iff_right hstart, stream.isNewest_kept hrow] at hiff
    intro h row hshown
    refine and_congr_right fun hstart => ?_
    by_cases hrow : row ∈ stream.rows
    · rw [stream.isNewest_kept hrow]
      refine h row hrow hstart ?_
      rw [stream.showData_of_type hrow htype hstart]
      exact hshown
    · refine iff_of_false (fun hnew => hrow (mem_of_find?_eq_some hnew)) fun hnew => hrow ?_
      exact stream.kept_sublist.subset (mem_of_find?_eq_some hnew)
  · intro row hrow
    obtain ⟨hstart, hnew⟩ := (mem_heads_rankDst hkeptSorted hkeptKeys).mp hrow
    have hmem := mem_of_find?_eq_some hnew
    rw [← stream.showData_of_type (stream.kept_sublist.subset hmem) htype hstart]
    exact stream.showData_ne_fatal_of_passing ((heads_sublist _ _ _).subset hmem)

end DataStream

/-- **Compaction and queries.**  For every stream of data keys of a partition, every schema
and every time, queries give the same before and after the compaction exactly when the
versions are safe. -/
theorem compactionUnseen_iff (schemas : TtlSchemas) (now : Int64) (part : Int32)
    (stream : DataStream part) :
    CompactionUnseen schemas now part stream.rows ↔ VersionsSafe schemas now stream.rows := by
  constructor
  · rintro ⟨kept, hcompact, htags, hedges⟩
    rw [compact_eq] at hcompact
    split_ifs at hcompact with hpass
    cases hcompact
    refine ⟨hpass, fun onlyStructure row hrow hshown => ?_⟩
    rcases stream.graphKeys row hrow with ⟨vId, tagId, tv, hkey⟩ | ⟨edge, ev, hkey⟩
    · have htag : tagId &&& tagMaskSet &&& tagMaskSet = tagId &&& tagMaskSet := by
        rw [Int32.and_assoc, Int32.and_self]
      refine (stream.collectVertexProps_eq_iff htag onlyStructure).mp
        (htags vId (tagId &&& tagMaskSet) htag) row hrow ?_ hshown
      rw [hkey]
      exact tagPrefix_inj.mpr ⟨rfl, htag.symm⟩
    have hbit : (edge.edgeType ||| edgeMaskSet) &&& tagEdgeMask ≠ 0 := by
      rw [or_edgeMaskSet_and]
      decide
    have hword := typeOfWord_or hbit
    have htype : typeOfWord (typeOfWord (edge.edgeType ||| edgeMaskSet) ||| edgeMaskSet) =
        typeOfWord (edge.edgeType ||| edgeMaskSet) := by rw [hword]
    refine (stream.collectEdgeProps_eq_iff htype).mp
      (hedges edge.src _ onlyStructure htype) row hrow ?_ hshown
    have hsame : typePrefix part edge.src (typeOfWord (edge.edgeType ||| edgeMaskSet)) =
        typePrefix part edge.src edge.edgeType := typePrefix_inj.mpr ⟨rfl, hword⟩
    rw [hkey, hsame]
    exact typePrefix_prefix_edgeKey_self part edge ev
  · rintro ⟨hpass, hsafe⟩
    refine ⟨stream.kept schemas now, (compact_eq _ _).trans (if_pos hpass),
      fun vId tagId htag => ?_,
      fun vId edgeType onlyStructure htype => ?_⟩
    · rw [stream.collectVertexProps_eq_iff htag true]
      exact fun row hrow _ => hsafe true row hrow
    · rw [stream.collectEdgeProps_eq_iff htype]
      exact fun row hrow _ => hsafe onlyStructure row hrow

/-! ### An older version comes back -/

/-- A time to live on an integer column, which is the first byte of a row. -/
def agingSchemas (ttlDuration : Int64) : TtlSchemas :=
  let source : SchemaSource := {
    getLatestSchemaVersion := fun _ => some 0
    getSchema := fun _ => some ⟨some ⟨some ttlDuration, some [97]⟩, fun _ => .int⟩
    getPropReader := fun _ val =>
      .ok ⟨fun _ => some (Int64.ofNat (val.headD 0).toNat), fun _ => none⟩ }
  ⟨source, source⟩

/-- Two versions of a tag of a vertex. -/
def agedVersions : DataStream 1 where
  rows := [(vertexKey 1 1 5 0, [1]), (vertexKey 1 1 5 1, [100])]
  sorted := by decide
  graphKeys := by
    rw [forall_mem_cons, forall_mem_singleton]
    exact ⟨.inl ⟨1, 5, 0, rfl⟩, .inl ⟨1, 5, 1, rfl⟩⟩

/-- After ten seconds the newest version is over and the older one is not: the newest one is
dropped and the older one is shown.  With `2 ^ 32` seconds more both versions are shown in
their turn, but the filter drops the newest one after ten seconds all the same. -/
theorem not_compactionUnseen :
    ¬ CompactionUnseen (agingSchemas 10) 50 1 agedVersions.rows ∧
      ¬ CompactionUnseen (agingSchemas 4294967306) 50 1 agedVersions.rows := by
  constructor <;> rintro ⟨kept, hkept, htags, -⟩
  all_goals
    obtain rfl : [(vertexKey 1 1 5 1, [100])] = kept :=
      Option.some.inj (Eq.trans (by decide +kernel) hkept)
    have hsame := htags 1 5 (by decide)
    revert hsame
    decide +kernel

end K2Graph.Storaged
