import K2Graph.Kvstore.Commit
import K2Graph.Storaged.Delete

/-!
# Writing vertices and edges

`AddVerticesProcessor` and `AddEdgesProcessor` put the rows of a request into a map, so
that of two rows with one key the later one counts.  With indexes they then make one batch
in an atomic operation: for every row and every index of its tag or edge type, the key of
the newest row that is stored is removed and that of the new row is put; the row itself
comes after its index keys.

`UpdateVertexProcessor` and `UpdateEdgeProcessor` change the newest row where it stands, or
put a new one if there is none and the request may insert.  What the filter and the items
of a request make of a row is an argument.

An atomic operation returns a log or `folly::none`.  An empty log is committed like any
other, and does nothing.
-/

namespace K2Graph.Storaged

open LittleEndian Kvstore

/-! ### Adding -/

/-- The rows of tags, or of edges, by their keys. -/
structure Table where
  schemaId : Bytes → Int32
  /-- What the keys of all versions begin with. -/
  versions : Bytes → Bytes
  read : Int32 → Bytes → Read RowReader
  indexKey : Bytes → Int32 → IndexValues → Bytes

/-- The rows of tags. -/
def tagTable (schemas : SchemaManager) (part : Int32) : Table where
  schemaId key := int32At key 12
  versions key := tagPrefix part (int64At key 4) (int32At key 12)
  read := schemas.getTagPropReader
  indexKey key indexId := vertexIndexKey part indexId (int64At key 4)

def edgeTable (schemas : SchemaManager) (part : Int32) : Table where
  schemaId key := typeOfWord (int32At key 12)
  versions key := edgePrefix part (edgeOfKey key)
  read := schemas.getEdgePropReader
  indexKey key indexId := edgeIndexKey part indexId (edgeOfKey key)

/-- `cpp2::Vertex`: the tags come with their properties. -/
structure NewVertex where
  id : Int64
  tags : List (Int32 × Bytes)

/-- `cpp2::Edge`. -/
structure NewEdge where
  key : EdgeKey
  props : Bytes

def vertexRows (part : Int32) (version : Int64) (vertices : List NewVertex) :
    List (Bytes × Bytes) :=
  vertices.flatMap fun v => v.tags.map fun tag => (vertexKey part v.id tag.1 version, tag.2)

def edgeRows (part : Int32) (version : Int64) (edges : List NewEdge) : List (Bytes × Bytes) :=
  edges.map fun edge => (edgeKey part edge.key version, edge.props)

/-- `newVertices` and `newEdges`: a map, which is gone through in key order. -/
def newRows (rows : List (Bytes × Bytes)) : List (Bytes × Bytes) :=
  Engine.scan (rows.foldl (fun m row => m.insert row.1 row.2) ∅) []

namespace Table

variable (T : Table)

/-- `findObsoleteIndex`: the newest row there is, or nothing if the scan fails. -/
def findObsoleteIndex (scanned : Bool) (e : Engine) (key : Bytes) : Bytes :=
  if scanned then ((e.scan (T.versions key)).head?.map Prod.snd).getD [] else []

/-- The key of a stored row in an index; a row that is empty is taken for none. -/
def oldKeys (key old : Bytes) (index : IndexItem) : Except Stop (List Bytes) :=
  if old = [] then .ok []
  else indexKeyOf (T.schemaId key) (T.read (T.schemaId key) old) (T.indexKey key) index

def newKeys (row : Bytes × Bytes) (index : IndexItem) : Except Stop (List Bytes) :=
  indexKeyOf (T.schemaId row.1) (T.read (T.schemaId row.1) row.2) (T.indexKey row.1) index

def indexWrites (old : Bytes) (row : Bytes × Bytes) (index : IndexItem) :
    Except Stop (List WriteOp) := do
  let oi ← T.oldKeys row.1 old index
  let ni ← T.newKeys row index
  return oi.map .remove ++ ni.map fun key => .put key []

/-- The loop over the indexes: as long as there is no old row, it is looked for again.  `failed`
tells for which rows and indexes the scan fails. -/
def indexOps (failed : List (Bytes × ℕ)) (e : Engine) (row : Bytes × Bytes) :
    ℕ → Bytes → List IndexItem → Except Stop (List (List WriteOp))
  | _, _, [] => return []
  | call, val, index :: indexes => do
      let val := if index.schemaId = T.schemaId row.1 ∧ val = [] then
        T.findObsoleteIndex ((row.1, call) ∉ failed) e row.1 else val
      let ops ← T.indexWrites val row index
      return ops :: (← indexOps failed e row (call + 1) val indexes)

/-- What is written for a row.  Here `Stop.none` is a row that is not opened. -/
def addRow (failed : List (Bytes × ℕ)) (indexes : List IndexItem) (e : Engine)
    (row : Bytes × Bytes) : Except Stop (List WriteOp) := do
  let ops ← T.indexOps failed e row 0 [] indexes
  return ops.flatten ++ [.put row.1 row.2]

/-- `addVertices` and `addEdges`, which return an empty string when a row is not opened. -/
def add (failed : List (Bytes × ℕ)) (indexes : List IndexItem) (rows : List (Bytes × Bytes))
    (e : Engine) : Except Stop Operation :=
  match (newRows rows).mapM (T.addRow failed indexes e) with
  | .ok ops => .ok (.batch ops.flatten)
  | .error .none => .ok .sync
  | .error .fatal => .error .fatal

end Table

/-- What a client is told.  If the process ends it is told nothing. -/
inductive Report
  | succeeded
  | failed
  | crashed
  deriving DecidableEq

/-- `asyncAtomicOp` on a partition whose logs are all committed. -/
def atomicOp (result : Except Stop Operation) (e : Engine) : Report × Engine :=
  match result with
  | .error .fatal => (.crashed, e)
  | .error .none => (.failed, e)
  | .ok op => (.succeeded, e.write op.writes)

/-- **The log of the operation does the same** when `Part::commitLogs` comes to it. -/
theorem lookup_commitLogs_atomicOp (p : Part) (r : Record) (hshort : r.op.Short)
    (hfits : r.op.Fits) (e : Engine) :
    ∃ e' commands, p.commitAll e [[r.encode]] = some (e', commands) ∧
      ∀ k, k ≠ systemCommitKey p.partId → e'.lookup k = (atomicOp (.ok r.op) e).2.lookup k := by
  have hlog : List.flatten [[r.encode]] = [r].map Record.encode := rfl
  obtain ⟨e', commands, hcommit, hlookup⟩ :=
    Part.commitAll_encode (by simpa using hshort) (by simpa using hfits) hlog e
  refine ⟨e', commands, hcommit, fun k hk => ?_⟩
  rw [hlookup]
  exact AList.lookup_insert_ne hk

/-- Rows are put, with their index keys if there are indexes. -/
def Table.process (T : Table) (failed : List (Bytes × ℕ)) (indexes : List IndexItem)
    (rows : List (Bytes × Bytes)) (e : Engine) : Report × Engine :=
  if indexes = [] then (.succeeded, e.write (Operation.multiPut rows).writes)
  else atomicOp (T.add failed indexes rows e) e

variable (schemas : SchemaManager) (indexes : List IndexItem) (part : Int32)

/-- `AddVerticesProcessor::process` for a partition. -/
def addVertices (failed : List (Bytes × ℕ)) (version : Int64) (vertices : List NewVertex)
    (e : Engine) : Report × Engine :=
  (tagTable schemas part).process failed indexes (vertexRows part version vertices) e

/-- `AddEdgesProcessor::process` for a partition. -/
def addEdges (failed : List (Bytes × ℕ)) (version : Int64) (edges : List NewEdge) (e : Engine) :
    Report × Engine :=
  (edgeTable schemas part).process failed indexes (edgeRows part version edges) e

/-! ### Updating -/

/-- What the filter and the items of a request make of a row. -/
inductive Evaluated
  | fatal
  /-- The filter does not hold, or something cannot be evaluated. -/
  | rejected
  /-- A column of the new row has no value. -/
  | unencodable
  | row (nVal : Bytes)

/-- An update request, which has one item at least. -/
structure UpdateRequest where
  insertable : Bool
  /-- What becomes of the row that is stored, or of the default values. -/
  evaluate : Option RowReader → Evaluated

/-- The key of a row in an index; a row that is not opened has none. -/
def presentKeys (schemaId : Int32) (read : Read RowReader) (indexKey : Int32 → IndexValues → Bytes)
    (index : IndexItem) : Except Stop (List Bytes) :=
  match read with
  | .null => .ok []
  | .fatal => indexKeyOf schemaId .fatal indexKey index
  | .ok reader => indexKeyOf schemaId (.ok reader) indexKey index

variable (schemaId : Int32) (read : Bytes → Read RowReader)
  (indexKey : Int32 → IndexValues → Bytes)

/-- The key of the row that is replaced; a row that is empty is taken for none. -/
def replacedKeys (old : Bytes) (index : IndexItem) : Except Stop (List Bytes) :=
  if old = [] then .ok [] else presentKeys schemaId (read old) indexKey index

def updateIndex (old nVal : Bytes) (index : IndexItem) : Except Stop (List WriteOp) := do
  let oi ← replacedKeys schemaId read indexKey old index
  let ni ← presentKeys schemaId (read nVal) indexKey index
  return oi.map .remove ++ ni.map fun key => .put key []

/-- The end of `updateAndWriteBack`. -/
def writeBack (indexes : List IndexItem) (key old nVal : Bytes) : Except Stop Operation := do
  let ops ← indexes.mapM (updateIndex schemaId read indexKey old nVal)
  return .batch (ops.flatten ++ [.put key nVal])

/-- `checkFilter` and `updateAndWriteBack`, given the newest row. -/
def updateRow (newest : Option (Bytes × Bytes)) (read : Bytes → Read RowReader)
    (req : UpdateRequest) (newKey : Bytes)
    (write : Bytes → Bytes → Evaluated → Except Stop Operation) : Except Stop Operation :=
  match newest with
  | some row =>
      match read row.2 with
      | .fatal => .error .fatal
      | .null => .error .none
      | .ok reader => write row.1 row.2 (req.evaluate (some reader))
  | none => if req.insertable then write newKey [] (req.evaluate none) else .error .none

/-- A vertex whose new row cannot be encoded gives an empty log. -/
def writeVertex (vId : Int64) (tagId : Int32) (key old : Bytes) : Evaluated → Except Stop Operation
  | .fatal => .error .fatal
  | .rejected => .error .none
  | .unencodable => .ok .sync
  | .row nVal => writeBack tagId (schemas.getTagPropReader tagId)
      (fun indexId => vertexIndexKey part indexId vId) indexes key old nVal

/-- The atomic operation of `UpdateVertexProcessor`. -/
def updateVertexOp (vId : Int64) (tagId : Int32) (version : Int64)
    (req : UpdateRequest) (e : Engine) : Except Stop Operation :=
  updateRow (e.scan (tagPrefix part vId tagId)).head? (schemas.getTagPropReader tagId) req
    (vertexKey part vId tagId version) (writeVertex schemas indexes part vId tagId)

variable (edge : EdgeKey)

/-- An edge whose new row cannot be encoded gives no log, and a reverse edge is not in the
indexes. -/
def writeEdge (key old : Bytes) : Evaluated → Except Stop Operation
  | .fatal => .error .fatal
  | .rejected => .error .none
  | .unencodable => .error .none
  | .row nVal => writeBack edge.edgeType (schemas.getEdgePropReader edge.edgeType)
      (fun indexId => edgeIndexKey part indexId edge) (if 0 < edge.edgeType then indexes else [])
      key old nVal

/-- The atomic operation of `UpdateEdgeProcessor`. -/
def updateEdgeOp (version : Int64) (req : UpdateRequest) (e : Engine) : Except Stop Operation :=
  updateRow (e.scan (edgePrefix part edge)).head?
    (schemas.getEdgePropReader (absType edge.edgeType)) req (edgeKey part edge version)
    (writeEdge schemas indexes part edge)

/-- `UpdateVertexProcessor::process`. -/
def updateVertex (vId : Int64) (tagId : Int32) (version : Int64)
    (req : UpdateRequest) (e : Engine) : Report × Engine :=
  atomicOp (updateVertexOp schemas indexes part vId tagId version req e) e

/-- `UpdateEdgeProcessor::process`. -/
def updateEdge (version : Int64) (req : UpdateRequest) (e : Engine) : Report × Engine :=
  atomicOp (updateEdgeOp schemas indexes part edge version req e) e

/-! ### Batches -/

def touches (k : Bytes) : WriteOp → Bool
  | .put key _ => key = k
  | .remove key => key = k
  | .removeRange start stop => inRange start stop k

variable {schemaId indexKey} {k : Bytes}

theorem onKey_of_touches (h : ¬ touches k op = true) (held : Option Bytes) :
    op.onKey k held = held := by
  cases op with
  | put key value | remove key => exact if_neg (by simpa [touches] using h)
  | removeRange start stop => exact if_neg h

theorem lookup_write_of_put (h : ∀ op ∈ batch, touches k op = true → op = .put k v) (e : Engine) :
    (e.write batch).lookup k = if .put k v ∈ batch then some v else e.lookup k := by
  rw [Engine.lookup_write]
  induction batch generalizing e with
  | nil => rfl
  | cons op batch ih =>
    obtain ⟨hop, hbatch⟩ := List.forall_mem_cons.mp h
    rw [List.foldl_cons, ← Engine.lookup_apply, ih hbatch, Engine.lookup_apply]
    by_cases htouch : touches k op = true
    · rw [hop htouch, WriteOp.onKey, if_pos rfl, ite_self, if_pos List.mem_cons_self]
    rw [onKey_of_touches htouch]
    refine if_congr (List.mem_cons.trans (or_iff_right ?_)).symm rfl rfl
    rintro rfl
    exact htouch (by simp [touches])

/-- No key is put and removed after that. -/
def NotUndone (a b : WriteOp) : Prop := ∀ k v, a = .put k v → b ≠ .remove k

theorem mem_write_iff (hrange : ∀ start stop, .removeRange start stop ∉ batch)
    (h : batch.Pairwise NotUndone) (e : Engine) (k : Bytes) :
    k ∈ e.write batch ↔ (∃ v, .put k v ∈ batch) ∨ (k ∈ e ∧ .remove k ∉ batch) := by
  induction batch generalizing e with
  | nil => simp [Engine.write]
  | cons op batch ih =>
    obtain ⟨hop, hbatch⟩ := List.pairwise_cons.mp h
    have hstep : e.write (op :: batch) = (e.apply op).write batch := rfl
    have hrest : ∀ start stop, .removeRange start stop ∉ batch :=
      fun start stop hmem => hrange start stop (List.mem_cons_of_mem op hmem)
    rw [hstep, ih hrest hbatch]
    cases op with
    | put key value =>
      show _ ∨ (k ∈ e.insert key value ∧ _) ↔ _
      by_cases hk : k = key
      · subst hk
        have hremove : .remove k ∉ batch := fun hmem => hop _ hmem k value rfl rfl
        simp [hremove]
      · simp [hk]
    | remove key =>
      show _ ∨ (k ∈ e.erase key ∧ _) ↔ _
      by_cases hk : k = key
      · subst hk
        simp
      · simp [hk]
    | removeRange start stop => exact absurd List.mem_cons_self (hrange start stop)

/-! ### What the batches hold -/

/-- The removals and the puts of a batch without ranges. -/
structure Describes (ops : List WriteOp) (removed : Bytes → Prop) (put : Bytes → Bytes → Prop) :
    Prop where
  remove_mem : ∀ k, .remove k ∈ ops ↔ removed k
  put_mem : ∀ k v, .put k v ∈ ops ↔ put k v
  no_range : ∀ start stop, .removeRange start stop ∉ ops

theorem describes_flatten {α : Type} {f : α → Except Stop (List WriteOp)} {xs : List α}
    {removed : α → Bytes → Prop} {put : α → Bytes → Bytes → Prop} (h : xs.mapM f = .ok opss)
    (hf : ∀ x ∈ xs, ∀ ops, f x = .ok ops → Describes ops (removed x) (put x)) :
    Describes opss.flatten (fun k => ∃ x ∈ xs, removed x k) fun k v => ∃ x ∈ xs, put x k v := by
  refine ⟨fun k => ?_, fun k v => ?_, fun start stop hmem => ?_⟩
  · exact mem_flatten_iff_of_mapM h fun x hx ops hops => (hf x hx ops hops).remove_mem k
  · exact mem_flatten_iff_of_mapM h fun x hx ops hops => (hf x hx ops hops).put_mem k v
  · obtain ⟨x, hx, ops, hops, hmem⟩ := (mem_flatten_of_mapM h).mp hmem
    exact (hf x hx ops hops).no_range start stop hmem

theorem describes_keys {put : Bytes → Prop} {oi ni : List Bytes} (hoi : ∀ k, k ∈ oi ↔ removed k)
    (hni : ∀ k, k ∈ ni ↔ put k) :
    Describes (oi.map .remove ++ ni.map fun key => .put key []) removed
      fun k v => v = [] ∧ put k := by
  refine ⟨fun k => ?_, fun k v => ?_, fun start stop => ?_⟩
  · simp [hoi]
  · simp only [List.mem_append, List.mem_map, reduceCtorEq, and_false, exists_false, false_or,
      WriteOp.put.injEq, hni]
    constructor
    · rintro ⟨_, hput, rfl, rfl⟩
      exact ⟨rfl, hput⟩
    · rintro ⟨rfl, hput⟩
      exact ⟨k, hput, rfl, rfl⟩
  · simp

theorem Describes.concat (h : Describes ops removed put) (key val : Bytes) :
    Describes (ops ++ [.put key val]) removed fun k v => put k v ∨ (k = key ∧ v = val) := by
  refine ⟨fun k => ?_, fun k v => ?_, fun start stop => ?_⟩
  · simp [h.remove_mem]
  · simp [h.put_mem]
  · simp [h.no_range]

variable {read : Read RowReader}

theorem mem_indexKeyOf_iff (h : indexKeyOf schemaId read indexKey index = .ok keys) (k : Bytes) :
    k ∈ keys ↔ HasIndexKey schemaId read indexKey [index] k := by
  rw [mem_indexKeyOf h]
  simp [HasIndexKey]

theorem not_hasIndexKey_null {indexes : List IndexItem} :
    ¬ HasIndexKey schemaId .null indexKey indexes k := by
  rintro ⟨_, _, _, _, _, hread, -⟩
  cases hread

/-- Rows that are not opened are the only ones that stop a batch without ending the
process. -/
theorem read_of_indexKeyOf (h : indexKeyOf schemaId read indexKey index = .error .none) :
    index.schemaId = schemaId ∧ read = .null := by
  unfold indexKeyOf at h
  split_ifs at h with hid
  refine ⟨hid, ?_⟩
  cases read with
  | fatal => cases h
  | null => rfl
  | ok reader => cases hvalues : collectIndexValues reader index.fields <;> simp [hvalues] at h

namespace Table

variable {T : Table} {indexes : List IndexItem}

def HasKey (T : Table) (indexes : List IndexItem) (key val : Bytes) : Bytes → Prop :=
  HasIndexKey (T.schemaId key) (T.read (T.schemaId key) val) (T.indexKey key) indexes

theorem describes_indexWrites (h : T.indexWrites old row index = .ok ops) :
    Describes ops (fun k => old ≠ [] ∧ T.HasKey [index] row.1 old k)
      fun k v => v = [] ∧ T.HasKey [index] row.1 row.2 k := by
  obtain ⟨oi, hoi, h⟩ := exists_of_bind_eq_ok h
  obtain ⟨ni, hni, h⟩ := exists_of_bind_eq_ok h
  cases h
  refine describes_keys (fun k => ?_) (mem_indexKeyOf_iff hni)
  rw [oldKeys] at hoi
  split_ifs at hoi with hold
  · cases hoi
    simp [hold]
  · rw [mem_indexKeyOf_iff hoi, and_iff_right hold]
    rfl

theorem describes_indexed {f : IndexItem → Except Stop (List WriteOp)} {old : Bytes}
    (hf : ∀ index ops, f index = .ok ops →
      Describes ops (fun k => old ≠ [] ∧ T.HasKey [index] key old k) fun k v => v = [] ∧
        T.HasKey [index] key val k)
    (h : indexes.mapM f = .ok opss) :
    Describes (opss.flatten ++ [.put key val]) (fun k => old ≠ [] ∧ T.HasKey indexes key old k)
      fun k v => (v = [] ∧ T.HasKey indexes key val k) ∨ (k = key ∧ v = val) := by
  have hkeys {val k : Bytes} : (∃ index ∈ indexes, T.HasKey [index] key val k) ↔
      T.HasKey indexes key val k := by
    simp [Table.HasKey, HasIndexKey]
  have hall := (describes_flatten h fun index _ ops hops => hf index ops hops).concat key val
  refine ⟨fun k => ?_, fun k v => ?_, hall.no_range⟩
  · rw [hall.remove_mem, ← hkeys]
    constructor
    · rintro ⟨index, hindex, hold, hkey⟩
      exact ⟨hold, index, hindex, hkey⟩
    · rintro ⟨hold, index, hindex, hkey⟩
      exact ⟨index, hindex, hold, hkey⟩
  · rw [hall.put_mem, ← hkeys]
    refine or_congr_left ?_
    constructor
    · rintro ⟨index, hindex, hval, hkey⟩
      exact ⟨hval, index, hindex, hkey⟩
    · rintro ⟨hval, index, hindex, hkey⟩
      exact ⟨index, hindex, hval, hkey⟩

theorem indexWrites_of_ne (h : index.schemaId ≠ T.schemaId row.1) (old old' : Bytes) :
    T.indexWrites old row index = T.indexWrites old' row index := by
  have hold (old : Bytes) : T.oldKeys row.1 old index = .ok [] := by
    rw [oldKeys]
    split_ifs
    · rfl
    · exact if_neg h
  rw [indexWrites, indexWrites, hold, hold]

/-- If no scan fails, all indexes get the same old row. -/
theorem indexOps_nil (hval : val = [] ∨ val = T.findObsoleteIndex true e row.1) (call : ℕ) :
    T.indexOps [] e row call val indexes =
      indexes.mapM (T.indexWrites (T.findObsoleteIndex true e row.1) row) := by
  induction indexes generalizing call val with
  | nil => rfl
  | cons index indexes ih =>
    rw [indexOps, List.mapM_cons]
    split_ifs with hfind
    · rw [decide_eq_true List.not_mem_nil, ih (.inr rfl)]
    · rw [ih hval]
      by_cases hid : index.schemaId = T.schemaId row.1
      · rw [hval.resolve_left fun h => hfind ⟨hid, h⟩]
      · rw [indexWrites_of_ne hid val]

theorem addRow_nil : T.addRow [] indexes e row = (do
    let ops ← indexes.mapM (T.indexWrites (T.findObsoleteIndex true e row.1) row)
    return ops.flatten ++ [.put row.1 row.2]) := by
  rw [addRow, indexOps_nil (.inl rfl)]

theorem describes_addRow (h : T.addRow [] indexes e row = .ok ops) :
    Describes ops
      (fun k => T.findObsoleteIndex true e row.1 ≠ [] ∧
        T.HasKey indexes row.1 (T.findObsoleteIndex true e row.1) k)
      fun k v => (v = [] ∧ T.HasKey indexes row.1 row.2 k) ∨ (k = row.1 ∧ v = row.2) := by
  rw [addRow_nil] at h
  obtain ⟨opss, hopss, h⟩ := exists_of_bind_eq_ok h
  cases h
  exact describes_indexed (fun _ _ hops => describes_indexWrites hops) hopss

theorem describes_add (h : (newRows rows).mapM (T.addRow [] indexes e) = .ok opss) :
    Describes opss.flatten
      (fun k => ∃ row ∈ newRows rows, T.findObsoleteIndex true e row.1 ≠ [] ∧
        T.HasKey indexes row.1 (T.findObsoleteIndex true e row.1) k)
      fun k v => ∃ row ∈ newRows rows,
        (v = [] ∧ T.HasKey indexes row.1 row.2 k) ∨ (k = row.1 ∧ v = row.2) :=
  describes_flatten h fun _ _ _ hops => describes_addRow hops

theorem exists_null_of_add (h : (newRows rows).mapM (T.addRow [] indexes e) = .error .none) :
    ∃ row ∈ newRows rows, ∃ index ∈ indexes, index.schemaId = T.schemaId row.1 ∧
      ((T.findObsoleteIndex true e row.1 ≠ [] ∧
        T.read (T.schemaId row.1) (T.findObsoleteIndex true e row.1) = .null) ∨
        T.read (T.schemaId row.1) row.2 = .null) := by
  obtain ⟨row, hrow, h⟩ := exists_of_mapM_eq_error h
  rw [addRow_nil] at h
  rcases error_of_bind_eq_error h with h | ⟨_, _, h⟩
  · obtain ⟨index, hindex, h⟩ := exists_of_mapM_eq_error h
    refine ⟨row, hrow, index, hindex, ?_⟩
    rcases error_of_bind_eq_error h with hold | ⟨_, _, h⟩
    · rw [oldKeys] at hold
      split_ifs at hold with hne
      obtain ⟨hid, hnull⟩ := read_of_indexKeyOf hold
      exact ⟨hid, .inl ⟨hne, hnull⟩⟩
    · rcases error_of_bind_eq_error h with hnew | ⟨_, _, h⟩
      · obtain ⟨hid, hnull⟩ := read_of_indexKeyOf hnew
        exact ⟨hid, .inr hnull⟩
      · cases h
  · cases h

end Table

theorem value_eq_of_mem_newRows (hv : (key, v) ∈ newRows rows) (hw : (key, w) ∈ newRows rows) :
    v = w := by
  have hv' := (Engine.mem_scan.mp hv).1
  rw [(Engine.mem_scan.mp hw).1] at hv'
  exact (Option.some.inj hv').symm

end K2Graph.Storaged
