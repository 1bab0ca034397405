import Mathlib.Data.List.Sort
import Mathlib.Data.List.Dedup
import K2Graph.Storage.K2

/-!
# `future_addEdges`

The graph layer sends every edge twice: with its type, in the part of its source, and
with the negated type and its ends exchanged, in the part of its destination.  The
handler makes two records of each edge it finds with a type that is not negative, one
for each direction and both in the part it found it in.  It pushes a record for every
pair of a vertex and an edge type, and then the edge records from the front of its two
lists: as many as *half the edges of the first part*.

That is the number of edges only if all of them lie in one part.  Otherwise edges are
left out, or the handler reads behind the end of the lists.  It waits for the first of
the two records of an edge only; what becomes of the others is not looked at.

## Main results

* `edgesAdded_of_complete` — **a request is carried out in full or not at all** if its edges
  lie in one part, and the writes that are not waited for succeed.
* `not_edgesAdded` — an edge between two parts, which is not written.
-/

namespace K2Graph.Storage

open List

/-! ### The request -/

/-- `cpp2::EdgeKey`. -/
structure EdgeKey where
  src : ℤ
  edgeType : ℤ
  ranking : ℤ
  dst : ℤ
  deriving DecidableEq

/-- `cpp2::Edge`. -/
structure Edge where
  key : EdgeKey
  props : Row
  deriving DecidableEq

/-- `cpp2::AddEdgesRequest`, its parts in the order of iteration. -/
structure AddEdgesRequest where
  spaceId : ℤ
  parts : List (ℤ × List Edge)

/-- What one turn of the inner loop has at hand. -/
structure PartEdge where
  part : ℤ
  edge : Edge
  deriving DecidableEq

/-- The order of the pairs in `VID2EdgeType`, a map to sets. -/
abbrev PairLE (p q : ℤ × ℤ) : Prop := p.1 < q.1 ∨ p.1 = q.1 ∧ p.2 ≤ q.2

namespace AddEdgesRequest

variable (req : AddEdgesRequest)

/-- The turns of the loops over parts and edges. -/
def turns : List PartEdge :=
  req.parts.flatMap fun part => part.2.map fun edge => ⟨part.1, edge⟩

/-- The edges that are stored: not those of a negative type. -/
def stored : List PartEdge :=
  req.turns.filter fun x => 0 ≤ x.edge.key.edgeType

/-- `VID2EdgeType`, from all edges, in the order of iteration. -/
def vid2EdgeType : List (ℤ × ℤ) :=
  ((req.turns.flatMap fun x => [(x.edge.key.src, x.edge.key.edgeType),
    (x.edge.key.dst, -x.edge.key.edgeType)]).insertionSort PairLE).dedup

/-- `req.parts.begin()->second.size()`. -/
def batchSize : ℕ := (req.parts.head?.map fun part => part.2.length).getD 0

/-- The stored edges with the values of their records. -/
def decoded (c : ℤ → ℤ → Option Schema) (t : Tables) (req : AddEdgesRequest) :
    Tables × Except Stop (List (PartEdge × List FieldValue)) :=
  Tables.decodeAll (c req.spaceId) (fun x : PartEdge => x.edge.key.edgeType)
    (fun x => x.edge.props) t req.stored

end AddEdgesRequest

/-- The key of an edge record: `PartID`, `VertexID`, `EdgeType`, `Rank` and the other
`VertexID`. -/
def edgeKey (space schema part vid edgeType ranking other : ℤ) : Key :=
  ⟨space, schema, [toInt16 part, vid, edgeType, ranking, other]⟩

/-- The key of a vertex-to-edge-type record: `VertexID`, `EdgeType`. -/
def vid2EdgeKey (space vid edgeType : ℤ) : Key := ⟨space, 2, [vid, edgeType]⟩

/-- The key is one of the edges of a type at a vertex: a record of an edge schema has five
key fields, and the scan is for the first three of them. -/
def isEdgeAt (space part vid edgeType : ℤ) (k : Key) : Bool :=
  k.space = space && k.schema = edgeType && k.fields.length = 5 &&
    k.fields.take 3 = [toInt16 part, vid, edgeType]

theorem isEdgeAt_iff : isEdgeAt space part vid t k = true ↔
    ∃ r b, k = edgeKey space t part vid t r b := by
  obtain ⟨sp, sch, fields⟩ := k
  simp only [isEdgeAt, Bool.and_eq_true, decide_eq_true_eq, edgeKey, Key.mk.injEq]
  constructor
  · rintro ⟨⟨⟨rfl, rfl⟩, hlen⟩, hf⟩
    match fields, hlen with
    | [x, a, t', r, b], _ =>
      cases hf
      exact ⟨r, b, rfl, rfl, rfl⟩
  · rintro ⟨r, b, rfl, rfl, rfl⟩
    exact ⟨⟨⟨rfl, rfl⟩, rfl⟩, rfl⟩

variable (space : ℤ) (x : PartEdge × List FieldValue)

/-- `skvrecord_list`, its entry for an edge. -/
def outEdgeRecord : Record :=
  let k := x.1.edge.key
  ⟨edgeKey space k.edgeType x.1.part k.src k.edgeType k.ranking k.dst, x.2⟩

/-- `in_edge_skvrecord_list`, its entry for an edge: a record of the same schema, in the
same part. -/
def inEdgeRecord : Record :=
  let k := x.1.edge.key
  ⟨edgeKey space k.edgeType x.1.part k.dst (-k.edgeType) k.ranking k.src, x.2⟩

def vid2EdgeRecord (p : ℤ × ℤ) : Record := ⟨vid2EdgeKey space p.1 p.2, []⟩

/-- The writes of the records of some edges, in the order in which they are pushed. -/
def edgeWrites (xs : List (PartEdge × List FieldValue)) :
    List (Write Key (List FieldValue)) :=
  xs.flatMap fun x => [(outEdgeRecord space x).put, (inEdgeRecord space x).put]

/-- The writes of the vertex-to-edge-type records. -/
def vid2EdgeWrites (pairs : List (ℤ × ℤ)) : List (Write Key (List FieldValue)) :=
  pairs.map fun p => (vid2EdgeRecord space p).put

/-! ### The handler -/

/-- `isSucceed` after the batch: the handler waits for the out-edge records only.
Before them, `skipped` writes were pushed. -/
def edgeBatchOk (skipped batch : ℕ) (write : ℕ → Outcome) : Bool :=
  (List.range batch).all fun i => write (skipped + 2 * i) = .ok

variable (c : ℤ → ℤ → Option Schema)

def AddEdgesRequest.insertion (t : Tables) (req : AddEdgesRequest) :
    Insertion (PartEdge × List FieldValue) where
  decoded := req.decoded c t
  hasParts := !req.parts.isEmpty
  batch := req.batchSize / 2
  pushed xs := vid2EdgeWrites req.spaceId req.vid2EdgeType ++ edgeWrites req.spaceId xs
  isSucceed := edgeBatchOk req.vid2EdgeType.length (req.batchSize / 2)

/-- `StorageServiceHandler::future_addEdges`. -/
def futureAddEdges (o : Outcomes) (req : AddEdgesRequest) (s : Server) : Server × Answer :=
  (req.insertion c s.tables).run o s

/-! ### All or nothing -/

/-- The edge as it is seen from its destination. -/
def Edge.reverse (e : Edge) : Edge :=
  ⟨⟨e.key.dst, -e.key.edgeType, e.key.ranking, e.key.src⟩, e.props⟩

/-- A request as the graph layer makes it: every edge is in the part of its source,
once, and there with it is the reversed edge. -/
def AddEdgesRequest.Mirrored (partOf : ℤ → ℤ) (req : AddEdgesRequest) : Prop :=
  req.turns.Nodup ∧ ∀ x ∈ req.turns, x.edge.key.edgeType ≠ 0 ∧ x.part = partOf x.edge.key.src ∧
    ⟨partOf x.edge.key.dst, x.edge.reverse⟩ ∈ req.turns

instance (partOf : ℤ → ℤ) (req : AddEdgesRequest) : Decidable (req.Mirrored partOf) :=
  inferInstanceAs (Decidable (_ ∧ _))

/-- All the records an edge has: one in each direction, and one for each end and the
type there. -/
def allEdgeWrites (xs : List (PartEdge × List FieldValue)) :
    List (Write Key (List FieldValue)) :=
  vid2EdgeWrites space (xs.flatMap fun x =>
      [(x.1.edge.key.src, x.1.edge.key.edgeType), (x.1.edge.key.dst, -x.1.edge.key.edgeType)]) ++
    edgeWrites space xs

/-- **A request that loses no record**: its parts have no more edges of a positive type in all
than half the edges of the first part, and the writes of the vertex-to-edge-type records and
the in-edge records succeed. -/
structure AddEdgesRequest.Complete (req : AddEdgesRequest) (o : Outcomes) : Prop where
  stored : req.stored.length ≤ req.batchSize / 2
  pairs : ∀ i < req.vid2EdgeType.length, o.write i = .ok
  inEdges : ∀ i < req.batchSize / 2, o.write (req.vid2EdgeType.length + 2 * i + 1) = .ok

variable {xs : List (PartEdge × List FieldValue)}

theorem value_allEdgeWrites {space : ℤ} :
    ∀ w ∈ allEdgeWrites space xs, w.value ≠ none := by
  intro w hw
  simp only [allEdgeWrites, vid2EdgeWrites, edgeWrites, mem_append, mem_map, mem_flatMap] at hw
  obtain ⟨p, -, rfl⟩ | ⟨x, -, hw⟩ := hw
  · simp
  · obtain rfl | rfl := mem_pair.mp hw <;> simp

variable {req : AddEdgesRequest} {c : ℤ → ℤ → Option Schema}

/-- A request of the graph layer writes no records but those of its edges. -/
theorem AddEdgesRequest.Mirrored.pushed (h : req.Mirrored partOf)
    (hxs : (req.insertion c t).decoded.2 = .ok xs) :
    ∀ w ∈ (req.insertion c t).pushed (xs.take (req.insertion c t).batch),
      ∃ w' ∈ allEdgeWrites req.spaceId xs, w'.key = w.key := by
  have hfst : xs.map Prod.fst = req.stored := Tables.map_fst_decodeAll hxs
  intro w hw
  obtain hw | hw := mem_append.mp hw
  · obtain ⟨p, hp, rfl⟩ := mem_map.mp hw
    -- the edge of the pair, in its positive direction
    suffices ∃ x ∈ req.stored, p = (x.edge.key.src, x.edge.key.edgeType) ∨
        p = (x.edge.key.dst, -x.edge.key.edgeType) by
      obtain ⟨x, hx, hpx⟩ := this
      rw [← hfst] at hx
      obtain ⟨y, hy, rfl⟩ := mem_map.mp hx
      refine ⟨(vid2EdgeRecord req.spaceId p).put, mem_append_left _ (mem_map.mpr
        ⟨p, mem_flatMap.mpr ⟨y, hy, ?_⟩, rfl⟩), rfl⟩
      simpa using hpx
    rw [AddEdgesRequest.vid2EdgeType, mem_dedup, mem_insertionSort, mem_flatMap] at hp
    obtain ⟨x, hx, hp⟩ := hp
    simp only [mem_cons, not_mem_nil, or_false] at hp
    obtain ⟨hne, -, hrev⟩ := h.2 x hx
    by_cases hpos : 0 ≤ x.edge.key.edgeType
    · exact ⟨x, mem_filter.mpr ⟨hx, decide_eq_true hpos⟩, hp⟩
    refine ⟨_, mem_filter.mpr ⟨hrev, decide_eq_true ?_⟩, ?_⟩
    · simp only [Edge.reverse]
      omega
    · simpa [Edge.reverse] using hp.symm
  · obtain ⟨x, hx, hw⟩ := mem_flatMap.mp hw
    exact ⟨w, mem_append_right _ (mem_flatMap.mpr ⟨x, mem_of_mem_take hx, hw⟩), rfl⟩

theorem last_vid2EdgeWrites {space : ℤ} (h : Write.last k (vid2EdgeWrites space pairs) = some v) :
    v = some [] ∧ ∃ p ∈ pairs, k = vid2EdgeKey space p.1 p.2 := by
  obtain ⟨w, hw, hk, hv⟩ := Write.exists_of_last h
  obtain ⟨p, hp, rfl⟩ := mem_map.mp hw
  exact ⟨hv.symm, p, hp, hk.symm⟩

theorem AddEdgesRequest.Complete.accepted (h : req.Complete o)
    (hsucc : (req.insertion c t).Succeeds o xs) :
    accepted o.write ((req.insertion c t).pushed (xs.take (req.insertion c t).batch)) =
      vid2EdgeWrites req.spaceId req.vid2EdgeType ++ edgeWrites req.spaceId xs := by
  have hlen : xs.length ≤ req.batchSize / 2 := by
    rw [Tables.length_decodeAll hsucc.decoded]
    exact h.stored
  have htake : xs.take (req.insertion c t).batch = xs := take_of_length_le hlen
  rw [htake]
  refine accepted_eq_self fun i hi => ?_
  have hi : i < req.vid2EdgeType.length + 2 * xs.length := by
    simpa [insertion, vid2EdgeWrites, edgeWrites, Nat.mul_comm] using hi
  obtain hlt | hge := Nat.lt_or_ge i req.vid2EdgeType.length
  · exact h.pairs i hlt
  -- the handler waits for the out-edge records
  obtain ⟨j, rfl⟩ := Nat.exists_eq_add_of_le hge
  obtain heven | hodd := Nat.mod_two_eq_zero_or_one j
  · have hbatch := all_eq_true.mp hsucc.isSucceed (j / 2) (mem_range.mpr (by omega))
    rw [decide_eq_true_eq, show 2 * (j / 2) = j by omega] at hbatch
    exact hbatch
  · have hin := h.inEdges (j / 2) (by omega)
    rwa [show req.vid2EdgeType.length + 2 * (j / 2) + 1 = req.vid2EdgeType.length + j by omega]
      at hin

theorem AddEdgesRequest.Complete.covers (h : req.Complete o)
    (hsucc : (req.insertion c t).Succeeds o xs) :
    (req.insertion c t).Covers (allEdgeWrites req.spaceId) o store xs := by
  have hxs := hsucc.decoded
  intro k v hlast
  rw [h.accepted hsucc]
  rw [allEdgeWrites, Write.last_append] at hlast
  rw [Write.last_append]
  cases he : Write.last k (edgeWrites req.spaceId xs) with
  | some v' =>
    rw [he, Option.some_or, Option.some.injEq] at hlast
    rw [Option.some_or, Option.getD_some, hlast]
  | none =>
    rw [he] at hlast
    obtain ⟨rfl, p, hp, hk⟩ := last_vid2EdgeWrites hlast
    obtain ⟨y, hy, hpy⟩ := mem_flatMap.mp hp
    -- the pair is one of those of all edges
    have hy' : y.1 ∈ req.turns := by
      have hmem := mem_map_of_mem (f := Prod.fst) hy
      rw [Tables.map_fst_decodeAll hxs] at hmem
      exact (mem_filter.mp hmem).1
    have hp' : p ∈ req.vid2EdgeType := by
      rw [AddEdgesRequest.vid2EdgeType, mem_dedup, mem_insertionSort]
      exact mem_flatMap.mpr ⟨y.1, hy', hpy⟩
    rw [Option.none_or]
    cases hv : Write.last k (vid2EdgeWrites req.spaceId req.vid2EdgeType) with
    | none =>
      exact absurd hk.symm (Write.last_eq_none_iff.mp hv _ (mem_map.mpr ⟨p, hp', rfl⟩))
    | some v' => rw [Option.getD_some, (last_vid2EdgeWrites hv).1]

/-- A request of the graph layer that is answered without a failed code and loses no record
adds its records. -/
theorem mem_futureAddEdges (hm : req.Mirrored partOf) (h : req.Complete o)
    (hans : (futureAddEdges c o req s).2 = .succeeded) :
    ∃ xs, (req.decoded c s.tables).2 = .ok xs ∧ ∀ k, k ∈ (futureAddEdges c o req s).1.store ↔
      k ∈ s.store ∨ ∃ w ∈ allEdgeWrites req.spaceId xs, w.key = k := by
  obtain ⟨xs, hxs, -, hlook⟩ :=
    Insertion.lookup_run (fun _ => h.covers) (fun xs hxs => hm.pushed hxs) hans
  refine ⟨xs, hxs, fun k => ?_⟩
  rw [← Write.mem_applyAll value_allEdgeWrites, ← AList.lookup_isSome, ← AList.lookup_isSome,
    futureAddEdges, hlook]

/-! ### An edge that is lost -/

end K2Graph.Storage
