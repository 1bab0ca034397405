import K2Graph.Lib.Run
import K2Graph.Storage.AddEdges

/-!
# `future_getBound` after `future_addEdges`

The handler reads, for every vertex of the request and every edge type, the edges of the
type at the vertex: a scan of the edge schema for the part, the vertex and the type.

Four things keep it from telling what was inserted.  It looks for the edges of a
negative type in a schema of that name, which no one creates, and answers with what it
has when it finds none.  It returns no properties.  It reports as the number of all
edges the number of those of the last scan, or one if there was no scan.  And it reads a
vertex in the part it is asked for in, while the record for the destination of an edge
is written in the part of the source; but with a positive type it reads only the records
for the source.

## Main results

* `rightBound_of_reach` — **after requests that lose no edge, a request for the edges of
  positive types that were inserted without properties, all of them at the last vertex
  and of the last type asked for, is answered right.**
* `not_rightBound` — an answer that is wrong in the number of edges and in what it
  returns for a negative type.
-/

namespace K2Graph.Storage

open List

/-! ### The handler -/

/-- `cpp2::GetNeighborsRequest`, its parts in the order of iteration. -/
structure GetNeighborsRequest where
  spaceId : ℤ
  parts : List (ℤ × List ℤ)
  edgeTypes : List ℤ
  returnColumns : List PropDef

/-- `cpp2::IdAndProp`: the neighbour and the properties, which are empty if unset. -/
structure IdAndProp where
  dst : ℤ
  props : Row
  deriving DecidableEq

/-- `cpp2::EdgeData`. -/
structure EdgeData where
  edgeType : ℤ
  edges : List IdAndProp
  deriving DecidableEq

/-- `cpp2::VertexData`, as far as `future_getBound` sets it. -/
structure VertexEdges where
  vertexId : ℤ
  edgeData : List EdgeData
  deriving DecidableEq

/-- `cpp2::QueryResponse`, as far as `future_getBound` sets it. -/
structure BoundResponse where
  totalEdges : ℤ
  vertices : List VertexEdges
  deriving DecidableEq

/-- How `future_getBound` ends. -/
inductive BoundAnswer where
  /-- Without a failed code. -/
  | response (r : BoundResponse)
  | failed
  | threw
  | crashed
  deriving DecidableEq

/-- How the calls for one request end: the scans are numbered. -/
structure ScanOutcomes where
  beginTxn : Bool
  createQuery : ℕ → Outcome
  query : ℕ → Outcome

/-- What ends the loops early. -/
inductive ScanStop where
  /-- `createQuery` has a bad status: the handler answers with what it has. -/
  | noQuery
  | failed
  | threw

/-- The `SecondVertexID`s of the edges of a type at a vertex. -/
def scanEdges (store : Store) (space part vid edgeType : ℤ) : List ℤ :=
  (store.keys.filter (isEdgeAt space part vid edgeType)).map fun k => k.fields.getD 4 0

section Loops

variable (c : ℤ → ℤ → Option Schema) (o : ScanOutcomes) (store : Store) (space : ℤ)

/-- The loop over the edge types: what was read, and `edge_number`.  Here `i` scans were
made before. -/
def readTypes (part vid : ℤ) : ℕ → ℤ → List ℤ → Except ScanStop (List EdgeData × ℤ)
  | _, edgeNumber, [] => .ok ([], edgeNumber)
  | i, _, edgeType :: types =>
    -- a schema that was never created has no query
    match if (c space edgeType).isSome then o.createQuery i else .failed with
    | .failed => .error .noQuery
    | .threw => .error .failed
    | .ok =>
      if o.query i = .threw then .error .threw
      else
        -- the status is not looked at; without a 2xx there are no records
        let dsts := if o.query i = .ok then scanEdges store space part vid edgeType else []
        match readTypes part vid (i + 1) dsts.length types with
        | .error e => .error e
        | .ok (data, edgeNumber) =>
          .ok (⟨edgeType, dsts.map fun dst => ⟨dst, []⟩⟩ :: data, edgeNumber)

/-- The loop over the vertices; the transaction is ended behind it. -/
def readVertices (types : List ℤ) :
    ℕ → ℤ → List VertexEdges → List (ℤ × ℤ) → List Bool × BoundAnswer
  | _, edgeNumber, vertices, [] => ([true], .response ⟨edgeNumber, vertices⟩)
  | i, edgeNumber, vertices, (part, vid) :: rest =>
    match readTypes c o store space part vid i edgeNumber types with
    | .error .noQuery => ([], .response ⟨0, vertices⟩)
    | .error .failed => ([], .failed)
    | .error .threw => ([], .threw)
    | .ok (data, edgeNumber) =>
      readVertices types (i + types.length) edgeNumber (vertices ++ [⟨vid, data⟩]) rest

end Loops

/-- The vertices that are asked for, with their parts. -/
def GetNeighborsRequest.pairs (req : GetNeighborsRequest) : List (ℤ × ℤ) :=
  req.parts.flatMap fun part => part.2.map fun vid => (part.1, vid)

/-- `StorageServiceHandler::future_getBound`. -/
def getBound (c : ℤ → ℤ → Option Schema) (o : ScanOutcomes) (req : GetNeighborsRequest)
    (s : Server) : TxnUse × Server × BoundAnswer :=
  match req.returnColumns with
  | [] => (none, s, .crashed)
  | col :: _ =>
    match s.tables.schemaOf (c req.spaceId) col.id with
    | none => (none, s, .crashed)
    | some schema =>
      let s := { s with tables := s.tables.addSchema col.id schema }
      if !o.beginTxn then (none, s, .failed)
      else
        let (ends, answer) := readVertices c o s.store req.spaceId req.edgeTypes 0 1 [] req.pairs
        (some ends, s, answer)

/-- The edges of all spaces, each with the properties it was last inserted with. -/
abbrev Graph := AList fun _ : ℤ × EdgeKey => Row

/-- The edge is one of the type at the vertex: for a negative type, one that ends there. -/
def isIncident (space vid edgeType : ℤ) (k : ℤ × EdgeKey) : Bool :=
  k.1 = space &&
    if 0 ≤ edgeType then k.2.src = vid && k.2.edgeType = edgeType
    else k.2.dst = vid && k.2.edgeType = -edgeType

/-- The end of an edge that is not the vertex it is asked for at. -/
def neighbour (edgeType : ℤ) (k : EdgeKey) : ℤ := if 0 ≤ edgeType then k.dst else k.src

/-- The edges of a type at a vertex, with their properties. -/
def Graph.incident (g : Graph) (space vid edgeType : ℤ) : List IdAndProp :=
  (g.entries.filter fun e => isIncident space vid edgeType e.1).map fun e =>
    ⟨neighbour edgeType e.1.2, e.2⟩

/-- A storage process, and the edges that were inserted. -/
structure EdgeRun where
  server : Server
  graph : Graph

namespace EdgeRun

/-- A new process and an empty store. -/
def init : EdgeRun := ⟨⟨.empty, ∅⟩, ∅⟩

def graphWrites (req : AddEdgesRequest) : List (Write (ℤ × EdgeKey) Row) :=
  req.stored.map fun x => .put (req.spaceId, x.edge.key) x.edge.props

variable (c : ℤ → ℤ → Option Schema)

/-- A request that is answered without a failed code. -/
def step (s : EdgeRun) (a : Outcomes × AddEdgesRequest) :
    Option EdgeRun :=
  let r := futureAddEdges c a.1 a.2 s.server
  if r.2 = .succeeded then some ⟨r.1, Write.applyAll s.graph (graphWrites a.2)⟩ else none

/-- A request that loses no edge: it is one of the graph layer, and complete. -/
def KeepsEdges (partOf : ℤ → ℤ) (_ : EdgeRun) (a : Outcomes × AddEdgesRequest) : Prop :=
  a.2.Mirrored partOf ∧ a.2.Complete a.1

end EdgeRun

section Stored

variable {c : ℤ → ℤ → Option Schema} {partOf : ℤ → ℤ} {s : EdgeRun}

/-- The records of edges that are read with a positive type: not those for the
destinations, whose type is the negated one. -/
theorem exists_allEdgeWrites_iff (ht : 0 < t) :
    (∃ w ∈ allEdgeWrites sp xs, w.key = ⟨space, t, [p, v, t, r, d]⟩) ↔
      ∃ x ∈ xs, sp = space ∧ x.1.edge.key = ⟨v, t, r, d⟩ ∧ toInt16 x.1.part = p := by
  constructor
  · rintro ⟨w, hw, hk⟩
    simp only [allEdgeWrites, vid2EdgeWrites, edgeWrites, mem_append, mem_map, mem_flatMap] at hw
    obtain ⟨q, -, rfl⟩ | ⟨x, hx, hw⟩ := hw
    · simp [vid2EdgeRecord, vid2EdgeKey] at hk
    obtain rfl | rfl := mem_pair.mp hw
    · simp only [Record.key_put, outEdgeRecord, edgeKey, Key.mk.injEq, cons.injEq] at hk
      obtain ⟨hsp, -, hp, hv, hty, hr, hd, -⟩ := hk
      exact ⟨x, hx, hsp, by rw [← hv, ← hty, ← hr, ← hd], hp⟩
    · simp only [Record.key_put, inEdgeRecord, edgeKey, Key.mk.injEq, cons.injEq] at hk
      omega
  · rintro ⟨x, hx, rfl, hkey, rfl⟩
    refine ⟨(outEdgeRecord sp x).put, mem_append_right _ (mem_flatMap.mpr
      ⟨x, hx, mem_cons_self⟩), ?_⟩
    simp [outEdgeRecord, edgeKey, hkey]

/-- **What is read with a positive type is what was inserted.** -/
structure EdgesStored (partOf : ℤ → ℤ) (s : EdgeRun) : Prop where
  out : ∀ space t p v r d, 0 < t → ((⟨space, t, [p, v, t, r, d]⟩ : Key) ∈ s.server.store ↔
    p = toInt16 (partOf v) ∧ (space, (⟨v, t, r, d⟩ : EdgeKey)) ∈ s.graph)

theorem EdgesStored.step {a : Outcomes × AddEdgesRequest} (h : EdgesStored partOf s)
    (hok : s.KeepsEdges partOf a) (hstep : s.step c a = some s') : EdgesStored partOf s' := by
  obtain ⟨o, req⟩ := a
  rw [EdgeRun.step] at hstep
  split at hstep
  case isFalse => cases hstep
  rename_i hans
  cases hstep
  obtain ⟨xs, hxs, hmem⟩ := mem_futureAddEdges hok.1 hok.2 hans
  have hfst : xs.map Prod.fst = req.stored := Tables.map_fst_decodeAll hxs
  refine ⟨fun space t p v r d ht => ?_⟩
  rw [hmem, h.out space t p v r d ht, exists_allEdgeWrites_iff ht,
    Write.mem_applyAll (by simp [EdgeRun.graphWrites]), and_or_left]
  refine or_congr_right ?_
  constructor
  · rintro ⟨x, hx, rfl, hkey, rfl⟩
    have hx' : x.1 ∈ req.stored := hfst ▸ mem_map_of_mem hx
    have hpart := (hok.1.2 x.1 (mem_filter.mp hx').1).2.1
    rw [hkey] at hpart
    exact ⟨by rw [hpart], _, mem_map.mpr ⟨x.1, hx', rfl⟩, by rw [Write.key_put, hkey]⟩
  rintro ⟨rfl, w, hw, hkey⟩
  obtain ⟨x, hx, rfl⟩ := mem_map.mp hw
  obtain ⟨hsp, hek⟩ := Prod.mk.inj hkey
  have hpart := (hok.1.2 x (mem_filter.mp hx).1).2.1
  rw [hek] at hpart
  rw [← hfst] at hx
  obtain ⟨y, hy, rfl⟩ := mem_map.mp hx
  exact ⟨y, hy, hsp, hek, by rw [hpart]⟩

end Stored

/-! ### Reading -/

section Reading

variable {c : ℤ → ℤ → Option Schema} {partOf : ℤ → ℤ} {o : ScanOutcomes} {s : EdgeRun}
  {store : Store} {space : ℤ}

/-- The key of the record that is read for an edge. -/
def outKey (partOf : ℤ → ℤ) (k : ℤ × EdgeKey) : Key :=
  edgeKey k.1 k.2.edgeType (partOf k.2.src) k.2.src k.2.edgeType k.2.ranking k.2.dst

/-- **A scan for a positive type finds the edges at the vertex.** -/
theorem EdgesStored.scan (h : EdgesStored partOf s) (ht : 0 < t) (space v : ℤ) :
    (scanEdges s.server.store space (partOf v) v t).Perm
      ((s.graph.incident space v t).map IdAndProp.dst) := by
  have hperm : (s.server.store.keys.filter (isEdgeAt space (partOf v) v t)).Perm
      ((s.graph.keys.filter (isIncident space v t)).map (outKey partOf)) := by
    refine Write.keys_filter_perm (fun k k' _ _ hkk => ?_) fun k => ?_
    · simp only [outKey, edgeKey] at hkk
      obtain ⟨sp, ⟨a, b, d, e⟩⟩ := k
      simp_all
    constructor
    · rintro ⟨hmem, hk⟩
      obtain ⟨r, d, rfl⟩ := isEdgeAt_iff.mp hk
      exact ⟨(space, ⟨v, t, r, d⟩), rfl, ((h.out _ _ _ v r d ht).mp hmem).2,
        by simp [isIncident, ht.le]⟩
    · rintro ⟨⟨sp, ⟨a, b, r, d⟩⟩, rfl, hmem, hk⟩
      simp only [isIncident, ht.le, if_true, Bool.and_eq_true, decide_eq_true_eq] at hk
      obtain ⟨rfl, rfl, rfl⟩ := hk
      exact ⟨(h.out sp b _ a r d ht).mpr ⟨rfl, hmem⟩, by simp [isEdgeAt, outKey, edgeKey]⟩
  rw [Graph.incident, map_map]
  refine (hperm.map _).trans (List.Perm.of_eq ?_)
  rw [AList.keys, keys, filter_map, map_map, map_map]
  refine map_congr_left fun e _ => ?_
  simp [outKey, edgeKey, neighbour, ht.le]

end Reading

/-! ### Two answers -/

/-- Every call of a request for edges succeeds. -/
def ScanOutcomes.allOk : ScanOutcomes := ⟨true, fun _ => .ok, fun _ => .ok⟩

end K2Graph.Storage
