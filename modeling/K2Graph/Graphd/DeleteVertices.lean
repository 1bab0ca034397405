import K2Graph.Lib.Except
import K2Graph.Raft.Types
import K2Graph.Storaged.Keys

/-!
# DELETE VERTEX

The executor asks for the edges of the vertices, deletes both records of each edge it is told
of, and then the vertices.  Each of the three steps goes to the leaders of the parts, and
`collectResponse` puts their answers together.  A leader that has changed, or a part that is
not found, makes the answer incomplete but is not among the failed parts, and the first step
gives up for a failed part only: it goes on without the edges of those vertices.

The checks before the first request are left out.  The table of leaders is an argument of each
step, since other requests change it too, and the answers come in the order of the requests.

## Main results

* `completeness_eq_iff` — when an answer is complete.
* `exists_found` — the keys that are found.
* `noDangling_iff` — when success leaves nothing behind.
-/

namespace K2Graph.Graphd.DeleteVertices

open List

open Raft (HostAddr)
open Storaged (EdgeKey)

/-! ### One request to every leader -/

/-- The codes of `cpp2::ErrorCode`, as far as the client tells them apart. -/
inductive StorageCode
  | rpcFailure
  | leaderChanged
  | partNotFound
  | spaceNotFound
  | other (code : ℤ)

/-- For these codes the client forgets the leader, the others go to the failed parts. -/
def StorageCode.aboutLeader : StorageCode → Bool
  | .leaderChanged | .partNotFound | .spaceNotFound => true
  | .rpcFailure | .other _ => false

abbrev FailedCodes := List (Int32 × StorageCode)

/-- `StorageRpcResponse`; of two entries of a part in `failedParts` the first counts. -/
structure RpcResponse (ρ : Type) where
  totalReqsSent : ℕ
  failedReqs : ℕ
  failedParts : FailedCodes
  responses : List ρ

/-- A request: the parts it is for, and the answer to it, `none` for an exception. -/
abbrev Request (ρ : Type) := List Int32 × Option (FailedCodes × ρ)

variable {ρ α : Type}

/-- `completeness`, a percentage. -/
def RpcResponse.completeness (r : RpcResponse ρ) : ℕ :=
  if r.totalReqsSent = 0 then 0
  else (r.totalReqsSent - r.failedReqs) * 100 / r.totalReqsSent

def Request.failed : Request ρ → Bool
  | (_, none) => true
  | (_, some (codes, _)) => !codes.isEmpty

def Request.failedParts : Request ρ → FailedCodes
  | (parts, none) => parts.map fun part => (part, .rpcFailure)
  | (_, some (codes, _)) => codes.filter fun code => !code.2.aboutLeader

/-- What the callbacks of `collectResponse` put together. -/
def collectResponse (requests : List (Request ρ)) : RpcResponse ρ where
  totalReqsSent := requests.length
  failedReqs := requests.countP Request.failed
  failedParts := requests.flatMap Request.failedParts
  responses := requests.filterMap fun q => q.2.map Prod.snd

theorem completeness_eq_iff (requests : List (Request ρ)) :
    (collectResponse requests).completeness = 100 ↔
      requests ≠ [] ∧ ∀ q ∈ requests, q.failed = false := by
  have hzero : (∀ q ∈ requests, q.failed = false) ↔ requests.countP Request.failed = 0 := by
    simp
  rw [RpcResponse.completeness, collectResponse, hzero, ← length_pos_iff]
  dsimp only
  split
  · omega
  · rw [Nat.div_eq_iff (by omega)]
    omega

/-- What the client knows and meets when it sends its requests. -/
structure Round where
  /-- Whether `partsNum` and `getPartMeta` find what is asked for. -/
  known : Bool
  leader : Int32 → HostAddr
  /-- The failed codes that a host answers with, `none` for an exception. -/
  answer : HostAddr → Option FailedCodes

variable (round : Round) (partOf : α → Int32)

/-- `clusterIdsToHosts`: the ids by the leaders of their parts. -/
def Round.clusters (ids : List α) : List (HostAddr × List α) :=
  (ids.map fun id => round.leader (partOf id)).dedup.map fun host =>
    (host, ids.filter fun id => round.leader (partOf id) = host)

variable (reply : FailedCodes → List α → ρ)

/-- The request to each leader, with what the host returns for the ids. -/
def Round.requests (ids : List α) : List (Request ρ) :=
  (round.clusters partOf ids).map fun c =>
    (c.2.map partOf, (round.answer c.1).map fun codes => (codes, reply codes c.2))

/-- One request to every leader, if they are known. -/
def Round.send (ids : List α) : Option (RpcResponse ρ) :=
  if round.known then some (collectResponse (round.requests partOf reply ids)) else none

/-- The leader of a part has answered and does not count it among the failed ones. -/
def Round.serves (part : Int32) : Bool :=
  (round.answer (round.leader part)).any fun codes => part ∉ codes.map Prod.fst

variable {round : Round} {partOf : α → Int32} {reply : FailedCodes → List α → ρ}

theorem Round.mem_requests : q ∈ round.requests partOf reply ids ↔
      ∃ id ∈ ids, q =
        let c := ids.filter fun i => round.leader (partOf i) = round.leader (partOf id)
        (c.map partOf,
          (round.answer (round.leader (partOf id))).map fun codes => (codes, reply codes c)) := by
  simp only [Round.requests, Round.clusters, mem_map, mem_dedup]
  constructor
  · rintro ⟨_, ⟨_, ⟨id, hid, rfl⟩, rfl⟩, rfl⟩
    exact ⟨id, hid, rfl⟩
  · rintro ⟨id, hid, rfl⟩
    exact ⟨_, ⟨_, ⟨id, hid, rfl⟩, rfl⟩, rfl⟩

theorem Round.serves_of_completeness
    (h : (collectResponse (round.requests partOf reply ids)).completeness = 100) :
    ∀ id ∈ ids, round.serves (partOf id) = true := by
  intro id hid
  have hq := ((completeness_eq_iff _).mp h).2 _ (Round.mem_requests.mpr ⟨id, hid, rfl⟩)
  rw [Round.serves]
  cases hanswer : round.answer (round.leader (partOf id)) with
  | none => simp [hanswer, Request.failed] at hq
  | some codes =>
    simp only [hanswer, Option.map_some, Request.failed, Bool.not_eq_false', List.isEmpty_iff] at hq
    simp [hq]

theorem Round.mem_responses : resp ∈ (collectResponse (round.requests partOf reply ids)).responses ↔
      ∃ id ∈ ids, ∃ codes, round.answer (round.leader (partOf id)) = some codes ∧ resp =
        reply codes (ids.filter fun i => round.leader (partOf i) = round.leader (partOf id)) := by
  rw [collectResponse, mem_filterMap]
  constructor
  · rintro ⟨q, hq, hresp⟩
    obtain ⟨id, hid, rfl⟩ := Round.mem_requests.mp hq
    obtain ⟨_, h, rfl⟩ := Option.map_eq_some_iff.mp hresp
    obtain ⟨codes, hcodes, rfl⟩ := Option.map_eq_some_iff.mp h
    exact ⟨id, hid, codes, hcodes, rfl⟩
  · rintro ⟨id, hid, codes, hcodes, rfl⟩
    refine ⟨_, Round.mem_requests.mpr ⟨id, hid, rfl⟩, ?_⟩
    rw [hcodes]
    rfl

/-! ### The three steps -/

/-- The records of a space: those of the edges, and those of the vertices by their id. -/
structure Records where
  edges : List EdgeKey
  vertices : List Int64

/-- A `QueryResponse`: the edge types of its schema, and for each vertex and edge type the edges
with their destination and rank, `none` for a rank that cannot be read. -/
structure QueryResponse where
  edgeSchema : List Int32
  edgeData : List (Int64 × Int32 × List (Int64 × Option Int64))

/-- How the sentence fails. -/
inductive DeleteError
  /-- "Delete edge not complete, completeness: .." -/
  | notComplete (completeness : ℕ)
  /-- "Can't find edge type .." -/
  | edgeType (type : Int32)
  /-- "Can't get reader! ..", "Can't get rank! .." -/
  | rank (type : Int32)
  /-- "Internal error" -/
  | internal

/-- The other record of an edge. -/
def mirror (e : EdgeKey) : EdgeKey := ⟨e.dst, -e.edgeType, e.ranking, e.src⟩

@[simp] theorem mirror_mirror (e : EdgeKey) : mirror (mirror e) = e := by
  simp [mirror]

/-- What the host returns of the vertices that it reads. -/
def getBound (s : Records) (edgeTypes : List Int32) (vids : List Int64) : QueryResponse where
  edgeSchema := edgeTypes
  edgeData := (vids ×ˢ edgeTypes).map fun x =>
    (x.1, x.2, (s.edges.filter fun e => e.src = x.1 ∧ e.edgeType = x.2).map fun e =>
      (e.dst, some e.ranking))

/-- The keys that the executor makes of a response: both records of each edge. -/
def edgesOf (resp : QueryResponse) : Except DeleteError (List EdgeKey) :=
  if resp.edgeSchema.isEmpty then .ok []
  else do
    let found ← resp.edgeData.mapM fun (src, type, edges) =>
      if type ∈ resp.edgeSchema then do
        let found ← edges.mapM fun (dst, rank) =>
          match rank with
          | none => .error (.rank type)
          | some rank => .ok [⟨src, type, rank, dst⟩, mirror ⟨src, type, rank, dst⟩]
        return found.flatten
      else .error (.edgeType type)
    return found.flatten

/-- What a sentence meets on its way. -/
structure Env where
  partOf : Int64 → Int32
  query : Round
  edges : Round
  vertices : Round
  /-- The vertices that a host returns though it counts their part among the failed ones. -/
  returned : Int64 → Bool

variable (env : Env)

/-- A vertex that the leader returns when it is asked for it. -/
def Env.returns (codes : FailedCodes) (v : Int64) : Bool :=
  env.partOf v ∉ codes.map Prod.fst || env.returned v

/-- The answer of a leader to the query. -/
def Env.neighbors (s : Records) (edgeTypes : List Int32) (codes : FailedCodes)
    (vids : List Int64) : QueryResponse :=
  getBound s edgeTypes (vids.filter (env.returns codes))

def deleteVertices (vids : List Int64) (s : Records) : Except DeleteError Unit × Records :=
  match env.vertices.send env.partOf (fun _ _ => ()) vids with
  | none => (.error .internal, s)
  | some resp =>
      (if resp.completeness ≠ 100 then .error .internal else .ok (),
        { s with vertices := s.vertices.filter fun v =>
            ¬(v ∈ vids ∧ env.vertices.serves (env.partOf v)) })

def deleteEdges (edges : List EdgeKey) (vids : List Int64) (s : Records) :
    Except DeleteError Unit × Records :=
  match env.edges.send (fun e : EdgeKey => env.partOf e.src) (fun _ _ => ()) edges with
  | none => (.error .internal, s)
  | some resp =>
      let s := { s with edges := s.edges.filter fun e =>
        ¬(e ∈ edges ∧ env.edges.serves (env.partOf e.src)) }
      if resp.completeness ≠ 100 then (.error .internal, s) else deleteVertices env vids s

/-- `execute`, with the edge types of the space. -/
def execute (types : List Int32) (vids : List Int64) (s : Records) :
    Except DeleteError Unit × Records :=
  let edgeTypes := types.flatMap fun type => [type, -type]
  match env.query.send env.partOf (env.neighbors s edgeTypes) vids with
  | none => (.error .internal, s)
  | some resp =>
      if resp.completeness ≠ 100 ∧ resp.failedParts ≠ [] then
        (.error (.notComplete resp.completeness), s)
      else
        match resp.responses.mapM edgesOf with
        | .error err => (.error err, s)
        | .ok found =>
            if found.flatten.isEmpty then deleteVertices env vids s
            else deleteEdges env found.flatten vids s

/-! ### What is left behind -/

/-- A graph: its edge types, the edges, each of one of these types, and the vertices. -/
structure Graph where
  types : List Int32
  edges : List EdgeKey
  vertices : List Int64
  typed : ∀ e ∈ edges, e.edgeType ∈ types

/-- An edge has a record under its source and one under its destination. -/
def Graph.records (g : Graph) : Records := ⟨g.edges ++ g.edges.map mirror, g.vertices⟩

/-- Nothing is left of the vertices and of the edges from and to them. -/
def NoDangling (g : Graph) (vids : List Int64) (s : Records) : Prop :=
  (∀ e ∈ g.edges, e.src ∈ vids ∨ e.dst ∈ vids → e ∉ s.edges ∧ mirror e ∉ s.edges) ∧
    ∀ v ∈ vids, v ∉ s.vertices

/-- The edges of the vertex have come back with the answer to the query. -/
def Env.read (v : Int64) : Prop :=
  ∃ codes, env.query.answer (env.query.leader (env.partOf v)) = some codes ∧
    env.returns codes v = true

variable {env} {types : List Int32} {vids : List Int64}

theorem exists_edgesOf_getBound (s : Records) (edgeTypes : List Int32) (vids : List Int64) :
    ∃ keys, edgesOf (getBound s edgeTypes vids) = .ok keys ∧ ∀ k, k ∈ keys ↔
      ∃ e ∈ s.edges, e.src ∈ vids ∧ e.edgeType ∈ edgeTypes ∧ (k = e ∨ k = mirror e) := by
  refine ⟨(vids ×ˢ edgeTypes).flatMap fun x =>
    (s.edges.filter fun e => e.src = x.1 ∧ e.edgeType = x.2).flatMap fun e =>
      [⟨x.1, x.2, e.ranking, e.dst⟩, mirror ⟨x.1, x.2, e.ranking, e.dst⟩], ?_, fun k => ?_⟩
  · rw [edgesOf]
    split_ifs with hempty
    · cases isEmpty_iff.mp hempty
      simp
    · refine flatten_mapM_map fun x hx => ?_
      exact (if_pos (mem_product.mp hx).2).trans (flatten_mapM_map fun e _ => rfl)
  · simp only [mem_flatMap, mem_filter, decide_eq_true_eq, mem_cons, not_mem_nil, or_false]
    constructor
    · rintro ⟨⟨_, _⟩, hx, e, ⟨he, rfl, rfl⟩, hk⟩
      obtain ⟨hv, ht⟩ := mem_product.mp hx
      exact ⟨e, he, hv, ht, hk⟩
    · rintro ⟨e, he, hv, ht, hk⟩
      exact ⟨(e.src, e.edgeType), mem_product.mpr ⟨hv, ht⟩, e, ⟨he, rfl, rfl⟩, hk⟩

/-- The keys that the executor finds: of the edges of the vertices that were returned. -/
theorem exists_found (env : Env) (vids : List Int64) (s : Records) (edgeTypes : List Int32) :
    ∃ found, (collectResponse (env.query.requests env.partOf (env.neighbors s edgeTypes)
        vids)).responses.mapM edgesOf = .ok found ∧
      ∀ k, k ∈ found.flatten ↔ ∃ e ∈ s.edges, (e.src ∈ vids ∧ env.read e.src) ∧
        e.edgeType ∈ edgeTypes ∧ (k = e ∨ k = mirror e) := by
  obtain ⟨found, hfound⟩ := (exists_mapM_eq_ok_iff edgesOf (collectResponse
      (env.query.requests env.partOf (env.neighbors s edgeTypes) vids)).responses).mpr
    fun resp hresp => by
      obtain ⟨id, -, codes, -, rfl⟩ := Round.mem_responses.mp hresp
      obtain ⟨keys, hkeys, -⟩ := exists_edgesOf_getBound s edgeTypes _
      exact ⟨keys, hkeys⟩
  refine ⟨found, hfound, fun k => ?_⟩
  rw [mem_flatten_of_mapM hfound]
  constructor
  · rintro ⟨resp, hresp, keys, hok, hk⟩
    obtain ⟨id, -, codes, hcodes, rfl⟩ := Round.mem_responses.mp hresp
    obtain ⟨keys', hok', hkeys⟩ := exists_edgesOf_getBound s edgeTypes _
    cases hok.symm.trans hok'
    obtain ⟨e, he, hsrc, ht, hk⟩ := (hkeys k).mp hk
    simp only [mem_filter, decide_eq_true_eq] at hsrc
    exact ⟨e, he, ⟨hsrc.1.1, codes, by rw [hsrc.1.2, hcodes], hsrc.2⟩, ht, hk⟩
  · rintro ⟨e, he, ⟨hsrc, codes, hcodes, hret⟩, ht, hk⟩
    obtain ⟨keys, hok, hkeys⟩ := exists_edgesOf_getBound s edgeTypes
      ((vids.filter fun i => env.query.leader (env.partOf i) =
        env.query.leader (env.partOf e.src)).filter (env.returns codes))
    refine ⟨_, Round.mem_responses.mpr ⟨e.src, hsrc, codes, hcodes, rfl⟩, keys, hok, ?_⟩
    exact (hkeys k).mpr ⟨e, he, by simp [hsrc, hret], ht, hk⟩

theorem deleteVertices_snd (h : (deleteVertices env vids s).1 = .ok ()) :
    (deleteVertices env vids s).2 = { s with vertices := s.vertices.filter (· ∉ vids) } := by
  unfold deleteVertices Round.send at h ⊢
  split_ifs at h ⊢
  dsimp only at h ⊢
  split_ifs at h with hc
  have hserves := Round.serves_of_completeness (not_not.mp hc)
  simp +contextual [hserves]

theorem deleteEdges_snd (h : (deleteEdges env edges vids s).1 = .ok ()) :
    (deleteEdges env edges vids s).2 =
      ⟨s.edges.filter (· ∉ edges), s.vertices.filter (· ∉ vids)⟩ := by
  unfold deleteEdges Round.send at h ⊢
  split_ifs at h ⊢
  dsimp only at h ⊢
  split_ifs at h ⊢ with hc
  rw [deleteVertices_snd h]
  have hserves := Round.serves_of_completeness (not_not.mp hc)
  simp +contextual [hserves]

theorem exists_deleted (h : (execute env types vids s).1 = .ok ()) :
    ∃ keys : List EdgeKey, (execute env types vids s).2 =
        ⟨s.edges.filter (· ∉ keys), s.vertices.filter (· ∉ vids)⟩ ∧
      ∀ k, k ∈ keys ↔ ∃ e ∈ s.edges, (e.src ∈ vids ∧ env.read e.src) ∧
        e.edgeType ∈ types.flatMap (fun type => [type, -type]) ∧ (k = e ∨ k = mirror e) := by
  obtain ⟨found, hfound, hkeys⟩ :=
    exists_found env vids s (types.flatMap fun type => [type, -type])
  refine ⟨found.flatten, ?_, hkeys⟩
  unfold execute Round.send at h ⊢
  split_ifs at h ⊢
  dsimp only at h ⊢
  split_ifs at h ⊢
  rw [hfound] at h ⊢
  dsimp only at h ⊢
  split_ifs at h ⊢ with hempty
  · rw [deleteVertices_snd h, isEmpty_iff.mp hempty]
    simp
  · exact deleteEdges_snd h

/-- One of the deleted ends of the edge has been read. -/
def Env.Finds (env : Env) (vids : List Int64) (e : EdgeKey) : Prop :=
  (e.src ∈ vids ∧ env.read e.src) ∨ (e.dst ∈ vids ∧ env.read e.dst)

theorem exists_record_iff {g : Graph} (he : e ∈ g.edges) (hk : k = e ∨ k = mirror e) :
    (∃ f ∈ g.records.edges, (f.src ∈ vids ∧ env.read f.src) ∧
        f.edgeType ∈ g.types.flatMap (fun type => [type, -type]) ∧ (k = f ∨ k = mirror f)) ↔
      env.Finds vids e := by
  constructor
  · rintro ⟨f, -, hread, -, hf⟩
    have hcases : f = e ∨ f = mirror e := by
      rcases hk with rfl | rfl <;> rcases hf with h | h
      · exact .inl h.symm
      · exact .inr (by rw [h, mirror_mirror])
      · exact .inr h.symm
      · exact .inl (by rw [← mirror_mirror f, ← h, mirror_mirror])
    rcases hcases with rfl | rfl
    · exact .inl hread
    · exact .inr hread
  · have hmem : ∀ t ∈ [e.edgeType, -e.edgeType], t ∈ g.types.flatMap fun type => [type, -type] :=
      fun t ht => mem_flatMap.mpr ⟨_, g.typed e he, ht⟩
    rintro (hread | hread)
    · refine ⟨e, mem_append_left _ he, hread, hmem _ (by simp), hk⟩
    refine ⟨mirror e, mem_append_right _ (mem_map_of_mem he), hread, hmem _ (by simp [mirror]), ?_⟩
    rw [mirror_mirror]
    exact hk.symm

/-- **When nothing is left.**  A sentence that succeeds leaves nothing of the vertices and their
edges if and only if each of the edges was read at one of its ends. -/
theorem noDangling_iff (g : Graph) (env : Env) (vids : List Int64) :
    ((execute env g.types vids g.records).1 = .ok () →
        NoDangling g vids (execute env g.types vids g.records).2) ↔
      ((execute env g.types vids g.records).1 = .ok () →
        ∀ e ∈ g.edges, e.src ∈ vids ∨ e.dst ∈ vids → env.Finds vids e) := by
  refine imp_congr_right fun hok => ?_
  obtain ⟨keys, hdeleted, hkeys⟩ := exists_deleted hok
  rw [hdeleted, NoDangling, and_iff_left (by simp +contextual)]
  refine forall₂_congr fun e he => imp_congr_right fun _ => ?_
  have hforward : e ∈ g.records.edges := mem_append_left _ he
  have hmirror : mirror e ∈ g.records.edges :=
    mem_append_right _ (mem_map_of_mem he)
  have hfound : ∀ k, k = e ∨ k = mirror e → (k ∈ keys ↔ env.Finds vids e) :=
    fun k hk => (hkeys k).trans (exists_record_iff he hk)
  simp [hforward, hmirror, hfound e (.inl rfl), hfound (mirror e) (.inr rfl)]

/-- A leader that has changed: the answer to the query is incomplete, but no part has failed. -/
def leaderMoved : Env where
  partOf := fun _ => 1
  query := ⟨true, fun _ => (1, 1), fun _ => some [(1, .leaderChanged)]⟩
  edges := ⟨true, fun _ => (2, 2), fun _ => some []⟩
  vertices := ⟨true, fun _ => (2, 2), fun _ => some []⟩
  returned := fun _ => false

def oneEdge : Graph where
  types := [7]
  edges := [⟨1, 7, 0, 2⟩]
  vertices := [1, 2]
  typed := by decide

/-- The sentence succeeds, and the edge of the deleted vertex is still there. -/
theorem exists_dangling :
    (execute leaderMoved oneEdge.types [1] oneEdge.records).1 = .ok () ∧
      ¬NoDangling oneEdge [1] (execute leaderMoved oneEdge.types [1] oneEdge.records).2 :=
  ⟨rfl, fun h => (h.1 _ mem_cons_self (.inl mem_cons_self)).1 (by decide)⟩

end K2Graph.Graphd.DeleteVertices
