import K2Graph.Lib.Run
import K2Graph.Meta.Handler

/-!
# The catalogue over a sequence of requests

The service is run with a list of what was created: an object is created by a request for a
name that is not there, when the answer is `SUCCEEDED`.  The catalogue is consistent if the
maps, the records in K2 and the answers hold exactly these objects, under ids that tell
them apart.

Requests for new names that are answered with `SUCCEEDED` keep it so.  A request for a name
that is there gets −1 for its id and goes on: a tag or an edge type gets an entry under −1
and is answered with `SUCCEEDED`, and the record of the tag's name is overwritten.

## Main results

* `Catalogue.consistent_of_reach` — **in every run of orderly requests the catalogue is
  consistent, every binding stays, and a name that is there is refused.**
* `Catalogue.not_consistent` — a tag that is created twice.
-/

namespace K2Graph.Meta

open List AList

open Storage (Outcome toInt32)

inductive Object where
  | space (id : ℤ) (name : String)
  | tag (space : ℤ) (item : SchemaItem)
  | edge (space : ℤ) (item : SchemaItem)

namespace Object

/-- The entry of `spaceIdNameMap_` for an object. -/
def spaceEntry : Object → Option (Σ _ : ℤ, String)
  | space id name => some ⟨id, name⟩
  | _ => none

/-- The entry of `SpaceSchemaNameIDMap`. -/
def nameEntry : Object → Option (Σ _ : ℤ × String, ℤ)
  | tag sp item => some ⟨(sp, item.name), item.id⟩
  | edge sp item => some ⟨(sp, item.name), item.id⟩
  | _ => none

/-- The entry of `SpaceTagMap`. -/
def tagEntry : Object → Option (Σ _ : ℤ × ℤ, SchemaItem)
  | tag sp item => some ⟨(sp, item.id), item⟩
  | _ => none

/-- The entry of `SpaceEdgeTypeMap`. -/
def edgeEntry : Object → Option (Σ _ : ℤ × ℤ, SchemaItem)
  | edge sp item => some ⟨(sp, item.id), item⟩
  | _ => none

def recordEntry : Object → Option (Σ _ : ℤ × String, ℤ)
  | tag sp item => some ⟨(sp, item.name), item.id⟩
  | _ => none

/-- The object has the name a request is for.  Tags and edge types of a space share their
names. -/
def hasName : Request → Object → Bool
  | .space _ req, space _ name => name = req.spaceName
  | .tag _ req, tag sp item => sp = req.spaceId && item.name = req.name
  | .tag _ req, edge sp item => sp = req.spaceId && item.name = req.name
  | .edge _ req, tag sp item => sp = req.spaceId && item.name = req.name
  | .edge _ req, edge sp item => sp = req.spaceId && item.name = req.name
  | _, _ => false

end Object

/-- What a request creates under an id. -/
def Request.object (id : ℤ) : Request → Object
  | space _ req => .space id req.spaceName
  | tag _ req => .tag req.spaceId (req.item id)
  | edge _ req => .edge req.spaceId (req.item id)

def Request.ifNotExists : Request → Bool
  | space _ req => req.ifNotExists
  | tag _ req => req.ifNotExists
  | edge _ req => req.ifNotExists

/-- The service, and what was created, oldest first. -/
structure Catalogue where
  server : Server
  created : List Object

namespace Catalogue

variable (s : Catalogue)

/-- An object with the name of the request was created. -/
def known (r : Request) : Bool := s.created.any (Object.hasName r)

/-- One request; there is no next state if the process has died. -/
def step (r : Request) : Option Catalogue :=
  match r.handle s.server with
  | (_, .crashed) => none
  | (server, .resp .succeeded (some id)) =>
    some ⟨server, if s.known r then s.created else s.created ++ [r.object id]⟩
  | (server, _) => some ⟨server, s.created⟩

def init : Catalogue := ⟨.empty, []⟩

/-- **The maps, the records and the answers hold exactly the objects created**, and ids tell
names apart. -/
structure Consistent (s : Catalogue) : Prop where
  spaces : ∀ id name, s.server.spaceIdNameMap.lookup id = some name ↔ .space id name ∈ s.created
  names : ∀ sp name id, s.server.spaceSchemaNameIDMap.lookup (sp, name) = some id ↔
    ∃ item : SchemaItem, item.name = name ∧ item.id = id ∧
      (.tag sp item ∈ s.created ∨ .edge sp item ∈ s.created)
  tags : ∀ sp id item, s.server.spaceTagMap.lookup (sp, id) = some item ↔
    item.id = id ∧ .tag sp item ∈ s.created
  edges : ∀ sp id item, s.server.spaceEdgeTypeMap.lookup (sp, id) = some item ↔
    item.id = id ∧ .edge sp item ∈ s.created
  tagIds : ∀ sp name id, s.server.k2.tagIds.lookup (sp, name) = some id ↔
    ∃ item : SchemaItem, item.name = name ∧ item.id = id ∧ .tag sp item ∈ s.created
  oneSpace : ∀ id id' name, .space id name ∈ s.created → .space id' name ∈ s.created → id = id'
  distinct : ∀ sp name name' id, s.server.spaceSchemaNameIDMap.lookup (sp, name) = some id →
    s.server.spaceSchemaNameIDMap.lookup (sp, name') = some id → name = name'
  listSpaces : (listSpaces s.server).Perm
    (s.created.filterMap fun | .space id name => some (id, name) | _ => none)
  listTags : ∀ sp, (listTags s.server sp).Perm
    (s.created.filterMap fun | .tag sp' item => if sp' = sp then some item else none | _ => none)
  listEdges : ∀ sp, (listEdges s.server sp).Perm
    (s.created.filterMap fun | .edge sp' item => if sp' = sp then some item else none | _ => none)

/-- **A request leaves every binding as it is; if its name is there, the answer says so and
nothing changes**, neither in the maps nor in K2. -/
structure StepOk (s : Catalogue) (r : Request) : Prop where
  spaces : ∀ id name, s.server.spaceIdNameMap.lookup id = some name →
    (r.handle s.server).1.spaceIdNameMap.lookup id = some name
  names : ∀ k id, s.server.spaceSchemaNameIDMap.lookup k = some id →
    (r.handle s.server).1.spaceSchemaNameIDMap.lookup k = some id
  existed : s.known r = true → (r.handle s.server).1 = s.server ∧
    ∃ id, (r.handle s.server).2 = .resp .existed id ∨
      (r.handle s.server).2 = .resp .succeeded id ∧ r.ifNotExists = true

/-- A request that keeps the catalogue consistent: its name is new, the calls that decide
about the answer succeed, and the next id is an `int32_t`.  A space may also be there
already if no call of K2 succeeds, none throws before the schemas, and all throw there. -/
def Orderly : Request → Prop
  | .space o req => name2Eps req.spaceName ≠ [] ∧
    if s.server.hasSpace req.spaceName then
      o.collection = .failed ∧ ∀ p ∈ o.schemas, p.2 = .threw
    else
      o.collection ≠ .threw ∧ (∀ p ∈ o.schemas, p.2 ≠ .failed) ∧
        s.server.spaceIdNameMap.keys.length + 1 < 2 ^ 31
  | .tag o req => s.server.hasSchema req.spaceId req.name = false ∧
    (o.beginTxn = true ∧ o.write = .ok ∧ o.endTxn = .ok) ∧
    s.server.spaceSchemaNameIDMap.keys.length + 3 < 2 ^ 31
  | .edge _ req => s.server.hasSchema req.spaceId req.name = false ∧
    s.server.spaceSchemaNameIDMap.keys.length + 3 < 2 ^ 31

/-! ### The handlers on orderly requests -/

variable {name : String} {req : CreateSchemaReq}

section Handlers

variable {s : Server}

theorem schemaId_of_new (hnew : s.hasSchema space name = false)
    (hlen : s.spaceSchemaNameIDMap.keys.length + 3 < 2 ^ 31) :
    s.schemaId space name = s.spaceSchemaNameIDMap.keys.length + 3 := by
  rw [Server.schemaId, hnew, if_neg (by simp),
    Storage.toInt32_of_isInt32 (i := s.spaceSchemaNameIDMap.keys.length) ⟨by omega, by omega⟩,
    Storage.toInt32_of_isInt32 ⟨by omega, by omega⟩]

theorem createSpace_of_new {req : CreateSpaceReq} (heps : name2Eps req.spaceName ≠ [])
    (hnew : s.hasSpace req.spaceName = false) (hcol : o.collection ≠ .threw)
    (hnf : ∀ p ∈ o.schemas, p.2 ≠ .failed) (hlen : s.spaceIdNameMap.keys.length + 1 < 2 ^ 31) :
    ∃ k, k.tagIds = s.k2.tagIds ∧ createSpace o req s =
      ({ s with
          k2 := k
          spaceIdNameMap := s.spaceIdNameMap.insert
            (s.spaceIdNameMap.keys.length + 1) req.spaceName },
        .resp .succeeded (some (s.spaceIdNameMap.keys.length + 1))) := by
  have hid : toInt32 (s.spaceIdNameMap.keys.length + 1) = s.spaceIdNameMap.keys.length + 1 :=
    Storage.toInt32_of_isInt32 ⟨by omega, by omega⟩
  have hsys : ∀ s' : Server, ∃ k, k.tagIds = s'.k2.tagIds ∧
      createSystem o (s.spaceIdNameMap.keys.length + 1) .succeeded s' =
        ({ s' with k2 := k }, .resp .succeeded (some (s.spaceIdNameMap.keys.length + 1))) := by
    intro s'
    obtain ⟨k, hk, heq⟩ := createSchemas_ok (s.spaceIdNameMap.keys.length + 1) .succeeded s'.k2 hnf
    exact ⟨k, hk, by rw [createSystem, heq, ite_self]⟩
  rw [createSpace]
  simp only [hnew, hid]
  split
  case h_1 hthrew => exact absurd hthrew hcol
  case h_2 hnil _ => exact absurd hnil heps
  case h_3 => exact hsys { s with
      spaceIdNameMap := s.spaceIdNameMap.insert (s.spaceIdNameMap.keys.length + 1) req.spaceName }
  case h_4 => exact hsys { s with
      spaceIdNameMap := s.spaceIdNameMap.insert (s.spaceIdNameMap.keys.length + 1) req.spaceName
      k2 := { s.k2 with collections := (s.spaceIdNameMap.keys.length + 1) :: s.k2.collections } }

theorem createTag_of_new (hnew : s.hasSchema req.spaceId req.name = false)
    (hsucc : o.beginTxn = true ∧ o.write = .ok ∧ o.endTxn = .ok) : ∃ sch, createTag o req s =
      ({ s with
          spaceSchemaNameIDMap := s.spaceSchemaNameIDMap.insert (req.spaceId, req.name)
            (s.schemaId req.spaceId req.name)
          spaceTagMap := s.spaceTagMap.insert (req.spaceId, s.schemaId req.spaceId req.name)
            (req.item (s.schemaId req.spaceId req.name))
          k2 := ⟨s.k2.collections, sch, s.k2.tagIds.insert (req.spaceId, req.name)
            (s.schemaId req.spaceId req.name)⟩ },
        .resp .succeeded (some (s.schemaId req.spaceId req.name))) := by
  obtain ⟨hb, hw, he⟩ := hsucc
  have hwritten : o.written = true := by simp [TagOutcomes.written, hb, hw]
  have hended : o.ended = .ok := by simp [TagOutcomes.ended, he]
  simp only [createTag, hended, hwritten, if_true, Server.bindName, hnew, Bool.false_eq_true,
    if_false]
  split <;> exact ⟨_, rfl⟩

theorem createEdge_of_new (hnew : s.hasSchema req.spaceId req.name = false) :
    ∃ sch, createEdge o req s =
      ({ s with
          spaceSchemaNameIDMap := s.spaceSchemaNameIDMap.insert (req.spaceId, req.name)
            (s.schemaId req.spaceId req.name)
          spaceEdgeTypeMap := s.spaceEdgeTypeMap.insert (req.spaceId,
            s.schemaId req.spaceId req.name)
            (req.item (s.schemaId req.spaceId req.name))
          k2 := ⟨s.k2.collections, sch, s.k2.tagIds⟩ },
        .resp .succeeded (some (s.schemaId req.spaceId req.name))) := by
  simp only [createEdge, Server.bindName, hnew, Bool.false_eq_true, if_false]
  split <;> exact ⟨_, rfl⟩

end Handlers

/-! ### The invariant -/

variable {κ ν : Type} {f : Object → Option (Σ _ : κ, ν)} {l : List Object} {k : κ} {id : ℤ}
  {m : AList fun _ : κ => ν}

section

variable (h : m.entries.Perm (l.filterMap f))
include h

theorem perm_insert [DecidableEq κ] (hk : k ∉ m) (hx : f x = some ⟨k, v⟩) :
    (m.insert k v).entries.Perm ((l ++ [x]).filterMap f) := by
  rw [entries_insert_of_notMem hk, filterMap_append]
  simp only [filterMap_cons, hx]
  exact (h.cons _).trans (perm_append_singleton _ _).symm

theorem perm_append (hx : f x = none) : m.entries.Perm ((l ++ [x]).filterMap f) := by
  simpa [hx] using h

theorem lookup_iff [DecidableEq κ] (k : κ) (v : ν) :
    m.lookup k = some v ↔ ∃ x ∈ l, f x = some ⟨k, v⟩ := by
  have hmem : m.lookup k = some v ↔ (⟨k, v⟩ : Σ _ : κ, ν) ∈ m.entries := mem_lookup_iff
  rw [hmem, h.mem_iff, mem_filterMap]

end

theorem lookup_insert_cases [DecidableEq κ] {k' : κ} {v' : ν}
    (h : (m.insert k v).lookup k' = some v') : k' = k ∧ v' = v ∨ m.lookup k' = some v' := by
  by_cases heq : k' = k
  · subst heq
    rw [lookup_insert] at h
    exact .inl ⟨rfl, (Option.some.inj h).symm⟩
  · rw [lookup_insert_ne heq] at h
    exact .inr h

theorem lookup_insert_of_notMem [DecidableEq κ] {k' : κ} {v' : ν} (hk : k ∉ m)
    (h : m.lookup k' = some v') : (m.insert k v).lookup k' = some v' := by
  have hne : k' ≠ k := by
    rintro rfl
    rw [lookup_eq_none.mpr hk] at h
    cases h
  rw [lookup_insert_ne hne, h]

theorem length_keys_insert [DecidableEq κ] (hk : k ∉ m) :
    (m.insert k v).keys.length = m.keys.length + 1 := by
  rw [AList.keys, entries_insert_of_notMem hk]
  rfl

/-- The maps have the entries of the objects created, and the ids are below the next one. -/
structure Inv (s : Catalogue) : Prop where
  spaces : s.server.spaceIdNameMap.entries.Perm (s.created.filterMap Object.spaceEntry)
  names : s.server.spaceSchemaNameIDMap.entries.Perm (s.created.filterMap Object.nameEntry)
  tags : s.server.spaceTagMap.entries.Perm (s.created.filterMap Object.tagEntry)
  edges : s.server.spaceEdgeTypeMap.entries.Perm (s.created.filterMap Object.edgeEntry)
  tagIds : s.server.k2.tagIds.entries.Perm (s.created.filterMap Object.recordEntry)
  spaceBound : ∀ id name, s.server.spaceIdNameMap.lookup id = some name →
    id ≤ s.server.spaceIdNameMap.keys.length
  schemaBound : ∀ k (id : ℤ), s.server.spaceSchemaNameIDMap.lookup k = some id →
    id < s.server.spaceSchemaNameIDMap.keys.length + 3
  oneSpace : ∀ id id' name, s.server.spaceIdNameMap.lookup id = some name →
    s.server.spaceIdNameMap.lookup id' = some name → id = id'
  distinct : ∀ k k' (id : ℤ), s.server.spaceSchemaNameIDMap.lookup k = some id →
    s.server.spaceSchemaNameIDMap.lookup k' = some id → k = k'

section Invariant

variable {s : Catalogue}

section

variable (h : Inv s)
include h

theorem Inv.lookup_space (id : ℤ) (name : String) :
    s.server.spaceIdNameMap.lookup id = some name ↔ .space id name ∈ s.created := by
  rw [lookup_iff h.spaces]
  constructor
  · rintro ⟨x, hx, hentry⟩
    cases x <;> cases hentry
    exact hx
  · exact fun hx => ⟨_, hx, rfl⟩

theorem Inv.lookup_name (sp : ℤ) (name : String) (id : ℤ) :
    s.server.spaceSchemaNameIDMap.lookup (sp, name) = some id ↔
      ∃ item : SchemaItem, item.name = name ∧ item.id = id ∧
        (.tag sp item ∈ s.created ∨ .edge sp item ∈ s.created) := by
  rw [lookup_iff h.names]
  constructor
  · rintro ⟨x, hx, hentry⟩
    cases x <;> cases hentry
    · exact ⟨_, rfl, rfl, .inl hx⟩
    · exact ⟨_, rfl, rfl, .inr hx⟩
  · rintro ⟨item, rfl, rfl, hx | hx⟩
    · exact ⟨_, hx, rfl⟩
    · exact ⟨_, hx, rfl⟩

theorem Inv.lookup_tag (sp id : ℤ) (item : SchemaItem) :
    s.server.spaceTagMap.lookup (sp, id) = some item ↔ item.id = id ∧ .tag sp item ∈ s.created := by
  rw [lookup_iff h.tags]
  constructor
  · rintro ⟨x, hx, hentry⟩
    cases x <;> cases hentry
    exact ⟨rfl, hx⟩
  · rintro ⟨rfl, hx⟩
    exact ⟨_, hx, rfl⟩

theorem Inv.lookup_edge (sp id : ℤ) (item : SchemaItem) :
    s.server.spaceEdgeTypeMap.lookup (sp, id) = some item ↔
      item.id = id ∧ .edge sp item ∈ s.created := by
  rw [lookup_iff h.edges]
  constructor
  · rintro ⟨x, hx, hentry⟩
    cases x <;> cases hentry
    exact ⟨rfl, hx⟩
  · rintro ⟨rfl, hx⟩
    exact ⟨_, hx, rfl⟩

theorem Inv.lookup_record (sp : ℤ) (name : String) (id : ℤ) :
    s.server.k2.tagIds.lookup (sp, name) = some id ↔
      ∃ item : SchemaItem, item.name = name ∧ item.id = id ∧ .tag sp item ∈ s.created := by
  rw [lookup_iff h.tagIds]
  constructor
  · rintro ⟨x, hx, hentry⟩
    cases x <;> cases hentry
    exact ⟨_, rfl, rfl, hx⟩
  · rintro ⟨item, rfl, rfl, hx⟩
    exact ⟨_, hx, rfl⟩

/-- **The invariant says that the catalogue is consistent.** -/
theorem Inv.consistent : s.Consistent where
  spaces := h.lookup_space
  names := h.lookup_name
  tags := h.lookup_tag
  edges := h.lookup_edge
  tagIds := h.lookup_record
  oneSpace id id' name hid hid' :=
    h.oneSpace id id' name ((h.lookup_space id name).mpr hid) ((h.lookup_space id' name).mpr hid')
  distinct sp name name' id hn hn' := congrArg Prod.snd (h.distinct (sp, name) (sp,
    name') id hn hn')
  listSpaces := by
    refine (h.spaces.map _).trans (List.Perm.of_eq ?_)
    rw [map_filterMap]
    refine filterMap_congr fun x _ => ?_
    cases x <;> rfl
  listTags sp := by
    refine ((h.tags.filter _).map _).trans (List.Perm.of_eq ?_)
    rw [filter_filterMap, map_filterMap]
    refine filterMap_congr fun x _ => ?_
    cases x with
    | tag sp' item => by_cases hsp : sp' = sp <;> simp [Object.tagEntry, hsp]
    | _ => rfl
  listEdges sp := by
    refine ((h.edges.filter _).map _).trans (List.Perm.of_eq ?_)
    rw [filter_filterMap, map_filterMap]
    refine filterMap_congr fun x _ => ?_
    cases x with
    | edge sp' item => by_cases hsp : sp' = sp <;> simp [Object.edgeEntry, hsp]
    | _ => rfl

theorem Inv.known_space (o : SpaceOutcomes) (req : CreateSpaceReq) :
    s.known (.space o req) = s.server.hasSpace req.spaceName := by
  rw [Bool.eq_iff_iff, Server.hasSpace_iff, known, any_eq_true]
  simp only [h.lookup_space]
  constructor
  · rintro ⟨x, hx, hname⟩
    cases x with
    | space id name =>
      obtain rfl : name = req.spaceName := of_decide_eq_true hname
      exact ⟨id, hx⟩
    | _ => cases hname
  · rintro ⟨id, hid⟩
    exact ⟨_, hid, by simp [Object.hasName]⟩

end

theorem Inv.any_name (h : Inv s) (req : CreateSchemaReq)
    (hr : (∃ o, r = .tag o req) ∨ ∃ o, r = .edge o req) :
    s.known r = s.server.hasSchema req.spaceId req.name := by
  have hedge (x : Object) : x.hasName r = x.hasName (.edge .ok req) := by
    obtain ⟨o, rfl⟩ | ⟨o, rfl⟩ := hr <;> cases x <;> rfl
  rw [Bool.eq_iff_iff, Server.hasSchema, Option.isSome_iff_exists, known, any_eq_true]
  simp only [h.lookup_name, hedge]
  constructor
  · rintro ⟨x, hx, hname⟩
    cases x with
    | space id name => cases hname
    | tag sp item =>
      simp only [Object.hasName, Bool.and_eq_true, decide_eq_true_eq] at hname
      obtain ⟨rfl, hn⟩ := hname
      exact ⟨item.id, item, hn, rfl, .inl hx⟩
    | edge sp item =>
      simp only [Object.hasName, Bool.and_eq_true, decide_eq_true_eq] at hname
      obtain ⟨rfl, hn⟩ := hname
      exact ⟨item.id, item, hn, rfl, .inr hx⟩
  · rintro ⟨_, item, hn, -, hx | hx⟩
    · exact ⟨_, hx, by simp [Object.hasName, hn]⟩
    · exact ⟨_, hx, by simp [Object.hasName, hn]⟩

theorem Inv.next_notMem (h : Inv s) (sp : ℤ) :
    ((sp, (s.server.spaceSchemaNameIDMap.keys.length + 3 : ℤ)) ∉ s.server.spaceTagMap) ∧
      ((sp, (s.server.spaceSchemaNameIDMap.keys.length + 3 : ℤ)) ∉ s.server.spaceEdgeTypeMap) := by
  rw [← lookup_eq_none, ← lookup_eq_none, Option.eq_none_iff_forall_ne_some,
    Option.eq_none_iff_forall_ne_some]
  refine ⟨fun item hitem => ?_, fun item hitem => ?_⟩
  · obtain ⟨hid, hmem⟩ := (h.lookup_tag _ _ _).mp hitem
    have := h.schemaBound _ _ ((h.lookup_name sp item.name item.id).mpr ⟨item, rfl, rfl, .inl hmem⟩)
    omega
  · obtain ⟨hid, hmem⟩ := (h.lookup_edge _ _ _).mp hitem
    have := h.schemaBound _ _ ((h.lookup_name sp item.name item.id).mpr ⟨item, rfl, rfl, .inr hmem⟩)
    omega

/-- One more name with the next id. -/
theorem names_insert {m : AList fun _ : ℤ × String => ℤ} {k : ℤ × String} (hk : k ∉ m)
    (hbound : ∀ k (id : ℤ), m.lookup k = some id → id < m.keys.length + 3)
    (hdistinct : ∀ k k' (id : ℤ), m.lookup k = some id → m.lookup k' = some id → k = k') :
    (∀ k' (id : ℤ), (m.insert k (m.keys.length + 3)).lookup k' = some id →
        id < (m.insert k (m.keys.length + 3 : ℤ)).keys.length + 3) ∧
      ∀ k₁ k₂ (id : ℤ), (m.insert k (m.keys.length + 3)).lookup k₁ = some id →
        (m.insert k (m.keys.length + 3)).lookup k₂ = some id → k₁ = k₂ := by
  refine ⟨fun k' id hk' => ?_, fun k₁ k₂ id h₁ h₂ => ?_⟩
  · rw [length_keys_insert hk]
    obtain ⟨-, rfl⟩ | hold := lookup_insert_cases hk'
    · omega
    · have := hbound k' id hold
      omega
  obtain ⟨rfl, rfl⟩ | hold₁ := lookup_insert_cases h₁
  · obtain ⟨rfl, -⟩ | hold₂ := lookup_insert_cases h₂
    · rfl
    · have := hbound k₂ _ hold₂
      omega
  · obtain ⟨rfl, rfl⟩ | hold₂ := lookup_insert_cases h₂
    · have := hbound k₁ _ hold₁
      omega
    · exact hdistinct k₁ k₂ id hold₁ hold₂

theorem Inv.next_space_notMem (h : Inv s) :
    (s.server.spaceIdNameMap.keys.length + 1 : ℤ) ∉ s.server.spaceIdNameMap := by
  rw [← lookup_eq_none, Option.eq_none_iff_forall_ne_some]
  intro n hn
  have := h.spaceBound _ _ hn
  omega

theorem Inv.addSpace (h : Inv s) {k : Cluster} (hnew : s.server.hasSpace name = false)
    (hk : k.tagIds = s.server.k2.tagIds) :
    Inv ⟨{ s.server with
        k2 := k
        spaceIdNameMap := s.server.spaceIdNameMap.insert
          (s.server.spaceIdNameMap.keys.length + 1) name },
      s.created ++ [.space (s.server.spaceIdNameMap.keys.length + 1) name]⟩ := by
  have hid := h.next_space_notMem
  have hfresh : ∀ id, s.server.spaceIdNameMap.lookup id ≠ some name := by
    intro id hn
    rw [Server.hasSpace_iff.mpr ⟨id, hn⟩] at hnew
    cases hnew
  refine ⟨perm_insert h.spaces hid rfl, perm_append h.names rfl, perm_append h.tags rfl,
    perm_append h.edges rfl, ?_, fun id n hn => ?_, h.schemaBound, fun id id' n hn hn' => ?_,
      h.distinct⟩
  · rw [hk]
    exact perm_append h.tagIds rfl
  · rw [length_keys_insert hid]
    obtain ⟨rfl, -⟩ | hold := lookup_insert_cases hn
    · omega
    · have := h.spaceBound id n hold
      omega
  · obtain ⟨rfl, rfl⟩ | hold := lookup_insert_cases hn
    · obtain ⟨rfl, -⟩ | hold' := lookup_insert_cases hn'
      · rfl
      · exact absurd hold' (hfresh id')
    · obtain ⟨rfl, rfl⟩ | hold' := lookup_insert_cases hn'
      · exact absurd hold (hfresh id)
      · exact h.oneSpace id id' n hold hold'

theorem Inv.notMem_of_new (h : Inv s) (hnew : s.server.hasSchema sp name = false) :
    (sp, name) ∉ s.server.spaceSchemaNameIDMap ∧ (sp, name) ∉ s.server.k2.tagIds := by
  have hname : (sp, name) ∉ s.server.spaceSchemaNameIDMap := by
    rw [← lookup_isSome, ← Server.hasSchema, hnew]
    simp
  refine ⟨hname, fun hrec => hname ?_⟩
  rw [← lookup_isSome, Option.isSome_iff_exists] at hrec ⊢
  obtain ⟨id, hid⟩ := hrec
  obtain ⟨item, hn, hi, hmem⟩ := (h.lookup_record sp name id).mp hid
  exact ⟨id, (h.lookup_name sp name id).mpr ⟨item, hn, hi, .inl hmem⟩⟩

theorem Inv.addTag (h : Inv s) (hnew : s.server.hasSchema req.spaceId req.name = false)
    (hid : id = s.server.spaceSchemaNameIDMap.keys.length + 3) : Inv ⟨{ s.server with
        spaceSchemaNameIDMap := s.server.spaceSchemaNameIDMap.insert (req.spaceId, req.name) id
        spaceTagMap := s.server.spaceTagMap.insert (req.spaceId, id) (req.item id)
        k2 := ⟨cs, sch, s.server.k2.tagIds.insert (req.spaceId, req.name) id⟩ },
      s.created ++ [.tag req.spaceId (req.item id)]⟩ := by
  subst hid
  obtain ⟨hname, hrec⟩ := h.notMem_of_new hnew
  obtain ⟨hbound, hdistinct⟩ := names_insert hname h.schemaBound h.distinct
  exact ⟨perm_append h.spaces rfl, perm_insert h.names hname rfl,
    perm_insert h.tags (h.next_notMem req.spaceId).1 rfl, perm_append h.edges rfl,
    perm_insert h.tagIds hrec rfl, h.spaceBound, hbound, h.oneSpace, hdistinct⟩

theorem Inv.addEdge (h : Inv s) (hnew : s.server.hasSchema req.spaceId req.name = false)
    (hid : id = s.server.spaceSchemaNameIDMap.keys.length + 3) : Inv ⟨{ s.server with
        spaceSchemaNameIDMap := s.server.spaceSchemaNameIDMap.insert (req.spaceId, req.name) id
        spaceEdgeTypeMap := s.server.spaceEdgeTypeMap.insert (req.spaceId, id) (req.item id)
        k2 := ⟨cs, sch, s.server.k2.tagIds⟩ }, s.created ++ [.edge req.spaceId (req.item id)]⟩ := by
  subst hid
  obtain ⟨hname, -⟩ := h.notMem_of_new hnew
  obtain ⟨hbound, hdistinct⟩ := names_insert hname h.schemaBound h.distinct
  exact ⟨perm_append h.spaces rfl, perm_insert h.names hname rfl, perm_append h.tags rfl,
    perm_insert h.edges (h.next_notMem req.spaceId).2 rfl, perm_append h.tagIds rfl,
    h.spaceBound, hbound, h.oneSpace, hdistinct⟩

theorem inv_init : Inv init where
  spaces := .nil
  names := .nil
  tags := .nil
  edges := .nil
  tagIds := .nil
  spaceBound _ _ h := by cases h
  schemaBound _ _ h := by cases h
  oneSpace _ _ _ h := by cases h
  distinct _ _ _ h := by cases h

/-- A request with a new name that succeeds. -/
theorem step_of_new {server : Server}
    (heq : r.handle s.server = (server, .resp .succeeded (some id))) (hknown : s.known r = false)
    (hspaces : ∀ i n, s.server.spaceIdNameMap.lookup i = some n →
      server.spaceIdNameMap.lookup i = some n)
    (hnames : ∀ k i, s.server.spaceSchemaNameIDMap.lookup k = some i →
      server.spaceSchemaNameIDMap.lookup k = some i)
    (hinv : Inv ⟨server, s.created ++ [r.object id]⟩) :
    s.StepOk r ∧ ∀ s', s.step r = some s' → Inv s' := by
  refine ⟨⟨by rwa [heq], by rwa [heq], fun hc => ?_⟩, fun s' hstep => ?_⟩
  · rw [hknown] at hc
    cases hc
  rw [Catalogue.step, heq] at hstep
  rw [hknown] at hstep
  cases hstep
  exact hinv

theorem Inv.step (h : Inv s) (hok : s.Orderly r) :
    s.StepOk r ∧ ∀ s', s.step r = some s' → Inv s' := by
  cases r with
  | space o req =>
    obtain ⟨heps, hok⟩ := hok
    cases hrep : s.server.hasSpace req.spaceName with
    | true =>
      rw [hrep] at hok
      have heq : createSpace o req s.server = (s.server, .resp .existed (some (-1))) := by
        obtain ⟨hcol, hthrow⟩ := hok
        simp only [SpaceOutcomes.schemas, mem_cons, not_mem_nil, or_false,
          forall_eq_or_imp, forall_eq] at hthrow
        obtain ⟨h₁, h₂, h₃⟩ := hthrow
        obtain ⟨ep, eps, heps⟩ := exists_cons_of_ne_nil heps
        simp [createSpace, hrep, hcol, heps, createSystem, SpaceOutcomes.schemas, h₁, h₂, h₃,
          createSchemas]
      refine ⟨?_, fun s' hstep => ?_⟩
      · constructor <;> rw [Request.handle, heq]
        · exact fun _ _ h => h
        · exact fun _ _ h => h
        · exact fun _ => ⟨rfl, _, .inl rfl⟩
      · rw [Catalogue.step, Request.handle, heq] at hstep
        cases hstep
        exact h
    | false =>
      rw [hrep] at hok
      obtain ⟨k, hk, heq⟩ := createSpace_of_new heps hrep hok.1 hok.2.1 hok.2.2
      exact step_of_new heq ((h.known_space o req).trans hrep)
        (fun _ _ hn => lookup_insert_of_notMem h.next_space_notMem hn) (fun _ _ h => h)
        (h.addSpace hrep hk)
  | tag o req =>
    obtain ⟨hnew, hsucc, hlen⟩ := hok
    obtain ⟨sch, heq⟩ := createTag_of_new hnew hsucc
    exact step_of_new heq ((h.any_name req (.inl ⟨o, rfl⟩)).trans hnew) (fun _ _ h => h)
      (fun _ _ hn => lookup_insert_of_notMem (h.notMem_of_new hnew).1 hn)
      (h.addTag hnew (schemaId_of_new hnew hlen))
  | edge o req =>
    obtain ⟨hnew, hlen⟩ := hok
    obtain ⟨sch, heq⟩ := createEdge_of_new hnew
    exact step_of_new heq ((h.any_name req (.inr ⟨o, rfl⟩)).trans hnew) (fun _ _ h => h)
      (fun _ _ hn => lookup_insert_of_notMem (h.notMem_of_new hnew).1 hn)
      (h.addEdge hnew (schemaId_of_new hnew hlen))

theorem inv_of_reach (h : Reach step Orderly init s) : Inv s :=
  h.invariant inv_init fun _ _ s' hinv hok hstep => (hinv.step hok).2 s' hstep

end Invariant

/-- **In every run of orderly requests the catalogue is consistent, every binding stays, and
a name that is there is refused.** -/
theorem consistent_of_reach {s : Catalogue} (h : Reach step Orderly init s) :
    s.Consistent ∧ ∀ r, s.Orderly r → s.StepOk r :=
  ⟨(inv_of_reach h).consistent, fun _ hok => ((inv_of_reach h).step hok).1⟩

/-! ### Two runs -/

/-- A tag without columns. -/
def person : CreateSchemaReq := ⟨1, "person", ⟨[], none, none⟩, false⟩

/-- The request for a space, all of whose calls succeed. -/
def makeSpace : Request := .space ⟨.ok, .ok, .ok, .ok⟩ ⟨"test1", false⟩

/-- The request for a tag, all of whose calls succeed. -/
def makePerson : Request := .tag ⟨.ok, true, .ok, .ok⟩ person

def spaceCatalogue : Catalogue := ⟨(makeSpace.handle .empty).1, [.space 1 "test1"]⟩

/-- The space and the tag were created. -/
def personCatalogue : Catalogue :=
  ⟨(makePerson.handle spaceCatalogue.server).1, [.space 1 "test1", .tag 1 (person.item 3)]⟩

theorem init_step : init.step makeSpace = some spaceCatalogue := by
  have heq : makeSpace.handle init.server = (spaceCatalogue.server, .resp .succeeded (some 1)) :=
    Prod.ext rfl (by decide +kernel)
  rw [Catalogue.step, heq]
  rfl

theorem spaceCatalogue_step : spaceCatalogue.step makePerson = some personCatalogue := by
  have heq : makePerson.handle spaceCatalogue.server =
      (personCatalogue.server, .resp .succeeded (some 3)) := Prod.ext rfl (by decide +kernel)
  rw [Catalogue.step, heq]
  rfl

/-- A space and a tag in it. -/
theorem consistent_of_reach_sample :
    personCatalogue.Consistent ∧ ∀ r, personCatalogue.Orderly r → personCatalogue.StepOk r := by
  have hspace : init.Orderly makeSpace := by
    exact ⟨by decide, by decide, by decide⟩
  have htag : spaceCatalogue.Orderly makePerson := ⟨by decide, by decide, by decide⟩
  exact consistent_of_reach (.tail (.tail .refl hspace init_step) htag spaceCatalogue_step)

/-- The tag is created once more: the answer is `SUCCEEDED`, the name has the id −1 in K2,
and the space has two tags of the name. -/
theorem not_consistent :
    Reach step (fun _ _ => True) init personCatalogue ∧
      (makePerson.handle personCatalogue.server).2 = .resp .succeeded (some (-1)) ∧
      (makePerson.handle personCatalogue.server).1.k2.tagIds.lookup (1, "person") = some (-1) ∧
      ((listTags (makePerson.handle personCatalogue.server).1 1).map SchemaItem.id).Perm [3, -1] ∧
      ¬personCatalogue.StepOk makePerson ∧
      ∃ s, personCatalogue.step makePerson = some s ∧ ¬s.Consistent := by
  refine ⟨.tail (.tail .refl trivial init_step) trivial spaceCatalogue_step, rfl, by rfl,
    by decide +kernel, fun h => ?_, _, rfl, fun h => ?_⟩
  · obtain ⟨-, id, hid | hid⟩ := h.existed (by decide)
    · cases (hid : Reply.resp .succeeded (some (-1)) = _)
    · exact absurd hid.2 (by decide)
  -- no tag was created under the id −1
  obtain ⟨item, -, hid, hmem⟩ := (h.tagIds 1 "person" (-1)).mp (by rfl)
  have hcreated : Object.tag 1 item ∈ [.space 1 "test1", .tag 1 (person.item 3)] := hmem
  simp only [mem_cons, reduceCtorEq, Object.tag.injEq, true_and, not_mem_nil, or_false,
    false_or] at hcreated
  rw [hcreated] at hid
  exact absurd hid (by decide)

end Catalogue

end K2Graph.Meta
