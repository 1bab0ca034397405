import K2Graph.Lib.Run
import K2Graph.Metad.SchemaEffects

/-!
# The versions of a schema

The key of a version holds the word `2 ^ 63 - 1 - version`, least byte first, so that the first
byte falls from one version to the next, until it is zero.  The key of version 256 has the byte
of version 0 again, and comes behind that of version 255.  An alteration then starts from version
255, and writes version 256 once more.

## Main results

* `schemaKey_lt` — the order of the keys.
* `Versions.step` — what a request does to the versions.
* `newestFirst_iff` — **the first key is that of the newest version exactly for the first 255
  alterations.**
-/

namespace K2Graph.Metad

open AList LittleEndian Kvstore Option
open Storaged (int32At head?_scan_eq_some_iff)

/-! ### The order of the keys -/

def version (n : ℕ) : Int64 := Int64.ofNat n

theorem toInt_version (h : n < 2 ^ 63) : (version n).toInt = n := by
  rw [version, Int64.toInt_ofNat_of_lt (by omega)]

theorem version_succ (n : ℕ) : version n + 1 = version (n + 1) := by
  rw [version, version, Int64.ofNat_add]
  rfl

theorem ofInt_word (h : n ≤ 256) :
    ∃ rest, ofInt 8 (Int64.maxValue - version n).toInt = UInt8.ofNat ((511 - n) % 256) :: rest := by
  have hword : (Int64.maxValue - version n).toInt = 2 ^ 63 - 1 - n := by
    rw [Int64.toInt_sub, toInt_version (by omega), Int.bmod_eq_of_le]
    · rfl
    · show _ ≤ (2 ^ 63 - 1 : ℤ) - n
      omega
    · show (2 ^ 63 - 1 : ℤ) - n < _
      omega
  have hbyte : ((2 ^ 63 - 1 - n : ℤ) % 256 ^ 8).toNat % 256 = (511 - n) % 256 := by omega
  refine ⟨ofNat 7 (((2 ^ 63 - 1 - n : ℤ) % 256 ^ 8).toNat / 256), ?_⟩
  rw [hword, ofInt, ofNat, hbyte]

/-- **The order of the keys is that of the first bytes.** -/
theorem schemaKey_lt (hn : n ≤ 256) (hm : m ≤ 256) (h : (511 - n) % 256 < (511 - m) % 256)
    (kind : Kind) (spaceId id : Int32) :
    schemaKey kind spaceId id (version n) < schemaKey kind spaceId id (version m) := by
  obtain ⟨rest, hrest⟩ := ofInt_word hn
  obtain ⟨rest', hrest'⟩ := ofInt_word hm
  rw [schemaKey, schemaKey, append_lt_append_iff, hrest, hrest', List.cons_lt_cons_iff]
  refine .inl (UInt8.lt_iff_toNat_lt.mpr ?_)
  rw [UInt8.toNat_ofNat', UInt8.toNat_ofNat']
  omega

/-! ### Ids are given once -/

variable (e : Engine)

def lastId : Int32 :=
  match e.lookup idKey with
  | none => 0
  | some value => int32At value 0

theorem nextId_eq : nextId e = lastId e + 1 := by
  rw [nextId, lastId]
  cases e.lookup idKey with
  | none => rfl
  | some value => rfl

/-- The counter does not run over, which is undefined in the source. -/
def NoOverflow (a : SchemaReq × Env) : Prop :=
  match a.1 with
  | .create _ _ => lastId e < Int32.maxValue
  | _ => True

theorem lastId_lt_nextId {e : Engine} (h : lastId e < Int32.maxValue) : lastId e < nextId e := by
  rw [nextId_eq]
  rw [Int32.lt_iff_toInt_lt] at h ⊢
  have hlow : -2 ^ 31 ≤ (lastId e).toInt := (lastId e).minValue_le_toInt
  have hhigh : (lastId e).toInt < 2 ^ 31 - 1 := h
  have hone : (1 : Int32).toInt = 1 := rfl
  rw [Int32.toInt_add, Int.bmod_eq_of_le] <;> omega

/-- What all requests keep: no id is given twice, and the keys of the schemas hold ids that were
given. -/
structure IdsKnown (e : Engine) : Prop where
  name_le : ∀ {kind spaceId name id}, getId e kind spaceId name = some id → id ≤ lastId e
  name_inj : ∀ {kind kind' spaceId spaceId' name name' id}, getId e kind spaceId name = some id →
    getId e kind' spaceId' name' = some id → kind = kind' ∧ spaceId = spaceId' ∧ name = name'
  schema : ∀ {kind key}, InTable kind.table key → key ∈ e →
    ∃ spaceId id v, key = schemaKey kind spaceId id v ∧ id ≤ lastId e

theorem IdsKnown.ne_nextId {e : Engine} (h : IdsKnown e) (hlt : lastId e < nextId e) {id : Int32}
    (hid : getId e kind spaceId name = some id) : id ≠ nextId e := by
  rintro rfl
  exact Int32.lt_irrefl (Int32.lt_of_le_of_lt (h.name_le hid) hlt)

section Step

variable {codec : Codec} {e : Engine} {kind : Kind}

theorem planAlter_eq_ok (h : planAlter kind codec e req behindEnd = .ok plan) :
    spaceKey req.spaceId ∈ e ∧ getId e kind req.spaceId req.name = some plan.id ∧
      ∃ v schema, firstVersion codec e kind req.spaceId plan.id = some (v, schema) ∧
        plan.version = v + 1 ∧
        alterFrom codec behindEnd (getIndexes codec e req.spaceId plan.id) req plan.id v schema =
          .ok plan := by
  unfold planAlter at h
  split at h
  · cases h
  rename_i hspace
  split at h
  · cases h
  rename_i id hid
  split at h
  · cases h
  rename_i v schema hfirst
  have hfrom := h
  unfold alterFrom at h
  split at h
  · cases h
  split at h
  · cases h
  split at h
  · cases h
  · cases h
    exact ⟨not_not.mp hspace, hid, v, schema, hfirst, rfl, hfrom⟩

theorem getId_congr
    (h : e'.lookup (nameKey kind spaceId name) = e.lookup (nameKey kind spaceId name)) :
    getId e' kind spaceId name = getId e kind spaceId name := by
  rw [getId, h, getId]

theorem lastId_congr (h : e'.lookup idKey = e.lookup idKey) : lastId e' = lastId e := by
  rw [lastId, h, lastId]

theorem mem_of_lookup_eq {e' : Engine} (h : e'.lookup key = e.lookup key) : key ∈ e' ↔ key ∈ e := by
  rw [← lookup_isSome, h, lookup_isSome]

theorem kind_eq_of_schemaKey {id : Int32} (h : InTable kind'.table (schemaKey kind spaceId id v)) :
    kind = kind' := by
  refine Kind.table_inj.mp ?_
  by_contra hne
  exact (inTable_schemaKey kind spaceId id v).ne h hne rfl

theorem IdsKnown.of_names (h : IdsKnown e)
    (hname : ∀ {kind spaceId name id}, getId e' kind spaceId name = some id →
      getId e kind spaceId name = some id)
    (hlast : lastId e ≤ lastId e')
    (hschema : ∀ {kind : Kind} {key}, InTable kind.table key → key ∈ e' → key ∈ e ∨ ∃ spaceId id v,
      key = schemaKey kind spaceId id v ∧ id ≤ lastId e') :
    IdsKnown e' where
  name_le hid := Int32.le_trans (h.name_le (hname hid)) hlast
  name_inj hid hid' := h.name_inj (hname hid) (hname hid')
  schema hkey hmem := by
    rcases hschema hkey hmem with hold | hnew
    · obtain ⟨spaceId, id, v, heq, hle⟩ := h.schema hkey hold
      exact ⟨spaceId, id, v, heq, Int32.le_trans hle hlast⟩
    · exact hnew

theorem IdsKnown.of_opsOn (h : IdsKnown e) (hops : OpsOn table ops) (hindex : Table.index ≠ table)
    (hkind : ∀ kind : Kind, kind.table ≠ table) (hlast : lastId e ≤ lastId (e.write ops)) :
    IdsKnown (e.write ops) := by
  refine h.of_names (fun hid => ?_) hlast fun hkey hmem => ?_
  · rwa [getId_congr (hops.lookup (inTable_nameKey ..) hindex e)] at hid
  · exact .inl ((mem_of_lookup_eq (hops.lookup hkey (hkind _) e)).mp hmem)

theorem getId_creation (htime : OpsOn .lastUpdateTime time) (kind' : Kind) (spaceId : Int32)
    (name : Name) :
    getId (e.write (creation kind codec e req defaults ++ time)) kind' spaceId name =
      if kind = kind' ∧ req.spaceId = spaceId ∧ req.name = name then some (nextId e)
      else getId e kind' spaceId name := by
  rw [getId, lookup_creation_name htime (inTable_nameKey ..)]
  by_cases h : kind = kind' ∧ req.spaceId = spaceId ∧ req.name = name
  · rw [if_pos h, if_pos (nameKey_inj.mpr h), map_some, int32At_ofInt]
  · rw [if_neg h, if_neg (fun heq => h (nameKey_inj.mp heq)), getId]

theorem getId_removal {id : Int32} (htime : OpsOn .lastUpdateTime time) (kind' : Kind)
    (spaceId : Int32) (name : Name) :
    getId (e.write (removal kind e req id ++ time)) kind' spaceId name =
      if kind = kind' ∧ req.spaceId = spaceId ∧ req.name = name then none
      else getId e kind' spaceId name := by
  rw [getId, lookup_removal_name htime (inTable_nameKey ..)]
  by_cases h : kind = kind' ∧ req.spaceId = spaceId ∧ req.name = name
  · rw [if_pos h, if_pos (nameKey_inj.mpr h), map_none]
  · rw [if_neg h, if_neg (fun heq => h (nameKey_inj.mp heq)), getId]

/-- **Every request keeps that ids are given once.** -/
theorem IdsKnown.step (h : IdsKnown e) {req : SchemaReq} {code : ErrorCode}
    (hok : NoOverflow e (req, env)) (heffect : Effect codec e env req ops code) :
    IdsKnown (e.write ops) := by
  cases heffect with
  | nothing => exact h
  | idOnly =>
    have hlast : lastId (e.write [.put idKey (ofInt 4 (nextId e).toInt)]) = nextId e := by
      exact int32At_ofInt _
    refine h.of_opsOn (opsOn_put inTable_idKey) (by decide) (fun kind => kind.table_ne.1) ?_
    rw [hlast]
    exact Int32.le_of_lt (lastId_lt_nextId hok)
  | @created kind req defaults time hspace hname hputId hdefaults htime =>
    have hlt := lastId_lt_nextId hok
    have hlast : lastId (e.write (creation kind codec e req defaults ++ time)) = nextId e := by
      rw [lastId, lookup_creation_id htime]
      exact int32At_ofInt _
    constructor
    · intro kind' spaceId name id hid
      rw [hlast]
      rw [getId_creation htime] at hid
      split at hid
      · cases hid
        exact Int32.le_refl _
      · exact Int32.le_trans (h.name_le hid) (Int32.le_of_lt hlt)
    · -- the new id belongs to no other name
      intro kind₁ kind₂ spaceId₁ spaceId₂ name₁ name₂ id hid hid'
      rw [getId_creation htime] at hid hid'
      split_ifs at hid with heq
      · split_ifs at hid' with heq'
        · obtain ⟨rfl, rfl, rfl⟩ := heq
          exact heq'
        · cases hid
          exact absurd rfl (h.ne_nextId hlt hid')
      · split at hid'
        · cases hid'
          exact absurd rfl (h.ne_nextId hlt hid)
        · exact h.name_inj hid hid'
    · intro kind' key hkey hmem
      rw [hlast]
      rw [← lookup_isSome, lookup_creation_schema htime hkey] at hmem
      by_cases heq : schemaKey kind req.spaceId (nextId e) 0 = key
      · obtain rfl := kind_eq_of_schemaKey (heq ▸ hkey)
        exact ⟨_, _, _, heq.symm, Int32.le_refl _⟩
      · rw [if_neg heq, lookup_isSome] at hmem
        obtain ⟨spaceId, id, v, rfl, hle⟩ := h.schema hkey hmem
        exact ⟨spaceId, id, v, rfl, Int32.le_trans hle (Int32.le_of_lt hlt)⟩
  | @removedOnly kind req plan =>
    have hops := opsOn_removals plan req.spaceId
    refine h.of_opsOn hops (by decide) (fun kind => kind.table_ne.2.2.1) ?_
    rw [lastId_congr (hops.lookup inTable_idKey (by decide) e)]
    exact Int32.le_refl _
  | @altered kind req plan time hplan hremove hwrite htime =>
    obtain ⟨-, hid, -⟩ := planAlter_eq_ok hplan
    have hlast : lastId (e.write (alteration kind codec req plan ++ time)) = lastId e :=
      lastId_congr (lookup_alteration_other htime inTable_idKey (.inr (.inl rfl)))
    refine h.of_names (fun hget => ?_) (hlast ▸ Int32.le_refl _) fun {kind' key} hkey hmem => ?_
    · rwa [getId_congr (lookup_alteration_other htime (inTable_nameKey ..) (.inl rfl))] at hget
    rw [← lookup_isSome, lookup_alteration_schema htime hkey] at hmem
    by_cases heq : schemaKey kind req.spaceId plan.id plan.version = key
    · obtain rfl := kind_eq_of_schemaKey (heq ▸ hkey)
      exact .inr ⟨_, _, _, heq.symm, hlast ▸ h.name_le hid⟩
    · rw [if_neg heq, lookup_isSome] at hmem
      exact .inl hmem
  | @dropped kind req id time hid hindexes hwrite htime =>
    have hlast : lastId (e.write (removal kind e req id ++ time)) = lastId e :=
      lastId_congr (lookup_removal_id htime)
    refine h.of_names (fun hget => ?_) (hlast ▸ Int32.le_refl _) fun {kind' key} hkey hmem => ?_
    · rw [getId_removal htime] at hget
      split at hget
      · cases hget
      · exact hget
    rw [← lookup_isSome, lookup_removal_schema htime hkey] at hmem
    by_cases hprefix : schemaPrefix kind req.spaceId id <+: key
    · rw [if_pos hprefix] at hmem
      cases hmem
    · rw [if_neg hprefix, lookup_isSome] at hmem
      exact .inl hmem

end Step

/-! ### What has happened to a tag or an edge -/

/-- The alterations since the creation: those that were answered with success, those that wrote
a version, and what the last one wrote. -/
structure Track where
  answered : ℕ
  written : ℕ
  newest : Schema

section Track

variable (codec : Codec) (kind : Kind) (spaceId : Int32) (name : Name)

/-- The request is about the tag or the edge. -/
def IsAbout (kind' : Kind) (spaceId' : Int32) (name' : Name) : Prop :=
  kind' = kind ∧ spaceId' = spaceId ∧ name' = name

instance (kind' : Kind) (spaceId' : Int32) (name' : Name) :
    Decidable (IsAbout kind spaceId name kind' spaceId' name') := inferInstanceAs
      (Decidable (_ ∧ _))

/-- What a request does to a tag or an edge, seen from its writes and its answer. -/
def track (e : Engine) (t : Option Track) (env : Env) (ops : List WriteOp) (code : ErrorCode) :
    SchemaReq → Option Track
  | .create kind' req =>
      if IsAbout kind spaceId name kind' req.spaceId req.name ∧ nameKey kind spaceId name ∉ e ∧
          nameKey kind spaceId name ∈ e.write ops then
        some ⟨0, 0, req.schema⟩
      else t
  | .alter kind' req =>
      if IsAbout kind spaceId name kind' req.spaceId req.name then
        t.map fun t =>
          match planAlter kind codec e req env.behindEnd with
          | .error _ => t
          | .ok plan =>
              -- an alteration that was written
              if .put (schemaKey kind spaceId plan.id plan.version)
                  (schemaVal codec name plan.schema) ∈ ops then
                ⟨t.answered + (if code = .succeeded then 1 else 0), t.written + 1, plan.schema⟩
              else t
      else t
  | .drop kind' req =>
      if IsAbout kind spaceId name kind' req.spaceId req.name ∧
          nameKey kind spaceId name ∉ e.write ops then
        none
      else t

def trackedStep (s : Engine × Option Track) (a : SchemaReq × Env) :
    Option (Engine × Option Track) :=
  let (ops, code) := a.1.process codec s.1 a.2
  some (s.1.write ops, track codec kind spaceId name s.1 s.2 a.2 ops code a.1)

/-- The states that are reached from a store without tags and edges. -/
def TrackedRun (e₀ : Engine) (s : Engine × Option Track) : Prop :=
  Reach (trackedStep codec kind spaceId name) (fun s a => NoOverflow s.1 a) (e₀, none) s

/-- **The first key is that of version `k`, with the newest schema**: the next alteration starts
from there and writes version `k + 1`, which is not there yet, and the lookups of the latest
schema get the newest one. -/
structure NewestFirst (e : Engine) (k : ℕ) (newest : Schema) : Prop where
  first : ∃ (id : Int32) (v : Int64), getId e kind spaceId name = some id ∧ v.toInt = (k : ℤ) ∧
    firstVersion codec e kind spaceId id = some (v, newest) ∧
    getLatestSchema codec e kind spaceId id = some newest ∧
    ∀ v' : Int64, v'.toInt = (k + 1 : ℤ) → schemaKey kind spaceId id v' ∉ e
  get : ∀ v < 0, getSchema codec e kind spaceId name v = .ok newest
  next : ∀ req behindEnd plan, req.spaceId = spaceId → req.name = name →
    planAlter kind codec e req behindEnd = .ok plan → plan.version.toInt = (k + 1 : ℤ) ∧
      ∃ v : Int64, v.toInt = (k : ℤ) ∧
        alterFrom codec behindEnd (getIndexes codec e spaceId plan.id) req plan.id v newest =
          .ok plan

/-- No tag or edge. -/
structure Clean (e : Engine) : Prop where
  schemas : ∀ {kind : Kind} {key : Bytes}, InTable kind.table key → key ∉ e
  names : ∀ {kind : Kind} {spaceId : Int32} {name : Name}, nameKey kind spaceId name ∉ e

end Track

theorem getId_eq_none {e : Engine} :
    getId e kind spaceId name = none ↔ nameKey kind spaceId name ∉ e := by
  rw [getId, map_eq_none_iff, lookup_eq_none]

theorem Clean.idsKnown {e : Engine} (h : Clean e) : IdsKnown e where
  name_le hid := by
    rw [getId_eq_none.mpr h.names] at hid
    cases hid
  name_inj hid := by
    rw [getId_eq_none.mpr h.names] at hid
    cases hid
  schema hkey hmem := absurd hmem (h.schemas hkey)

/-! ### The versions that are stored -/

section Versions

variable {codec : Codec} {kind : Kind} {spaceId : Int32} {name : Name} {e : Engine} {id : Int32}
  {t : Track}

/-- The versions of a schema: those up to the last one, but none above 256. -/
structure Versions (codec : Codec) (kind : Kind) (spaceId id : Int32) (e : Engine)
    (t : Track) : Prop
    where
  stored : ∀ v, schemaKey kind spaceId id v ∈ e ↔ ∃ n ≤ min t.written 256, v = version n
  answered_le : t.answered ≤ t.written
  newest : t.written ≤ 256 →
    (e.lookup (schemaKey kind spaceId id (version t.written))).map (parseSchema codec) =
      some t.newest

section

variable (h : Versions codec kind spaceId id e t)
include h

theorem Versions.congr
    (hsame : ∀ v, e'.lookup (schemaKey kind spaceId id v) =
      e.lookup (schemaKey kind spaceId id v)) :
    Versions codec kind spaceId id e' t where
  stored v := (mem_of_lookup_eq (hsame v)).trans (h.stored v)
  answered_le := h.answered_le
  newest hle := by rw [hsame, h.newest hle]

/-- **The first version in the order of the keys**: the last one, but none above 255. -/
theorem Versions.head? (hids : IdsKnown e) :
    ∃ value, (e.scan (schemaPrefix kind spaceId id)).head? =
        some (schemaKey kind spaceId id (version (min t.written 255)), value) ∧
      e.lookup (schemaKey kind spaceId id (version (min t.written 255))) = some value := by
  have hmem : schemaKey kind spaceId id (version (min t.written 255)) ∈ e :=
    (h.stored _).mpr ⟨min t.written 255, by omega, rfl⟩
  obtain ⟨value, hvalue⟩ := isSome_iff_exists.mp (lookup_isSome.mpr hmem)
  refine ⟨value, head?_scan_eq_some_iff.mpr ⟨Engine.mem_scan.mpr ⟨hvalue, List.prefix_append _ _⟩,
    ?_⟩, hvalue⟩
  rintro ⟨key, value'⟩ hrow
  obtain ⟨hlookup, hprefix⟩ := Engine.mem_scan.mp hrow
  have hkey : key ∈ e := lookup_isSome.mp (by rw [hlookup]; rfl)
  -- every key that is met is that of a version
  obtain ⟨spaceId', id', v, rfl, -⟩ := hids.schema (inTable_of_schemaPrefix hprefix) hkey
  obtain ⟨-, rfl, rfl⟩ := schemaPrefix_prefix_schemaKey.mp hprefix
  obtain ⟨n, hn, rfl⟩ := (h.stored v).mp hkey
  by_cases heq : n = min t.written 255
  · subst heq
    exact List.le_refl _
  · exact List.le_of_lt (schemaKey_lt (by omega) (by omega) (by omega) kind spaceId id)

theorem Versions.firstVersion_eq (hids : IdsKnown e) :
    ∃ schema, firstVersion codec e kind spaceId id = some (version (min t.written 255), schema) ∧
      getLatestSchema codec e kind spaceId id = some schema ∧
      (t.written ≤ 255 → schema = t.newest) := by
  obtain ⟨value, hhead, hlookup⟩ := h.head? hids
  refine ⟨parseSchema codec value, ?_, ?_, fun hle => ?_⟩
  · rw [firstVersion, hhead, map_some, parseVersion_schemaKey]
  · rw [getLatestSchema, hhead, map_some]
  have hnewest := h.newest (by omega)
  rw [min_eq_left hle] at hlookup
  rw [hlookup] at hnewest
  exact some.inj hnewest

theorem Versions.eq_of_firstVersion (hids : IdsKnown e) {k : ℕ}
    (hfirst : firstVersion codec e kind spaceId id = some (v, schema)) (hv : v.toInt = k) :
    k = min t.written 255 := by
  obtain ⟨schema', hfirst', -⟩ := h.firstVersion_eq hids
  rw [(Prod.mk.inj (some.inj (hfirst.symm.trans hfirst'))).1, toInt_version (by omega)] at hv
  omega

end

/-- A tag or an edge after a run. -/
def Tracked (codec : Codec) (kind : Kind) (spaceId : Int32) (name : Name)
    (s : Engine × Option Track) : Prop :=
  IdsKnown s.1 ∧
    match s.2 with
    | none => nameKey kind spaceId name ∉ s.1
    | some t => ∃ id, getId s.1 kind spaceId name = some id ∧ spaceKey spaceId ∈ s.1 ∧
        Versions codec kind spaceId id s.1 t

/-- A request that is not about the tag or the edge, or does nothing to it. -/
theorem Tracked.congr {t : Option Track} (h : Tracked codec kind spaceId name (e, t))
    (hids : IdsKnown e') (hname : e'.lookup (nameKey kind spaceId name) =
      e.lookup (nameKey kind spaceId name))
    (hspace : e'.lookup (spaceKey spaceId) = e.lookup (spaceKey spaceId))
    (hschema : ∀ id v, getId e kind spaceId name = some id →
      e'.lookup (schemaKey kind spaceId id v) = e.lookup (schemaKey kind spaceId id v)) :
    Tracked codec kind spaceId name (e', t) := by
  refine ⟨hids, ?_⟩
  cases t with
  | none => exact fun hmem => h.2 ((mem_of_lookup_eq hname).mp hmem)
  | some t =>
    obtain ⟨id, hid, hmem, hversions⟩ := h.2
    exact ⟨id, (getId_congr hname).trans hid, (mem_of_lookup_eq hspace).mpr hmem,
      hversions.congr fun v => hschema id v hid⟩

theorem versions_creation (hids : IdsKnown e) (hlt : lastId e < nextId e)
    (htime : OpsOn .lastUpdateTime time) : Versions codec kind req.spaceId (nextId e)
      (e.write (creation kind codec e req defaults ++ time)) ⟨0, 0, req.schema⟩ := by
  have hfresh (v : Int64) : schemaKey kind req.spaceId (nextId e) v ∉ e := by
    intro hmem
    obtain ⟨spaceId', id', v', heq, hle⟩ := hids.schema (inTable_schemaKey ..) hmem
    obtain ⟨⟨-, -, rfl⟩, -⟩ := schemaKey_inj.mp heq
    exact Int32.lt_irrefl (Int32.lt_of_le_of_lt hle hlt)
  refine ⟨fun v => ?_, le_rfl, fun _ => ?_⟩
  · rw [← lookup_isSome, lookup_creation_schema htime (inTable_schemaKey ..)]
    by_cases hv : (0 : Int64) = v
    · subst hv
      rw [if_pos rfl]
      exact iff_of_true rfl ⟨0, Nat.zero_le _, rfl⟩
    rw [if_neg (fun heq => hv (schemaKey_inj.mp heq).2), lookup_isSome]
    refine iff_of_false (hfresh v) ?_
    rintro ⟨n, hn, rfl⟩
    obtain rfl : n = 0 := Nat.le_zero.mp (le_trans hn (min_le_left 0 256))
    exact hv rfl
  · rw [lookup_creation_schema htime (inTable_schemaKey ..)]
    exact (congrArg (Option.map (parseSchema codec)) (if_pos rfl)).trans
      (congrArg some (parseSchema_schemaVal codec req.name req.schema))

/-- One version more, as long as there are no 256 of them. -/
theorem Versions.alteration (h : Versions codec kind spaceId id e t) (hids : IdsKnown e)
    (hspace : req.spaceId = spaceId) (hplanId : plan.id = id)
    (hplan : planAlter kind codec e req behindEnd = .ok plan) (htime : OpsOn .lastUpdateTime time)
    (hanswered : answered ≤ t.written + 1) :
    Versions codec kind spaceId id (e.write (Metad.alteration kind codec req plan ++ time))
      ⟨answered, t.written + 1, plan.schema⟩ := by
  subst hspace hplanId
  obtain ⟨-, -, v, schema, hfirst, hversion, -⟩ := planAlter_eq_ok hplan
  obtain ⟨schema', hfirst', -⟩ := h.firstVersion_eq hids
  obtain ⟨rfl, rfl⟩ := Prod.mk.inj (some.inj (hfirst.symm.trans hfirst'))
  have hmin : min t.written 255 + 1 = min (t.written + 1) 256 := by omega
  rw [version_succ, hmin] at hversion
  refine ⟨fun v => ?_, hanswered, fun hle => ?_⟩
  · rw [← lookup_isSome, lookup_alteration_schema htime (inTable_schemaKey ..)]
    by_cases hv : plan.version = v
    · subst hv
      rw [if_pos rfl]
      exact ⟨fun _ => ⟨_, le_rfl, hversion⟩, fun _ => rfl⟩
    rw [if_neg (fun heq => hv (schemaKey_inj.mp heq).2), lookup_isSome, h.stored]
    constructor
    · rintro ⟨n, hn, rfl⟩
      refine ⟨n, ?_, rfl⟩
      show n ≤ min (t.written + 1) 256
      omega
    rintro ⟨n, hn, rfl⟩
    refine ⟨n, ?_, rfl⟩
    have hle : n ≤ min (t.written + 1) 256 := hn
    -- the last one is the one that was written
    have hne : n ≠ min (t.written + 1) 256 := fun heq => hv (by rw [hversion, heq])
    omega
  · have hnew : plan.version = version (t.written + 1) := by rw [hversion, min_eq_left hle]
    rw [lookup_alteration_schema htime (inTable_schemaKey ..), hnew, if_pos rfl, map_some,
      parseSchema_schemaVal]

/-- **What a request does to the versions.** -/
theorem Tracked.step {t : Option Track} (h : Tracked codec kind spaceId name (e, t))
    {req : SchemaReq} {ops : List WriteOp} {code : ErrorCode} (hok : NoOverflow e (req, env))
    (heffect : Effect codec e env req ops code) :
    Tracked codec kind spaceId name
      (e.write ops, track codec kind spaceId name e t env ops code req) := by
  have hids : IdsKnown e := h.1
  have hids' := hids.step hok heffect
  have hspace := heffect.lookup_fixed (inTable_spaceKey spaceId) (.inl rfl)
  -- a name that stays is neither created nor dropped
  have hkept (hname : (e.write ops).lookup (nameKey kind spaceId name) =
        e.lookup (nameKey kind spaceId name)) :
      (∀ kind' req, track codec kind spaceId name e t env ops code (.create kind' req) = t) ∧
        ∀ kind' req, track codec kind spaceId name e t env ops code (.drop kind' req) = t := by
    have hmem := mem_of_lookup_eq hname
    refine ⟨fun kind' req => if_neg fun hc => hc.2.1 (hmem.mp hc.2.2), fun kind' req => ?_⟩
    rw [track]
    split_ifs with hcond
    · cases t with
      | none => rfl
      | some t =>
        obtain ⟨id, hid, -⟩ := h.2
        rw [getId_eq_none.mpr (mt hmem.mpr hcond.2)] at hid
        cases hid
    · rfl
  -- without the put there is no version
  have halter {kind' : Kind} {req : AlterReq}
      (hops : ∀ key value, .put key value ∉ ops) :
      track codec kind spaceId name e t env ops code (.alter kind' req) = t := by
    rw [track]
    split
    · cases t with
      | none => rfl
      | some t =>
        cases planAlter kind codec e req env.behindEnd with
        | error stop => rfl
        | ok plan => exact congrArg some (if_neg (hops _ _))
    · rfl
  cases heffect with
  | nothing =>
    have hsame : track codec kind spaceId name e t env [] code req = t := by
      cases req with
      | create kind' req => exact (hkept rfl).1 kind' req
      | alter kind' req => exact halter fun _ _ => List.not_mem_nil
      | drop kind' req => exact (hkept rfl).2 kind' req
    rw [hsame]
    exact h
  | @idOnly kind' req =>
    have hops : OpsOn .id [.put idKey (ofInt 4 (nextId e).toInt)] := opsOn_put inTable_idKey
    have hname := hops.lookup (inTable_nameKey kind spaceId name) (by decide) e
    rw [(hkept hname).1]
    exact h.congr hids' hname hspace fun id v _ =>
      hops.lookup (inTable_schemaKey ..) kind.table_ne.1 e
  | @created kind' req defaults time hreqSpace hfree hputId hdefaults htime =>
    have hlt : lastId e < nextId e := lastId_lt_nextId hok
    have hlookup : (e.write (creation kind' codec e req defaults ++ time)).lookup
        (nameKey kind spaceId name) = _ := lookup_creation_name htime (inTable_nameKey ..)
    by_cases habout : IsAbout kind spaceId name kind' req.spaceId req.name
    · obtain ⟨rfl, rfl, rfl⟩ := habout
      rw [if_pos rfl] at hlookup
      have hmem : nameKey kind' req.spaceId req.name ∈
          e.write (creation kind' codec e req defaults ++ time) :=
        lookup_isSome.mp (by rw [hlookup]; rfl)
      rw [track, if_pos ⟨⟨rfl, rfl, rfl⟩, hfree, hmem⟩]
      refine ⟨hids', nextId e, ?_, (mem_of_lookup_eq hspace).mpr hreqSpace,
        versions_creation hids hlt htime⟩
      rw [getId_creation htime, if_pos ⟨rfl, rfl, rfl⟩]
    · rw [if_neg (fun heq => habout (nameKey_inj.mp heq))] at hlookup
      rw [(hkept hlookup).1]
      refine h.congr hids' hlookup hspace fun id v hid => ?_
      -- the id is a new one
      rw [lookup_creation_schema htime (inTable_schemaKey ..), if_neg]
      intro heq
      obtain ⟨⟨-, -, rfl⟩, -⟩ := schemaKey_inj.mp heq
      exact hids.ne_nextId hlt hid rfl
  | @removedOnly kind' req plan =>
    have hops := opsOn_removals plan req.spaceId
    have hnone : ∀ key value, .put key value ∉ plan.removals req.spaceId := by
      intro key value hmem
      obtain ⟨field, -, heq⟩ := List.mem_map.mp hmem
      cases heq
    rw [halter hnone]
    exact h.congr hids' (hops.lookup (inTable_nameKey ..) (by decide) e) hspace fun id v _ =>
      hops.lookup (inTable_schemaKey ..) kind.table_ne.2.2.1 e
  | @altered kind' req plan time hplan hremove hwrite htime =>
    have hname : (e.write (alteration kind' codec req plan ++ time)).lookup
        (nameKey kind spaceId name) = e.lookup (nameKey kind spaceId name) :=
      lookup_alteration_other htime (inTable_nameKey ..) (.inl rfl)
    obtain ⟨-, hplanId, -⟩ := planAlter_eq_ok hplan
    by_cases habout : IsAbout kind spaceId name kind' req.spaceId req.name
    · obtain ⟨rfl, rfl, rfl⟩ := habout
      rw [track, if_pos ⟨rfl, rfl, rfl⟩]
      cases t with
      | none =>
        -- there is no plan without a name
        rw [getId_eq_none.mpr h.2] at hplanId
        cases hplanId
      | some t =>
        obtain ⟨id, hid, hmem, hversions⟩ := h.2
        have hput : WriteOp.put (schemaKey kind' req.spaceId plan.id plan.version)
            (schemaVal codec req.name plan.schema) ∈ alteration kind' codec req plan ++ time := by
          rw [alteration]
          simp
        simp only [hplan, if_pos hput]
        refine ⟨hids', id, (getId_congr hname).trans hid, (mem_of_lookup_eq hspace).mpr hmem, ?_⟩
        refine hversions.alteration hids rfl (some.inj (hplanId.symm.trans hid)) hplan htime ?_
        have := hversions.answered_le
        split <;> omega
    · rw [track, if_neg habout]
      refine h.congr hids' hname hspace fun id v hid => ?_
      rw [lookup_alteration_schema htime (inTable_schemaKey ..), if_neg]
      intro heq
      obtain ⟨⟨rfl, rfl, rfl⟩, -⟩ := schemaKey_inj.mp heq
      exact habout (hids.name_inj hplanId hid)
  | @dropped kind' req id' time hid' hindexes hwrite htime =>
    have hlookup : (e.write (removal kind' e req id' ++ time)).lookup (nameKey kind spaceId name) =
      _ :=
      lookup_removal_name htime (inTable_nameKey ..)
    by_cases habout : IsAbout kind spaceId name kind' req.spaceId req.name
    · obtain ⟨rfl, rfl, rfl⟩ := habout
      rw [if_pos rfl] at hlookup
      have hgone : nameKey kind' req.spaceId req.name ∉ e.write (removal kind' e req id' ++ time) :=
        lookup_eq_none.mp hlookup
      rw [track, if_pos ⟨⟨rfl, rfl, rfl⟩, hgone⟩]
      exact ⟨hids', hgone⟩
    · rw [if_neg (fun heq => habout (nameKey_inj.mp heq))] at hlookup
      rw [(hkept hlookup).2]
      refine h.congr hids' hlookup hspace fun id v hid => ?_
      rw [lookup_removal_schema htime (inTable_schemaKey ..), if_neg]
      intro hprefix
      obtain ⟨rfl, rfl, rfl⟩ := schemaPrefix_prefix_schemaKey.mp hprefix
      exact habout (hids.name_inj hid' hid)

/-- **What holds of a tag or an edge in every run.** -/
theorem TrackedRun.tracked (hclean : Clean e₀) (h : TrackedRun codec kind spaceId name e₀ s) :
    Tracked codec kind spaceId name s := by
  refine Reach.invariant ⟨hclean.idsKnown, hclean.names⟩ ?_ h
  rintro ⟨e, t⟩ ⟨req, env⟩ u hs hok hstep
  cases hstep
  exact hs.step hok (req.effect codec e env)

/-! ### The newest version -/

theorem Versions.newestFirst (h : Versions codec kind spaceId id e t) (hids : IdsKnown e)
    (hid : getId e kind spaceId name = some id) (hspace : spaceKey spaceId ∈ e)
    (hle : t.written ≤ 255) : NewestFirst codec kind spaceId name e t.written t.newest := by
  obtain ⟨schema, hfirst, hlatest, hnewest⟩ := h.firstVersion_eq hids
  obtain rfl := hnewest hle
  rw [min_eq_left hle] at hfirst
  have hnum (n : ℕ) (hn : n ≤ 256) : (version n).toInt = n := toInt_version (by omega)
  refine ⟨⟨id, _, hid, hnum _ (by omega), hfirst, hlatest, fun v' hv' hmem => ?_⟩, fun v hv => ?_,
    ?_⟩
  · obtain ⟨n, hn, rfl⟩ := (h.stored _).mp hmem
    rw [hnum n (by omega)] at hv'
    omega
  · rw [getSchema, if_neg (not_not.mpr hspace), hid]
    simp [if_pos hv, hlatest]
  rintro req behindEnd plan rfl rfl hplan
  obtain ⟨-, hplanId, v, schema, hplanFirst, hversion, hfrom⟩ := planAlter_eq_ok hplan
  obtain rfl := some.inj (hplanId.symm.trans hid)
  obtain ⟨rfl, rfl⟩ := Prod.mk.inj (some.inj (hplanFirst.symm.trans hfirst))
  refine ⟨?_, _, hnum _ (by omega), hfrom⟩
  rw [hversion, version_succ, hnum _ (by omega)]
  exact Int.natCast_succ _

/-- **The first key is that of version `k`, after `k` alterations that were answered with success,
exactly if these are all that were written, and not more than 255.** -/
theorem newestFirst_iff {e₀ : Engine} (hclean : Clean e₀)
    (h : TrackedRun codec kind spaceId name e₀ (e, some t)) :
    NewestFirst codec kind spaceId name e t.answered t.newest ↔
      t.written = t.answered ∧ t.answered ≤ 255 := by
  obtain ⟨hids, id, hid, hspace, hversions⟩ := h.tracked hclean
  constructor
  · rintro ⟨⟨id', v, hid', hv, hfirst, -, hnext⟩, -, -⟩
    obtain rfl := some.inj (hid'.symm.trans hid)
    have heq := hversions.eq_of_firstVersion hids hfirst hv
    -- with more than 255 of them the next version is there already
    by_cases hmore : 255 < t.written
    · refine absurd ((hversions.stored (version 256)).mpr ⟨256, by omega, rfl⟩) (hnext _ ?_)
      rw [toInt_version (by omega)]
      omega
    · omega
  · rintro ⟨hwritten, hle⟩
    rw [← hwritten] at hle ⊢
    exact hversions.newestFirst hids hid hspace hle

end Versions

/-! ### A tag that is altered again and again -/

def bare : Schema := ⟨[], ⟨none, none⟩⟩

def person : Name := ⟨[112], by decide⟩

def oneSpace : Engine := (∅ : Engine).insert (spaceKey 1) []

def Env.good : Env := ⟨true, true, true, true, true, 0, fun _ => false⟩

def alterNothing : AlterReq := ⟨1, person, [], ⟨none, none⟩⟩

theorem oneSpace_clean : Clean oneSpace := by
  have hmem {key : Bytes} (h : key ∈ oneSpace) : key = spaceKey 1 := by
    rw [oneSpace, mem_insert] at h
    exact h.resolve_right (notMem_empty _)
  refine ⟨fun {kind key} hkey hin => ?_, fun {kind spaceId name} hin => ?_⟩
  · exact hkey.ne (inTable_spaceKey 1) kind.table_ne.2.2.2.2.1 (hmem hin)
  · exact (inTable_nameKey kind spaceId name).ne (inTable_spaceKey 1) (by decide) (hmem hin)

section Again

variable {codec : Codec} {e : Engine}

theorem TrackedRun.tail {kind : Kind} {spaceId : Int32} {name : Name} {e₀ : Engine}
    {t : Option Track} {req : SchemaReq} {env : Env} {ops : List WriteOp} {code : ErrorCode}
    (h : TrackedRun codec kind spaceId name e₀ (e, t)) (hok : NoOverflow e (req, env))
    (hprocess : req.process codec e env = (ops, code)) :
    TrackedRun codec kind spaceId name e₀
      (e.write ops, track codec kind spaceId name e t env ops code req) := by
  refine Reach.tail h hok ?_
  rw [trackedStep, hprocess]

theorem exists_alterNothing (h : TrackedRun codec .tag 1 person oneSpace (e, some t))
    (hnewest : t.newest = bare) (hle : t.written ≤ 255) :
    ∃ e', TrackedRun codec .tag 1 person oneSpace
      (e', some ⟨t.answered + 1, t.written + 1, bare⟩) := by
  obtain ⟨hids, id, hid, hspace, hversions⟩ := h.tracked oneSpace_clean
  obtain ⟨schema, hfirst, -, hschema⟩ := hversions.firstVersion_eq hids
  obtain rfl : schema = bare := (hschema hle).trans hnewest
  have hcheck (indexes : List IndexItem) : indexCheck indexes alterNothing.changes = true := by
    rw [indexCheck, List.all_eq_true]
    intro index _
    rfl
  have hplan : planAlter .tag codec e alterNothing Env.good.behindEnd =
      .ok ⟨id, version (min t.written 255) + 1, bare, [], []⟩ := by
    have hspace' : ¬ spaceKey alterNothing.spaceId ∉ e := not_not.mpr hspace
    have hid' : getId e .tag alterNothing.spaceId alterNothing.name = some id := hid
    have hfirst' : firstVersion codec e .tag alterNothing.spaceId id = some (_, bare) := hfirst
    rw [planAlter, if_neg hspace', hid']
    simp only [hfirst']
    rw [alterFrom, hcheck]
    cases getIndexes codec e alterNothing.spaceId id <;> rfl
  have hprocess : SchemaReq.process codec e Env.good (.alter .tag alterNothing) =
      ([.put (schemaKey .tag 1 id (version (min t.written 255) + 1)) (schemaVal codec person bare),
        .put lastUpdateTimeKey (ofInt 8 (0 : Int64).toInt)], .succeeded) := by
    show alterSchema .tag codec e alterNothing Env.good = _
    rw [alterSchema, hplan]
    rfl
  have hok : NoOverflow e (.alter .tag alterNothing, Env.good) := trivial
  have hrun := h.tail hok hprocess
  simp only [track, hplan] at hrun
  rw [map_some, if_pos List.mem_cons_self] at hrun
  exact ⟨_, hrun⟩

theorem exists_created (codec : Codec) :
    ∃ e, TrackedRun codec .tag 1 person oneSpace (e, some ⟨0, 0, bare⟩) := by
  have hprocess :
    SchemaReq.process codec oneSpace Env.good (.create .tag ⟨1, person, bare, false⟩) =
      (creation .tag codec oneSpace ⟨1, person, bare, false⟩ [] ++
        [.put lastUpdateTimeKey (ofInt 8 (0 : Int64).toInt)], .succeeded) := by
    rfl
  have hok : NoOverflow oneSpace (.create .tag ⟨1, person, bare, false⟩, Env.good) :=
    (by decide : lastId oneSpace < Int32.maxValue)
  have hstart : TrackedRun codec .tag 1 person oneSpace (oneSpace, none) := .refl
  have hrun := hstart.tail hok hprocess
  exact ⟨_, hrun⟩

theorem exists_altered (codec : Codec) (hn : n ≤ 256) :
    ∃ e, TrackedRun codec .tag 1 person oneSpace (e, some ⟨n, n, bare⟩) := by
  induction n with
  | zero => exact exists_created codec
  | succ n ih =>
    obtain ⟨e, he⟩ := ih (by omega)
    exact exists_alterNothing he rfl (Nat.le_of_lt_succ hn)

end Again

theorem newestFirst_three :
    ∃ e, Clean oneSpace ∧ TrackedRun (.ofList [bare]) .tag 1 person oneSpace (e,
      some ⟨3, 3, bare⟩) ∧
      NewestFirst (.ofList [bare]) .tag 1 person e 3 bare := by
  obtain ⟨e, he⟩ := exists_altered (.ofList [bare]) (n := 3) (by decide)
  exact ⟨e, oneSpace_clean, he, (newestFirst_iff oneSpace_clean he).mpr ⟨rfl, by decide⟩⟩

/-- After 256 alterations the first key is that of version 255, though version 256 is there, and
the next alteration writes version 256 again. -/
theorem not_newestFirst_256 :
    ∃ e, TrackedRun (.ofList [bare]) .tag 1 person oneSpace (e, some ⟨256, 256, bare⟩) ∧
      (∃ id schema, getId e .tag 1 person = some id ∧ schemaKey .tag 1 id (version 256) ∈ e ∧
        firstVersion (.ofList [bare]) e .tag 1 id = some (version 255, schema)) ∧
      ¬ NewestFirst (.ofList [bare]) .tag 1 person e 256 bare := by
  obtain ⟨e, he⟩ := exists_altered (.ofList [bare]) le_rfl
  obtain ⟨hids, id, hid, hspace, hversions⟩ := he.tracked oneSpace_clean
  obtain ⟨schema, hfirst, -⟩ := hversions.firstVersion_eq hids
  have hstored := (hversions.stored (version 256)).mpr ⟨256, le_rfl, rfl⟩
  refine ⟨e, he, ⟨id, schema, hid, hstored, hfirst⟩, ?_⟩
  rintro ⟨⟨id', v, hid', hv, hfirst', -⟩, -, -⟩
  obtain rfl := some.inj (hid'.symm.trans hid)
  have heq := hversions.eq_of_firstVersion hids hfirst' hv
  exact absurd heq (by decide)

end K2Graph.Metad
