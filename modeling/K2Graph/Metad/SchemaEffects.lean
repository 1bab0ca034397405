import K2Graph.Metad.SchemaMan
import K2Graph.Storaged.Newest

/-!
# What a request about a tag or an edge does to the store

The keys of different tables are different, so what a request does can be said table by table.

## Main results

* `Table.key_inj`, `Table.prefix_key` — no name of a table begins the name of another one.
* `SchemaReq.effect` — **what a request does**, one case for each way it can go.
-/

namespace K2Graph.Metad

open List LittleEndian Kvstore Engine
open Storaged (int32At int64At int32At_of_eq int64At_of_eq
  ofInt_int32_inj ofInt_int64_inj prefix_append_of_length)

/-! ### Tables -/

variable {t : Table}

theorem Table.key_inj : t.key a = t'.key b ↔ t = t' ∧ a = b := by
  constructor
  · intro h
    cases t <;> cases t' <;> simp [key, bytes] at h ⊢
    all_goals exact h
  · rintro ⟨rfl, rfl⟩
    rfl

theorem Table.prefix_key : t.key a <+: t'.key b ↔ t = t' ∧ a <+: b := by
  constructor
  · rintro ⟨rest, hrest⟩
    rw [key, append_assoc] at hrest
    obtain ⟨rfl, rfl⟩ := key_inj.mp hrest
    exact ⟨rfl, prefix_append _ _⟩
  · rintro ⟨rfl, rest, rfl⟩
    exact ⟨rest, append_assoc _ _ _⟩

def InTable (t : Table) (key : Bytes) : Prop := ∃ rest, key = t.key rest

theorem InTable.ne (h : InTable t k) (h' : InTable t' k') (hne : t ≠ t') : k ≠ k' := by
  obtain ⟨rest, rfl⟩ := h
  obtain ⟨rest', rfl⟩ := h'
  exact fun heq => hne (Table.key_inj.mp heq).1

variable {kind' : Kind} (kind : Kind) (spaceId id : Int32)

theorem schemaKey_eq (version : Int64) : schemaKey kind spaceId id version = kind.table.key
      (schemaWords spaceId id ++ ofInt 8 (Int64.maxValue - version).toInt) := by
  rw [schemaKey, schemaPrefix, Table.key, Table.key, append_assoc]

theorem inTable_schemaKey (version : Int64) :
    InTable kind.table (schemaKey kind spaceId id version) := ⟨_, schemaKey_eq ..⟩

variable {spaceId : Int32}

theorem inTable_of_schemaPrefix {kind : Kind} {id : Int32} {key : Bytes}
    (h : schemaPrefix kind spaceId id <+: key) : InTable kind.table key := by
  obtain ⟨rest, rfl⟩ := h
  exact ⟨_, append_assoc _ _ _⟩

theorem inTable_nameKey (spaceId : Int32) (name : Name) :
    InTable .index (nameKey kind spaceId name) := ⟨_, rfl⟩

theorem inTable_defaultKey (spaceId id : Int32) (field : Name) :
    InTable .defaults (defaultKey spaceId id field) := ⟨_, rfl⟩

theorem inTable_idKey : InTable .id idKey := ⟨_, rfl⟩

theorem inTable_spaceKey (spaceId : Int32) : InTable .spaces (spaceKey spaceId) := ⟨_, rfl⟩

theorem Kind.table_ne :
    kind.table ≠ .id ∧ kind.table ≠ .index ∧ kind.table ≠ .defaults ∧
      kind.table ≠ .lastUpdateTime ∧ kind.table ≠ .spaces ∧ kind.table ≠ .indexes := by
  cases kind <;> decide

section

variable {kind : Kind}

theorem Kind.table_inj : kind.table = kind'.table ↔ kind = kind' := by
  cases kind <;> cases kind' <;> decide

/-! ### Keys -/

theorem length_schemaWords (spaceId id : Int32) : (schemaWords spaceId id).length = 8 := by
  rw [schemaWords, length_append, length_ofInt, length_ofInt]

variable {id : Int32}

theorem schemaWords_inj :
    schemaWords spaceId id = schemaWords spaceId' id' ↔ spaceId = spaceId' ∧ id = id' := by
  constructor
  · intro h
    obtain ⟨hspace, hid⟩ := append_inj h (by rw [length_ofInt, length_ofInt])
    exact ⟨ofInt_int32_inj.mp hspace, ofInt_int32_inj.mp hid⟩
  · rintro ⟨rfl, rfl⟩
    rfl

theorem schemaPrefix_prefix_schemaKey :
    schemaPrefix kind spaceId id <+: schemaKey kind' spaceId' id' version ↔
      kind = kind' ∧ spaceId = spaceId' ∧ id = id' := by
  rw [schemaKey_eq, schemaPrefix, Table.prefix_key, Kind.table_inj,
    prefix_append_of_length (by rw [length_schemaWords, length_schemaWords]), schemaWords_inj]

theorem schemaKey_inj : schemaKey kind spaceId id version = schemaKey kind' spaceId' id' version' ↔
      (kind = kind' ∧ spaceId = spaceId' ∧ id = id') ∧ version = version' := by
  constructor
  · intro h
    have hprefix : schemaPrefix kind spaceId id <+: schemaKey kind' spaceId' id' version' := by
      rw [← h]
      exact prefix_append _ _
    obtain ⟨rfl, rfl, rfl⟩ := schemaPrefix_prefix_schemaKey.mp hprefix
    refine ⟨⟨rfl, rfl, rfl⟩, ?_⟩
    have hword := ofInt_int64_inj.mp (append_cancel_left h)
    exact (Int64.sub_right_inj _).mp hword
  · rintro ⟨⟨rfl, rfl, rfl⟩, rfl⟩
    rfl

theorem nameKey_inj : nameKey kind spaceId name = nameKey kind' spaceId' name' ↔
      kind = kind' ∧ spaceId = spaceId' ∧ name = name' := by
  constructor
  · intro h
    have hrest := (Table.key_inj.mp h).2
    obtain ⟨hkind, hrest⟩ := cons.inj hrest
    obtain ⟨hspace, hname⟩ := append_inj hrest (by rw [length_ofInt, length_ofInt])
    refine ⟨?_, ofInt_int32_inj.mp hspace, Subtype.ext hname⟩
    cases kind <;> cases kind' <;> simp [Kind.entryType] at hkind ⊢
  · rintro ⟨rfl, rfl, rfl⟩
    rfl

end

theorem defaultKey_inj {id : Int32} : defaultKey spaceId id field = defaultKey spaceId' id' field' ↔
      (spaceId = spaceId' ∧ id = id') ∧ field = field' := by
  constructor
  · intro h
    obtain ⟨hwords, hfield⟩ := append_inj (Table.key_inj.mp h).2
      (by rw [length_schemaWords, length_schemaWords])
    exact ⟨schemaWords_inj.mp hwords, Subtype.ext hfield⟩
  · rintro ⟨⟨rfl, rfl⟩, rfl⟩
    rfl

theorem int32At_ofInt (x : Int32) : int32At (ofInt 4 x.toInt) 0 = x :=
  int32At_of_eq [] x (prefix_refl _) rfl

theorem parseVersion_schemaKey (spaceId id : Int32) (version : Int64) :
    parseVersion kind (schemaKey kind spaceId id version) = version := by
  have hword : int64At (schemaKey kind spaceId id version) (kind.table.bytes.length + 8) =
      Int64.maxValue - version := by
    refine int64At_of_eq (schemaPrefix kind spaceId id) _ (prefix_refl _) ?_
    rw [schemaPrefix, Table.key, length_append, length_schemaWords]
  rw [parseVersion]
  grind

/-- **What is written of a schema is read.** -/
theorem parseSchema_schemaVal (codec : Codec) (name : Name) (schema : Schema) :
    parseSchema codec (schemaVal codec name schema) = schema := by
  have hfits : (Int32.ofInt name.1.length).toInt = name.1.length := by
    rw [Int32.toInt_ofInt_of_le] <;> omega
  have hword : int32At (schemaVal codec name schema) 0 = Int32.ofInt name.1.length := by
    refine int32At_of_eq [] _ ?_ rfl
    rw [hfits]
    exact prefix_append _ _
  have hoffset : (4 + (Int32.ofInt name.1.length).toInt).toNat = 4 + name.1.length := by
    omega
  rw [parseSchema, hword, hoffset, schemaVal, ← append_assoc, drop_left',
    codec.deserialize_serialize]
  rw [length_append, length_ofInt]

/-! ### Writes to a table -/

/-- The operations are puts and removals of keys of one table. -/
def OpsOn (t : Table) (ops : List WriteOp) : Prop :=
  ∀ op ∈ ops, ∃ key, InTable t key ∧ (op = .remove key ∨ ∃ value, op = .put key value)

theorem opsOn_put (h : InTable t key) : OpsOn t [.put key value] := by
  intro op hop
  rw [mem_singleton] at hop
  exact ⟨key, h, .inr ⟨value, hop⟩⟩

/-- **A key of another table stays.** -/
theorem OpsOn.lookup (h : OpsOn t ops) (hk : InTable t' k) (hne : t' ≠ t) (e : Engine) :
    (e.write ops).lookup k = e.lookup k := by
  rw [lookup_write]
  generalize e.lookup k = held
  induction ops with
  | nil => rfl
  | cons op ops ih =>
    obtain ⟨⟨key, hkey, hop⟩, hops⟩ := forall_mem_cons.mp h
    rw [foldl_cons]
    have hsame : op.onKey k held = held := by
      have hkk := hk.ne hkey hne
      rcases hop with rfl | ⟨value, rfl⟩
      · exact if_neg (Ne.symm hkk)
      · exact if_neg (Ne.symm hkk)
    rw [hsame]
    exact ih hops

/-! ### Effects -/

/-- The writes of a creation, without those of the time. -/
def creation (kind : Kind) (codec : Codec) (e : Engine) (req : CreateReq)
    (defaults : List (Name × Bytes)) : List WriteOp :=
  [.put idKey (ofInt 4 (nextId e).toInt)] ++
    ([.put (nameKey kind req.spaceId req.name) (ofInt 4 (nextId e).toInt)] ++
      ([.put (schemaKey kind req.spaceId (nextId e) 0) (schemaVal codec req.name req.schema)] ++
        putDefaults req.spaceId (nextId e) defaults))

def AlterPlan.removals (plan : AlterPlan) (spaceId : Int32) : List WriteOp :=
  plan.removed.map fun field => .remove (defaultKey spaceId plan.id field)

/-- The writes of an alteration, without those of the time. -/
def alteration (kind : Kind) (codec : Codec) (req : AlterReq) (plan : AlterPlan) : List WriteOp :=
  plan.removals req.spaceId ++ (putDefaults req.spaceId plan.id plan.defaults ++
    [.put (schemaKey kind req.spaceId plan.id plan.version) (schemaVal codec req.name plan.schema)])

/-- The removals of a drop, without the write of the time. -/
def removal (kind : Kind) (e : Engine) (req : DropReq) (id : Int32) : List WriteOp :=
  ((e.scan (schemaPrefix kind req.spaceId id)).map fun row => .remove row.1) ++
    [.remove (nameKey kind req.spaceId req.name)]

def Env.answer (env : Env) : ErrorCode := if env.sync then .succeeded else .storeFailure

/-- **All that a request can do**: nothing, take an id for nothing, create, remove default values
and stop, alter, or drop. -/
inductive Effect (codec : Codec) (e : Engine) (env : Env) :
    SchemaReq → List WriteOp → ErrorCode → Prop
  | nothing {req : SchemaReq} {code : ErrorCode} : Effect codec e env req [] code
  | idOnly {kind : Kind} {req : CreateReq} {code : ErrorCode} (hcode : code ≠ .succeeded)
      (hname : nameKey kind req.spaceId req.name ∉ e) (hputId : env.putId = true)
      (hfailed : columnDefaults codec req.schema.columns = .error code ∨ env.write = false) :
      Effect codec e env (.create kind req) [.put idKey (ofInt 4 (nextId e).toInt)] code
  | created {kind : Kind} {req : CreateReq} {defaults : List (Name × Bytes)} {time : List WriteOp}
      (hspace : spaceKey req.spaceId ∈ e) (hname : nameKey kind req.spaceId req.name ∉ e)
      (hputId : env.putId = true)
      (hdefaults : columnDefaults codec req.schema.columns = .ok defaults)
      (htime : OpsOn .lastUpdateTime time) :
      Effect codec e env (.create kind req) (creation kind codec e req defaults ++ time) env.answer
  | removedOnly {kind : Kind} {req : AlterReq} {plan : AlterPlan}
      (hplan : planAlter kind codec e req env.behindEnd = .ok plan) (hremoved : plan.removed ≠ [])
      (hremove : env.remove = true) (hwrite : env.write = false) :
      Effect codec e env (.alter kind req) (plan.removals req.spaceId) .storeFailure
  | altered {kind : Kind} {req : AlterReq} {plan : AlterPlan} {time : List WriteOp}
      (hplan : planAlter kind codec e req env.behindEnd = .ok plan)
      (hremove : plan.removed ≠ [] → env.remove = true) (hwrite : env.write = true)
      (htime : OpsOn .lastUpdateTime time) :
      Effect codec e env (.alter kind req) (alteration kind codec req plan ++ time) env.answer
  | dropped {kind : Kind} {req : DropReq} {id : Int32} {time : List WriteOp}
      (hid : getId e kind req.spaceId req.name = some id)
      (hindexes : getIndexes codec e req.spaceId id = []) (hwrite : env.write = true)
      (htime : OpsOn .lastUpdateTime time) :
      Effect codec e env (.drop kind req) (removal kind e req id ++ time) env.answer

theorem writeAndUpdate_cases (env : Env) (data : List WriteOp) :
    (env.write = false ∧ writeAndUpdate env data = ([], .storeFailure)) ∨
      (env.write = true ∧ ∃ time, OpsOn .lastUpdateTime time ∧
        writeAndUpdate env data = (data ++ time, env.answer)) := by
  rw [writeAndUpdate]
  split
  · rename_i hwrite
    refine .inr ⟨hwrite, _, ?_, rfl⟩
    split
    · exact opsOn_put ⟨_, rfl⟩
    · intro op hop
      cases hop
  · rename_i hwrite
    exact .inl ⟨Bool.eq_false_iff.mpr hwrite, rfl⟩

variable {e : Engine}

theorem columnDefaults_error (h : columnDefaults codec columns = .error code) :
    code ≠ .succeeded := by
  induction columns with
  | nil => cases h
  | cons column columns ih =>
    rw [columnDefaults] at h
    split at h
    · rename_i hcode
      cases h
      unfold defaultText at hcode
      split at hcode
      · cases hcode
      · split at hcode <;> cases hcode <;> decide
    · rename_i hrest
      cases h
      exact ih hrest
    · cases h
    · cases h

theorem createSchema_effect (req : CreateReq) :
    Effect codec e env (.create kind req) (createSchema kind codec e req env).1
      (createSchema kind codec e req env).2 := by
  unfold createSchema
  split
  · exact .nothing
  rename_i hspace
  split
  · exact .nothing
  split
  · exact .nothing
  rename_i hname
  split_ifs with hputId
  · exact .nothing
  rw [Bool.not_eq_false] at hputId
  dsimp only
  split
  · rename_i code hcode
    exact .idOnly (columnDefaults_error hcode) hname hputId (.inl hcode)
  rename_i defaults hdefaults
  rcases writeAndUpdate_cases env (.put (nameKey kind req.spaceId req.name)
      (ofInt 4 (nextId e).toInt) :: .put (schemaKey kind req.spaceId (nextId e) 0)
      (schemaVal codec req.name req.schema) ::
      putDefaults req.spaceId (nextId e) defaults) with
    ⟨hfailed, hwrite⟩ | ⟨-, time, htime, hwrite⟩
  · rw [hwrite]
    exact .idOnly (fun h => by cases h) hname hputId (.inr hfailed)
  · rw [hwrite]
    exact .created (not_not.mp hspace) hname hputId hdefaults htime

theorem alterSchema_effect (req : AlterReq) :
    Effect codec e env (.alter kind req) (alterSchema kind codec e req env).1
      (alterSchema kind codec e req env).2 := by
  unfold alterSchema
  split
  · exact .nothing
  rename_i plan hplan
  have hcases := writeAndUpdate_cases env (putDefaults req.spaceId plan.id plan.defaults ++
    [.put (schemaKey kind req.spaceId plan.id plan.version) (schemaVal codec req.name plan.schema)])
  dsimp only
  split
  · -- no removals
    rename_i hremoved
    rcases hcases with ⟨-, hwrite⟩ | ⟨hdone, time, htime, hwrite⟩
    · rw [hwrite]
      exact .nothing
    rw [hwrite]
    have heffect : Effect codec e env (.alter kind req) _ env.answer :=
      .altered hplan (absurd hremoved) hdone htime
    rw [alteration, AlterPlan.removals, hremoved] at heffect
    exact heffect
  · rename_i hremoved
    split_ifs with hremove
    · rcases hcases with ⟨hfailed, hwrite⟩ | ⟨hdone, time, htime, hwrite⟩
      · rw [hwrite, append_nil]
        exact .removedOnly hplan hremoved hremove hfailed
      rw [hwrite]
      have heffect : Effect codec e env (.alter kind req) _ env.answer :=
        .altered hplan (fun _ => hremove) hdone htime
      rw [alteration, append_assoc] at heffect
      exact heffect
    · exact .nothing

theorem dropSchema_effect (req : DropReq) :
    Effect codec e env (.drop kind req) (dropSchema kind codec e req env).1
      (dropSchema kind codec e req env).2 := by
  unfold dropSchema
  split
  · exact .nothing
  split
  · exact .nothing
  rename_i id hid
  split_ifs with hindexes
  · exact .nothing
  rw [← removal]
  rcases writeAndUpdate_cases env (removal kind e req id) with
    ⟨-, hwrite⟩ | ⟨hdone, time, htime, hwrite⟩
  · rw [hwrite]
    exact .nothing
  · rw [hwrite]
    exact .dropped hid (not_not.mp hindexes) hdone htime

theorem SchemaReq.effect (codec : Codec) (e : Engine) (env : Env) (req : SchemaReq) :
    Effect codec e env req (req.process codec e env).1 (req.process codec e env).2 := by
  cases req with
  | create kind req => exact createSchema_effect kind req
  | alter kind req => exact alterSchema_effect kind req
  | drop kind req => exact dropSchema_effect kind req

/-! ### What is under the keys afterwards -/

theorem lookup_write_put (e : Engine) (key value k : Bytes) :
    (e.write [.put key value]).lookup k = if key = k then some value else e.lookup k :=
  lookup_write e _ k

theorem lookup_write_removeKey (e : Engine) (key k : Bytes) :
    (e.write [.remove key]).lookup k = if key = k then none else e.lookup k :=
  lookup_write e _ k

theorem opsOn_putDefaults (spaceId id : Int32) (defaults : List (Name × Bytes)) :
    OpsOn .defaults (putDefaults spaceId id defaults) := by
  intro op hop
  obtain ⟨x, -, rfl⟩ := mem_map.mp hop
  exact ⟨_, inTable_defaultKey spaceId id x.1, .inr ⟨_, rfl⟩⟩

theorem opsOn_removals (plan : AlterPlan) (spaceId : Int32) :
    OpsOn .defaults (plan.removals spaceId) := by
  intro op hop
  obtain ⟨field, -, rfl⟩ := mem_map.mp hop
  exact ⟨_, inTable_defaultKey spaceId plan.id field, .inl rfl⟩

theorem opsOn_removeScan (e : Engine) (spaceId id : Int32) :
    OpsOn kind.table ((e.scan (schemaPrefix kind spaceId id)).map fun row => .remove row.1) := by
  intro op hop
  obtain ⟨row, hrow, rfl⟩ := mem_map.mp hop
  exact ⟨_, inTable_of_schemaPrefix (mem_scan.mp hrow).2, .inl rfl⟩

section Lookups

variable {kind : Kind} {id : Int32}

section

variable (htime : OpsOn .lastUpdateTime time)
include htime

theorem lookup_creation_schema (hk : InTable kind'.table k) :
    (e.write (creation kind codec e req defaults ++ time)).lookup k =
      if schemaKey kind req.spaceId (nextId e) 0 = k then some (schemaVal codec req.name req.schema)
      else e.lookup k := by
  obtain ⟨hid, hindex, hdefaults, hlast, -⟩ := kind'.table_ne
  rw [write_append, htime.lookup hk hlast, creation, write_append, write_append,
    write_append, (opsOn_putDefaults _ _ _).lookup hk hdefaults, lookup_write_put,
    (opsOn_put (inTable_nameKey ..)).lookup hk hindex, (opsOn_put inTable_idKey).lookup hk hid]

theorem lookup_creation_name (hk : InTable .index k) :
    (e.write (creation kind codec e req defaults ++ time)).lookup k =
      if nameKey kind req.spaceId req.name = k then some (ofInt 4 (nextId e).toInt)
      else e.lookup k := by
  rw [write_append, htime.lookup hk (by decide), creation, write_append,
    write_append, write_append, (opsOn_putDefaults _ _ _).lookup hk (by decide),
    (opsOn_put (inTable_schemaKey ..)).lookup hk kind.table_ne.2.1.symm, lookup_write_put,
    (opsOn_put inTable_idKey).lookup hk (by decide)]

theorem lookup_creation_id :
    (e.write (creation kind codec e req defaults ++ time)).lookup idKey =
      some (ofInt 4 (nextId e).toInt) := by
  rw [write_append, htime.lookup inTable_idKey (by decide), creation, write_append,
    write_append, write_append,
    (opsOn_putDefaults _ _ _).lookup inTable_idKey (by decide),
    (opsOn_put (inTable_schemaKey ..)).lookup inTable_idKey kind.table_ne.1.symm,
    (opsOn_put (inTable_nameKey ..)).lookup inTable_idKey (by decide), lookup_write_put,
    if_pos rfl]

end

section

variable (htime : OpsOn .lastUpdateTime time)
include htime

theorem lookup_alteration_schema (hk : InTable kind'.table k) :
    (e.write (alteration kind codec req plan ++ time)).lookup k =
      if schemaKey kind req.spaceId plan.id plan.version = k then
        some (schemaVal codec req.name plan.schema) else e.lookup k := by
  obtain ⟨-, -, hdefaults, hlast, -⟩ := kind'.table_ne
  rw [write_append, htime.lookup hk hlast, alteration, write_append,
    write_append, lookup_write_put, (opsOn_putDefaults _ _ _).lookup hk hdefaults,
    (opsOn_removals _ _).lookup hk hdefaults]

theorem lookup_alteration_other (hk : InTable t k)
    (ht : t = .index ∨ t = .id ∨ t = .spaces ∨ t = .indexes) :
    (e.write (alteration kind codec req plan ++ time)).lookup k = e.lookup k := by
  obtain ⟨h₁, h₂, h₃, -⟩ : t ≠ .lastUpdateTime ∧ t ≠ kind.table ∧ t ≠ .defaults ∧ True := by
    cases kind <;> rcases ht with rfl | rfl | rfl | rfl <;> decide
  rw [write_append, htime.lookup hk h₁, alteration, write_append,
    write_append, (opsOn_put (inTable_schemaKey ..)).lookup hk h₂,
    (opsOn_putDefaults _ _ _).lookup hk h₃, (opsOn_removals _ _).lookup hk h₃]

theorem lookup_removal_schema (hk : InTable kind'.table k) :
    (e.write (removal kind e req id ++ time)).lookup k =
      if schemaPrefix kind req.spaceId id <+: k then none else e.lookup k := by
  obtain ⟨-, hindex, -, hlast, -⟩ := kind'.table_ne
  rw [write_append, htime.lookup hk hlast, removal, write_append, lookup_write_removeKey,
    if_neg ((inTable_nameKey kind req.spaceId req.name).ne hk hindex.symm)]
  have hmap : ((e.scan (schemaPrefix kind req.spaceId id)).map fun row => WriteOp.remove row.1) =
      ((e.scan (schemaPrefix kind req.spaceId id)).map Prod.fst).map .remove := by
    rw [map_map]
    rfl
  rw [hmap, Storaged.lookup_write_remove]
  by_cases hprefix : schemaPrefix kind req.spaceId id <+: k
  · split
    · rfl
    -- a key that is not met is not there
    rename_i hnot
    by_contra hsome
    obtain ⟨v, hv⟩ := Option.ne_none_iff_exists'.mp hsome
    exact hnot (mem_map.mpr ⟨(k, v), mem_scan.mpr ⟨hv, hprefix⟩, rfl⟩)
  · rw [if_neg hprefix, if_neg]
    intro hmem
    obtain ⟨row, hrow, rfl⟩ := mem_map.mp hmem
    exact hprefix (mem_scan.mp hrow).2

theorem lookup_removal_name (hk : InTable .index k) :
    (e.write (removal kind e req id ++ time)).lookup k =
      if nameKey kind req.spaceId req.name = k then none else e.lookup k := by
  rw [write_append, htime.lookup hk (by decide), removal, write_append,
    lookup_write_removeKey, (opsOn_removeScan _ _ _ _).lookup hk kind.table_ne.2.1.symm]

theorem lookup_removal_id :
    (e.write (removal kind e req id ++ time)).lookup idKey = e.lookup idKey := by
  rw [write_append, htime.lookup inTable_idKey (by decide), removal, write_append,
    lookup_write_removeKey, if_neg ((inTable_nameKey ..).ne inTable_idKey (by decide)),
    (opsOn_removeScan _ _ _ _).lookup inTable_idKey kind.table_ne.1.symm]

end

/-- **Spaces and indexes stay.** -/
theorem Effect.lookup_fixed {req : SchemaReq} (h : Effect codec e env req ops code)
    (hk : InTable t k) (ht : t = .spaces ∨ t = .indexes) : (e.write ops).lookup k = e.lookup k := by
  obtain ⟨hid, hindex, hdefaults, hlast, hkind⟩ : t ≠ .id ∧ t ≠ .index ∧ t ≠ .defaults ∧
      t ≠ .lastUpdateTime ∧ ∀ kind : Kind, t ≠ kind.table := by
    rcases ht with rfl | rfl <;>
      exact ⟨by decide, by decide, by decide, by decide, fun kind => by cases kind <;> decide⟩
  cases h with
  | nothing => rfl
  | idOnly => exact (opsOn_put inTable_idKey).lookup hk hid e
  | @created kind req defaults time hspace hname hputId hdef htime =>
    rw [write_append, htime.lookup hk hlast, creation, write_append,
      write_append, write_append, (opsOn_putDefaults _ _ _).lookup hk hdefaults,
      (opsOn_put (inTable_schemaKey ..)).lookup hk (hkind kind),
      (opsOn_put (inTable_nameKey ..)).lookup hk hindex, (opsOn_put inTable_idKey).lookup hk hid]
  | removedOnly => exact (opsOn_removals _ _).lookup hk hdefaults e
  | altered hplan hremove hwrite htime =>
    exact lookup_alteration_other htime hk (ht.elim (.inr ∘ .inr ∘ .inl) (.inr ∘ .inr ∘ .inr))
  | @dropped kind req id time hget hindexes hwrite htime =>
    rw [write_append, htime.lookup hk hlast, removal, write_append,
      lookup_write_removeKey, if_neg ((inTable_nameKey ..).ne hk hindex.symm),
      (opsOn_removeScan _ _ _ _).lookup hk (hkind kind)]

end Lookups

end K2Graph.Metad
