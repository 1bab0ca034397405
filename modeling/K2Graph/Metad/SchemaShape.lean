import K2Graph.Metad.SchemaVersions

/-!
# Well-formed schemas

In the latest version of a tag or an edge the names of the columns are different, the TTL column is
a column of integers or timestamps, and the default values in the store are those of the columns
that have one; and a request that is refused changes nothing.  This does not hold of every run:

* a creation checks neither the names of the columns nor the TTL column, and takes an id before it
  looks at the default values;
* when a column is dropped, its default value is removed if the column *behind* it has one;
* the default values that an alteration removes are removed before others are put, so a default
  value that an item gives and a later item takes stays;
* a drop leaves the default values where they are;
* a write that fails behind another one that succeeded leaves the first one.

## Main results

* `EditInv.step` — one item of an alteration.
* `Shaped.step` — one request.
* `wellFormed_of_soundSteps` — **in every run of such requests the store is well formed, and what is
  refused changes nothing.**
-/

namespace K2Graph.Metad

open List LittleEndian Kvstore

/-! ### Schemas -/

/-- The columns have a default value for the field. -/
def Declared (columns : List ColumnDef) (field : Name) : Prop :=
  ∃ c ∈ columns, c.name = field ∧ c.defaultValue.isSome = true

def SchemaProp.NoTtl (prop : SchemaProp) : Prop := ∀ c ∈ prop.ttlCol, c.1 = []

/-- The TTL column is a column of integers or timestamps. -/
def TtlOk (columns : List ColumnDef) (prop : SchemaProp) : Prop :=
  ∀ ttlCol ∈ prop.ttlCol, ttlCol.1 = [] ∨
    ∃ c ∈ columns, c.name = ttlCol ∧ (c.type = .int ∨ c.type = .timestamp)

structure Sound (schema : Schema) : Prop where
  unique : (schema.columns.map ColumnDef.name).Nodup
  ttl : TtlOk schema.columns schema.prop

/-! ### One item of an alteration -/

/-- What is read behind a column that was erased. -/
def flagBehind (behindEnd : List ColumnDef → Bool) (columns post : List ColumnDef) : Bool :=
  match post with
  | c :: _ => c.defaultValue.isSome
  | [] => behindEnd columns

/-- The item gives its column a default value. -/
def gives (x : AlterOp × ColumnDef) : Prop := x.1 ≠ .drop ∧ x.2.defaultValue.isSome = true

/-- A column with a default value is dropped only if the column behind it has one. -/
def DropsOk (codec : Codec) (behindEnd : List ColumnDef → Bool) :
    Edit → List (AlterOp × ColumnDef) → Prop
  | _, [] => True
  | edit, x :: changes =>
      (x.1 = .drop → ∀ pre c post, edit.columns = pre ++ c :: post → c.name = x.2.name →
        c.defaultValue.isSome = true → flagBehind behindEnd edit.columns post = true) ∧
      ∀ edit', alterColumnDefs codec behindEnd edit x.1 x.2 = .ok edit' →
        DropsOk codec behindEnd edit' changes

variable {columns : List ColumnDef}

section Items

variable {codec : Codec} {edit : Edit}

theorem exists_split_of_findIdx? (h : (columns.findIdx? fun c => c.name = name) = some i) :
    ∃ pre c post, columns = pre ++ c :: post ∧ pre.length = i ∧ c.name = name := by
  obtain ⟨hi, hname, -⟩ := findIdx?_eq_some_iff_getElem.mp h
  refine ⟨columns.take i, columns[i], columns.drop (i + 1), ?_, ?_, of_decide_eq_true hname⟩
  · rw [← drop_eq_getElem_cons hi, take_append_drop]
  · rw [length_take, min_eq_left hi.le]

theorem defaultText_isSome (h : defaultText codec unknownType column = .ok text) :
    text.isSome = column.defaultValue.isSome := by
  unfold defaultText at h
  split at h
  · rename_i hnone
    cases h
    rw [hnone]
    rfl
  · rename_i value hsome
    rw [hsome]
    split at h <;> cases h
    all_goals rfl

theorem alterColumnDefs_cases (h : alterColumnDefs codec behindEnd edit op column = .ok edit') :
    ∃ given : List (Name × Bytes),
      given.map Prod.fst = (if column.defaultValue.isSome then [column.name] else []) ∧
      ((op = .add ∧ (∀ c ∈ edit.columns, c.name ≠ column.name) ∧
          edit' = ⟨edit.columns ++ [column], edit.prop, edit.defaults ++ given, edit.removed⟩) ∨
        (op = .change ∧ ∃ pre c post, edit.columns = pre ++ c :: post ∧ c.name = column.name ∧
          edit.prop.ttlCol ≠ some column.name ∧
          edit' = ⟨pre ++ column :: post, edit.prop, edit.defaults ++ given,
            edit.removed ++ if column.defaultValue.isSome then [] else [column.name]⟩) ∨
        (op = .drop ∧ ∃ pre c post, edit.columns = pre ++ c :: post ∧ c.name = column.name ∧
          edit' = ⟨pre ++ post,
            if edit.prop.ttlCol =
              some column.name then ⟨some 0, some ⟨[], by decide⟩⟩ else edit.prop,
            edit.defaults,
            edit.removed ++
              if flagBehind behindEnd edit.columns post then [column.name] else []⟩)) := by
  unfold alterColumnDefs at h
  cases htext : defaultText codec .conflict column with
  | error code =>
    rw [htext] at h
    cases h
  | ok text =>
    rw [htext] at h
    have hsome := defaultText_isSome htext
    refine ⟨(text.map fun text => (column.name, text)).toList, ?_, ?_⟩
    · rw [← hsome]
      cases text <;> rfl
    cases hfound : edit.columns.findIdx? (fun c => c.name = column.name) with
    | none =>
      rw [hfound] at h
      cases op with
      | add =>
        cases h
        refine .inl ⟨rfl, fun c hc heq => ?_, rfl⟩
        have := findIdx?_eq_none_iff.mp hfound c hc
        exact of_decide_eq_false this heq
      | change | drop | unknown => cases h
    | some i =>
      rw [hfound] at h
      obtain ⟨pre, c, post, hsplit, rfl, hname⟩ := exists_split_of_findIdx? hfound
      cases op with
      | add | unknown => cases h
      | change =>
        simp only at h
        split at h
        · cases h
        rename_i httl
        cases h
        refine .inr (.inl ⟨rfl, pre, c, post, hsplit, hname, httl, ?_⟩)
        rw [hsplit, set_append_right _ _ le_rfl, Nat.sub_self, set_cons_zero, hsome]
      | drop =>
        cases h
        refine .inr (.inr ⟨rfl, pre, c, post, hsplit, hname, ?_⟩)
        have herase : edit.columns.eraseIdx pre.length = pre ++ post := by
          rw [hsplit, eraseIdx_append_of_length_le le_rfl, Nat.sub_self, eraseIdx_cons_zero]
        have hbehind : (pre ++ post)[pre.length]? = post.head? := by
          rw [getElem?_append_right le_rfl, Nat.sub_self, head?_eq_getElem?]
        rw [herase, hbehind]
        cases post with
        | nil => rfl
        | cons c post => rfl

/-- What holds while the items are worked off, `old` being the fields that had a default value
before: the default values that are put and not removed are those that are declared now, and what
is put is not taken back by an item that is left. -/
structure EditInv (old : Name → Prop) (edit : Edit) (left : List (AlterOp × ColumnDef)) : Prop where
  unique : (edit.columns.map ColumnDef.name).Nodup
  ttl : TtlOk edit.columns edit.prop
  keys : ∀ field, Declared edit.columns field ↔
    field ∈ edit.defaults.map Prod.fst ∨ (old field ∧ field ∉ edit.removed)
  later : ∀ field ∈ edit.defaults.map Prod.fst, ∀ x ∈ left, x.2.name = field → gives x

theorem declared_append :
    Declared (columns ++ columns') field ↔ Declared columns field ∨ Declared columns' field := by
  simp [Declared, or_and_right, exists_or]

theorem declared_cons :
    Declared (c :: columns) field ↔
      (c.name = field ∧ c.defaultValue.isSome = true) ∨ Declared columns field := by
  simp [Declared, or_and_right, exists_or]

theorem not_declared_nil : ¬ Declared [] field := by
  rintro ⟨c, hc, -⟩
  cases hc

theorem nodup_split (h : ((pre ++ c :: post).map ColumnDef.name).Nodup) :
    c.name ∉ (pre ++ post).map ColumnDef.name ∧ ((pre ++ post).map ColumnDef.name).Nodup := by
  rw [map_append, map_cons, nodup_middle, nodup_cons, ← map_append] at h
  exact h

theorem declared_middle :
    Declared (pre ++ c :: post) field ↔
      (c.name = field ∧ c.defaultValue.isSome = true) ∨ Declared (pre ++ post) field := by
  rw [declared_append, declared_cons, declared_append, or_left_comm]

theorem TtlOk.remove (h : TtlOk (pre ++ c :: post) prop) (hne : prop.ttlCol ≠ some c.name)
    (hsub : ∀ c' ∈ pre ++ post, c' ∈ columns') : TtlOk columns' prop := by
  intro ttlCol hcol
  refine (h ttlCol hcol).imp_right fun ⟨c', hc', hname', htype⟩ => ⟨c', ?_, hname', htype⟩
  rcases mem_append.mp hc' with hc' | hc'
  · exact hsub c' (mem_append_left _ hc')
  · rcases mem_cons.mp hc' with rfl | hc'
    · exact absurd (hname'.symm ▸ hcol) hne
    · exact hsub c' (mem_append_right _ hc')

section

variable (h : EditInv old edit left) (hsplit : edit.columns = pre ++ c :: post)
include h hsplit

theorem EditInv.not_declared : ¬ Declared (pre ++ post) c.name := by
  rintro ⟨c', hc', hname, -⟩
  exact (nodup_split (hsplit ▸ h.unique)).1 (hname ▸ mem_map_of_mem hc')

theorem EditInv.declared_other (hne : c.name ≠ field) : Declared (pre ++ post) field ↔
    field ∈ edit.defaults.map Prod.fst ∨ (old field ∧ field ∉ edit.removed) := by
  rw [← h.keys, hsplit, declared_middle, or_iff_right fun hc => hne hc.1]

end

/-- **One item keeps what holds while the items are worked off.** -/
theorem EditInv.step {left : List (AlterOp × ColumnDef)}
    (h : EditInv old edit ((op, column) :: left))
    (hpair : ∀ y ∈ left, column.name = y.2.name → gives (op, column) → gives y)
    (hdrop : op = .drop → ∀ pre c post, edit.columns = pre ++ c :: post → c.name = column.name →
      c.defaultValue.isSome = true → flagBehind behindEnd edit.columns post = true)
    (hstep : alterColumnDefs codec behindEnd edit op column = .ok edit') :
    EditInv old edit' left := by
  obtain ⟨given, hgiven, hcases⟩ := alterColumnDefs_cases hstep
  have hmem (field : Name) : field ∈ given.map Prod.fst ↔
      column.name = field ∧ column.defaultValue.isSome = true := by
    rw [hgiven]
    cases column.defaultValue.isSome <;> simp [eq_comm]
  have hlater : ∀ field ∈ edit.defaults.map Prod.fst, ∀ x ∈ left, x.2.name = field → gives x :=
    fun field hfield x hx => h.later field hfield x (mem_cons_of_mem _ hx)
  -- what the item gives is not taken back
  have hlater' (hop : op ≠ .drop) :
      ∀ field ∈ (edit.defaults ++ given).map Prod.fst, ∀ x ∈ left, x.2.name = field → gives x := by
    intro field hfield x hx hname
    rw [map_append, mem_append] at hfield
    rcases hfield with hfield | hfield
    · exact hlater field hfield x hx hname
    · obtain ⟨rfl, hsome⟩ := (hmem field).mp hfield
      exact hpair x hx hname.symm ⟨hop, hsome⟩
  rcases hcases with ⟨rfl, hfree, rfl⟩ | ⟨rfl, pre, c, post, hsplit, hname, httl, rfl⟩ |
    ⟨rfl, pre, c, post, hsplit, hname, rfl⟩
  · -- a new column
    refine ⟨?_, ?_, fun field => ?_, hlater' (by decide)⟩
    · rw [map_append, nodup_append]
      refine ⟨h.unique, nodup_singleton _, ?_⟩
      rintro a ha b hb rfl
      obtain ⟨c, hc, rfl⟩ := mem_map.mp ha
      exact hfree c hc (mem_singleton.mp hb)
    · intro ttlCol hcol
      refine (h.ttl ttlCol hcol).imp_right fun ⟨c, hc, hrest⟩ => ?_
      exact ⟨c, mem_append_left _ hc, hrest⟩
    · rw [declared_append, declared_cons, or_iff_left not_declared_nil, h.keys, map_append,
        mem_append, hmem, or_right_comm]
  · -- another column in the place of one
    obtain ⟨hnotMem, hrest⟩ := nodup_split (hsplit ▸ h.unique)
    refine ⟨?_, ?_, fun field => ?_, hlater' (by decide)⟩
    · rw [map_append, map_cons, nodup_middle, nodup_cons, ← map_append, ← hname]
      exact ⟨hnotMem, hrest⟩
    · refine (hsplit ▸ h.ttl).remove (hname ▸ httl) fun c' hc' => ?_
      rw [mem_append, mem_cons]
      exact (mem_append.mp hc').imp_right .inr
    rw [declared_middle, map_append, mem_append, hmem]
    by_cases heq : column.name = field
    · subst heq
      cases hsome : column.defaultValue.isSome with
      | true => simp
      | false =>
        -- nothing was put for it, or this item would have to give a default value
        have hput : column.name ∉ edit.defaults.map Prod.fst := by
          intro hput
          have := (h.later _ hput _ mem_cons_self rfl).2
          rw [hsome] at this
          cases this
        simp [hname ▸ h.not_declared hsplit, hput]
    · rw [h.declared_other hsplit (hname ▸ heq)]
      have hnot : field ∉ (if column.defaultValue.isSome = true then [] else [column.name]) := by
        split <;> simp [Ne.symm heq]
      simp [heq, hnot]
  · -- a column less
    refine ⟨(nodup_split (hsplit ▸ h.unique)).2, ?_, fun field => ?_, hlater⟩
    · split
      · intro ttlCol hcol
        cases hcol
        exact .inl rfl
      · rename_i httl
        exact (hsplit ▸ h.ttl).remove (hname ▸ httl) fun _ hc' => hc'
    rw [mem_append, not_or]
    by_cases heq : column.name = field
    · subst heq
      have hnot := hname ▸ h.not_declared hsplit
      have hput : column.name ∉ edit.defaults.map Prod.fst := fun hput =>
        (h.later _ hput _ mem_cons_self rfl).1 rfl
      refine iff_of_false hnot ?_
      rintro (hput' | ⟨hold, hremoved, hflag⟩)
      · exact hput hput'
      -- its default value is removed, since the flag is set
      have hdeclared := (h.keys column.name).mpr (.inr ⟨hold, hremoved⟩)
      rw [hsplit, declared_middle, or_iff_left hnot] at hdeclared
      rw [hdrop rfl pre c post hsplit hname hdeclared.2] at hflag
      exact hflag (mem_singleton.mpr rfl)
    · have hnot : field ∉ (if flagBehind behindEnd edit.columns post = true then [column.name]
          else []) := by
        split <;> simp [Ne.symm heq]
      rw [h.declared_other hsplit (hname ▸ heq)]
      simp [hnot]

/-- **All items**, by induction on those that are left. -/
theorem EditInv.run (h : EditInv old edit changes)
    (hpair : changes.Pairwise fun x y => x.2.name = y.2.name → gives x → gives y)
    (hdrops : DropsOk codec behindEnd edit changes)
    (hrun : changes.foldlM (fun edit x => alterColumnDefs codec behindEnd edit x.1 x.2) edit =
      .ok edit') :
    EditInv old edit' [] := by
  induction changes generalizing edit with
  | nil =>
    cases hrun
    exact h
  | cons x changes ih =>
    obtain ⟨hx, hpair⟩ := pairwise_cons.mp hpair
    obtain ⟨edit₁, hstep, hrun⟩ := exists_of_bind_eq_ok hrun
    exact ih (h.step hx hdrops.1 hstep) hpair (hdrops.2 edit₁ hstep) hrun

end Items

/-! ### An alteration -/

variable {plan : AlterPlan}

section Alteration

variable {codec : Codec} {behindEnd : List ColumnDef → Bool}

theorem alterSchemaProp_ttlOk (h : TtlOk columns prop)
    (halter : alterSchemaProp columns prop alter existIndex = .ok prop') : TtlOk columns prop' := by
  unfold alterSchemaProp at halter
  split at halter
  · cases halter
  simp only at halter
  split at halter
  · -- the TTL column stays
    split at halter
    · cases halter
    · cases halter
      exact h
  split at halter
  · rename_i hempty
    cases halter
    intro ttlCol hcol
    cases hcol
    exact .inl hempty
  split at halter
  · cases halter
  rename_i c hfound
  split at halter
  · cases halter
  rename_i htype
  split at halter
  · cases halter
  cases halter
  intro ttlCol hcol
  cases hcol
  refine .inr ⟨c, mem_of_find?_eq_some hfound, ?_, ?_⟩
  · have hname := find?_some hfound
    exact of_decide_eq_true hname
  · by_contra hnot
    exact htype (not_or.mp hnot)

/-- What an alteration has to meet: no default value that an item gives is taken back by a later
one, a column with a default value is dropped only if the column behind it has one, and a TTL
column and an index do not go together. -/
structure AlterOk (codec : Codec) (behindEnd : List ColumnDef → Bool) (indexes : List IndexItem)
    (req : AlterReq) (schema : Schema) : Prop where
  kept : req.changes.Pairwise fun x y => x.2.name = y.2.name → gives x → gives y
  drops : DropsOk codec behindEnd ⟨schema.columns, schema.prop, [], []⟩ req.changes
  noTtl : indexes ≠ [] → schema.prop.NoTtl

/-- **An alteration keeps a schema sound**, and the default values are those of its columns. -/
theorem alterFrom_sound {id : Int32} (hsound : Sound schema)
    (hok : AlterOk codec behindEnd indexes req schema)
    (h : alterFrom codec behindEnd indexes req id v schema = .ok plan) :
    Sound plan.schema ∧ ∀ field, Declared plan.schema.columns field ↔
      field ∈ plan.defaults.map Prod.fst ∨
        (Declared schema.columns field ∧ field ∉ plan.removed) := by
  have hinv :
    EditInv (Declared schema.columns) ⟨schema.columns, schema.prop, [], []⟩ req.changes := by
    refine ⟨hsound.unique, hsound.ttl, fun field => ?_, fun field hfield => ?_⟩
    · simp
    · cases hfield
  unfold alterFrom at h
  split at h
  · cases h
  split at h
  · cases h
  rename_i edit hedit
  have hfinal := hinv.run hok.kept hok.drops hedit
  split at h
  · cases h
  rename_i prop hprop
  cases h
  refine ⟨⟨hfinal.unique, ?_⟩, hfinal.keys⟩
  split_ifs with hindexes
  · exact alterSchemaProp_ttlOk hfinal.ttl hprop
  · exact fun c hc => .inl (hok.noTtl hindexes c hc)

end Alteration

/-! ### Default values in the store -/

variable {defaults : List (Name × Bytes)}

section Defaults

variable {codec : Codec} {e : Engine} {id : Int32}

theorem exists_defaultKey_eq {fields : List Name} :
    (∃ f ∈ fields, defaultKey spaceId id field = defaultKey spaceId' id' f) ↔
      (spaceId = spaceId' ∧ id = id') ∧ field ∈ fields := by
  constructor
  · rintro ⟨f, hf, heq⟩
    obtain ⟨hid, rfl⟩ := defaultKey_inj.mp heq
    exact ⟨hid, hf⟩
  · rintro ⟨⟨rfl, rfl⟩, hf⟩
    exact ⟨field, hf, rfl⟩

theorem mem_write_putDefaults :
    k ∈ e.write (putDefaults spaceId id defaults) ↔
      (∃ f ∈ defaults.map Prod.fst, k = defaultKey spaceId id f) ∨ k ∈ e := by
  induction defaults generalizing e with
  | nil =>
    rw [or_iff_right]
    · rfl
    · rintro ⟨f, hf, -⟩
      cases hf
  | cons x defaults ih =>
    have hcons : e.write (putDefaults spaceId id (x :: defaults)) =
        Engine.write (e.insert (defaultKey spaceId id x.1) x.2) (putDefaults spaceId id defaults) :=
      rfl
    rw [hcons, ih, AList.mem_insert, map_cons, exists_mem_cons_iff, or_left_comm, or_assoc]

theorem mem_write_removals :
    k ∈ e.write (plan.removals spaceId) ↔
      ¬ (∃ f ∈ plan.removed, k = defaultKey spaceId plan.id f) ∧ k ∈ e := by
  have hmap : plan.removals spaceId =
      (plan.removed.map fun field => defaultKey spaceId plan.id field).map .remove := by
    rw [map_map]
    rfl
  have hmem : k ∈ (plan.removed.map fun f => defaultKey spaceId plan.id f) ↔
      ∃ f ∈ plan.removed, k = defaultKey spaceId plan.id f := by
    simp [eq_comm]
  rw [← AList.lookup_isSome, hmap, Storaged.lookup_write_remove, ← hmem]
  by_cases hin : k ∈ plan.removed.map fun f => defaultKey spaceId plan.id f
  · rw [if_pos hin]
    exact iff_of_false (by simp) fun h => h.1 hin
  · rw [if_neg hin, AList.lookup_isSome, and_iff_right hin]

theorem OpsOn.mem_iff (h : OpsOn t ops) (hk : InTable t' k) (hne : t' ≠ t) (e : Engine) :
    k ∈ e.write ops ↔ k ∈ e :=
  mem_of_lookup_eq (h.lookup hk hne e)

section

variable (htime : OpsOn .lastUpdateTime time)
include htime

theorem mem_creation_default (hk : InTable .defaults k) :
    k ∈ e.write (creation kind codec e req defaults ++ time) ↔
      (∃ f ∈ defaults.map Prod.fst, k = defaultKey req.spaceId (nextId e) f) ∨ k ∈ e := by
  rw [Engine.write_append, htime.mem_iff hk (by decide), creation, Engine.write_append,
    Engine.write_append, Engine.write_append, mem_write_putDefaults,
    (opsOn_put (inTable_schemaKey ..)).mem_iff hk kind.table_ne.2.2.1.symm,
    (opsOn_put (inTable_nameKey ..)).mem_iff hk (by decide),
    (opsOn_put inTable_idKey).mem_iff hk (by decide)]

theorem mem_alteration_default (hk : InTable .defaults k) :
    k ∈ e.write (alteration kind codec req plan ++ time) ↔
      (∃ f ∈ plan.defaults.map Prod.fst, k = defaultKey req.spaceId plan.id f) ∨
        (¬ (∃ f ∈ plan.removed, k = defaultKey req.spaceId plan.id f) ∧ k ∈ e) := by
  rw [Engine.write_append, htime.mem_iff hk (by decide), alteration, Engine.write_append,
    Engine.write_append, (opsOn_put (inTable_schemaKey ..)).mem_iff hk kind.table_ne.2.2.1.symm,
    mem_write_putDefaults, mem_write_removals]

theorem mem_removal_default (hk : InTable .defaults k) :
    k ∈ e.write (removal kind e req id' ++ time) ↔ k ∈ e := by
  rw [Engine.write_append, htime.mem_iff hk (by decide), removal, Engine.write_append,
    ← AList.lookup_isSome, lookup_write_removeKey,
    if_neg ((inTable_nameKey ..).ne hk (by decide)), AList.lookup_isSome,
    (opsOn_removeScan _ _ _ _).mem_iff hk kind.table_ne.2.2.1.symm]

end

theorem mem_columnDefaults (h : columnDefaults codec columns = .ok defaults) :
    field ∈ defaults.map Prod.fst ↔ Declared columns field := by
  induction columns generalizing defaults with
  | nil =>
    cases h
    exact iff_of_false not_mem_nil not_declared_nil
  | cons column columns ih =>
    rw [columnDefaults] at h
    rw [declared_cons]
    split at h
    · cases h
    · cases h
    · rename_i texts htext htexts
      cases h
      have hnone := defaultText_isSome htext
      rw [ih htexts, ← hnone]
      simp
    · rename_i text texts htext htexts
      cases h
      have hsome := defaultText_isSome htext
      rw [map_cons, mem_cons, ih htexts, ← hsome]
      simp [eq_comm]

end Defaults

/-! ### Stores -/

section Stores

variable (codec : Codec) (e : Engine)

/-- **A well-formed store**: every tag and edge has a latest version that is sound, and the default
values are those of the columns of these versions. -/
structure WellFormed : Prop where
  latest : ∀ {kind spaceId name id}, getId e kind spaceId name = some id →
    ∃ schema, getLatestSchema codec e kind spaceId id = some schema ∧ Sound schema
  defaults : ∀ {key}, InTable .defaults key → (key ∈ e ↔
    ∃ kind spaceId name id schema field, getId e kind spaceId name = some id ∧
      getLatestSchema codec e kind spaceId id = some schema ∧ Declared schema.columns field ∧
      key = defaultKey spaceId id field)

/-- **What a request has to meet.** -/
def SoundStep (a : SchemaReq × Env) : Prop :=
  match a.1 with
  | .create kind req =>
      lastId e < Int32.maxValue ∧
        (nameKey kind req.spaceId req.name ∉ e →
          -- the names and the TTL column are not checked, and the default values too late
          Sound req.schema ∧ (∃ defaults, columnDefaults codec req.schema.columns = .ok defaults) ∧
            (a.2.putId = true → a.2.write = true ∧ a.2.sync = true))
  | .alter kind req =>
      ∀ v schema plan, planAlter kind codec e req a.2.behindEnd = .ok plan →
        firstVersion codec e kind req.spaceId plan.id = some (v, schema) →
        v.toInt < 255 ∧
          AlterOk codec a.2.behindEnd (getIndexes codec e req.spaceId plan.id) req schema ∧
          (plan.removed ≠ [] → a.2.remove = true → a.2.write = true) ∧
          (a.2.write = true → a.2.sync = true)
  | .drop kind req =>
      ∀ id, getId e kind req.spaceId req.name = some id →
        getIndexes codec e req.spaceId id = [] →
        (∀ schema, getLatestSchema codec e kind req.spaceId id = some schema →
          ∀ field, ¬ Declared schema.columns field) ∧
        (a.2.write = true → a.2.sync = true)

/-- What holds of a tag or an edge: at most 255 alterations, a latest version that is sound, and
the default values of its columns. -/
def TagShaped (kind : Kind) (spaceId id : Int32) : Prop :=
  ∃ t : Track, Versions codec kind spaceId id e t ∧ t.written ≤ 255 ∧ Sound t.newest ∧
    ∀ field, defaultKey spaceId id field ∈ e ↔ Declared t.newest.columns field

/-- What all requests keep that meet the condition. -/
structure Shaped : Prop where
  ids : IdsKnown e
  tag : ∀ {kind spaceId name id}, getId e kind spaceId name = some id →
    TagShaped codec e kind spaceId id
  owned : ∀ {key}, InTable .defaults key → key ∈ e →
    ∃ kind spaceId name id field, getId e kind spaceId name = some id ∧
      key = defaultKey spaceId id field

end Stores

section Steps

variable {codec : Codec} {e e' : Engine} {env : Env} {id : Int32}

theorem TagShaped.congr (h : TagShaped codec e kind spaceId id)
    (hschema : ∀ v, e'.lookup (schemaKey kind spaceId id v) =
      e.lookup (schemaKey kind spaceId id v))
    (hdefault : ∀ field, defaultKey spaceId id field ∈ e' ↔ defaultKey spaceId id field ∈ e) :
    TagShaped codec e' kind spaceId id := by
  obtain ⟨t, hversions, hle, hsound, hkeys⟩ := h
  exact ⟨t, hversions.congr hschema, hle, hsound, fun field => (hdefault field).trans (hkeys field)⟩

section

variable (h : Shaped codec e)
include h

theorem Shaped.latest (hid : getId e kind spaceId name = some id) :
    ∃ schema, getLatestSchema codec e kind spaceId id = some schema ∧ Sound schema ∧
      ∀ field, defaultKey spaceId id field ∈ e ↔ Declared schema.columns field := by
  obtain ⟨t, hversions, hle, hsound, hkeys⟩ := h.tag hid
  obtain ⟨schema, -, hlatest, hnewest⟩ := hversions.firstVersion_eq h.ids
  obtain rfl := hnewest hle
  exact ⟨_, hlatest, hsound, hkeys⟩

theorem Shaped.wellFormed : WellFormed codec e where
  latest hid := by
    obtain ⟨schema, hlatest, hsound, -⟩ := h.latest hid
    exact ⟨schema, hlatest, hsound⟩
  defaults hkey := by
    constructor
    · intro hmem
      obtain ⟨kind, spaceId, name, id, field, hid, rfl⟩ := h.owned hkey hmem
      obtain ⟨schema, hlatest, -, hkeys⟩ := h.latest hid
      exact ⟨kind, spaceId, name, id, schema, field, hid, hlatest, (hkeys field).mp hmem, rfl⟩
    · rintro ⟨kind, spaceId, name, id, schema, field, hid, hlatest, hdeclared, rfl⟩
      obtain ⟨schema', hlatest', -, hkeys⟩ := h.latest hid
      obtain rfl := Option.some.inj (hlatest.symm.trans hlatest')
      exact (hkeys field).mpr hdeclared

theorem Shaped.creation (hlt : lastId e < nextId e) (hsound : Sound req.schema)
    (hdefaults : columnDefaults codec req.schema.columns = .ok defaults)
    (hname : nameKey kind req.spaceId req.name ∉ e) (htime : OpsOn .lastUpdateTime time)
    (hids : IdsKnown (e.write (Metad.creation kind codec e req defaults ++ time))) :
    Shaped codec (e.write (Metad.creation kind codec e req defaults ++ time)) := by
  -- no default value of the new id is there
  have hfresh (spaceId : Int32) (field : Name) : defaultKey spaceId (nextId e) field ∉ e := by
    intro hmem
    obtain ⟨kind', spaceId', name', id', field', hid', heq⟩ := h.owned (inTable_defaultKey ..) hmem
    obtain ⟨⟨-, rfl⟩, -⟩ := defaultKey_inj.mp heq
    exact h.ids.ne_nextId hlt hid' rfl
  refine ⟨hids, fun {kind' spaceId name id} hid => ?_, fun {key} hkey hmem => ?_⟩
  · rw [getId_creation htime] at hid
    split_ifs at hid with heq
    · obtain ⟨rfl, rfl, rfl⟩ := heq
      cases hid
      refine ⟨⟨0, 0, req.schema⟩, versions_creation h.ids hlt htime, Nat.zero_le _, hsound,
        fun field => ?_⟩
      rw [mem_creation_default htime (inTable_defaultKey ..), or_iff_left (hfresh _ _),
        exists_defaultKey_eq, and_iff_right ⟨rfl, rfl⟩, mem_columnDefaults hdefaults]
    · have hne := h.ids.ne_nextId hlt hid
      refine (h.tag hid).congr (fun v => ?_) fun field => ?_
      · rw [lookup_creation_schema htime (inTable_schemaKey ..), if_neg]
        exact fun heq => hne (schemaKey_inj.mp heq).1.2.2.symm
      · rw [mem_creation_default htime (inTable_defaultKey ..), exists_defaultKey_eq, or_iff_right]
        exact fun heq => hne heq.1.2
  · rcases (mem_creation_default htime hkey).mp hmem with ⟨field, -, rfl⟩ | hold
    · refine ⟨kind, req.spaceId, req.name, nextId e, field, ?_, rfl⟩
      rw [getId_creation htime, if_pos ⟨rfl, rfl, rfl⟩]
    obtain ⟨kind', spaceId, name, id, field, hid, rfl⟩ := h.owned hkey hold
    refine ⟨kind', spaceId, name, id, field, ?_, rfl⟩
    rw [getId_creation htime, if_neg, hid]
    rintro ⟨rfl, rfl, rfl⟩
    rw [getId_eq_none.mpr hname] at hid
    cases hid

theorem Shaped.alteration (hplan : planAlter kind codec e req behindEnd = .ok plan)
    (hok : ∀ v schema, firstVersion codec e kind req.spaceId plan.id = some (v, schema) →
      v.toInt < 255 ∧ AlterOk codec behindEnd (getIndexes codec e req.spaceId plan.id) req schema)
    (htime : OpsOn .lastUpdateTime time)
    (hids : IdsKnown (e.write (Metad.alteration kind codec req plan ++ time))) :
    Shaped codec (e.write (Metad.alteration kind codec req plan ++ time)) := by
  obtain ⟨-, hplanId, v, schema, hfirst, hversion, hfrom⟩ := planAlter_eq_ok hplan
  obtain ⟨hv, halter⟩ := hok v schema hfirst
  obtain ⟨t, hversions, hle, hsound, hkeys⟩ := h.tag hplanId
  obtain ⟨schema', hfirst', -, hnewest⟩ := hversions.firstVersion_eq h.ids
  obtain ⟨rfl, rfl⟩ := Prod.mk.inj (Option.some.inj (hfirst.symm.trans hfirst'))
  obtain rfl := hnewest hle
  rw [toInt_version (by omega)] at hv
  obtain ⟨hsound', hdeclared⟩ := alterFrom_sound hsound halter hfrom
  have hget (kind' : Kind) (spaceId : Int32) (name : Name) :
      getId (e.write (Metad.alteration kind codec req plan ++ time)) kind' spaceId name =
        getId e kind' spaceId name :=
    getId_congr (lookup_alteration_other htime (inTable_nameKey ..) (.inl rfl))
  refine ⟨hids, fun {kind' spaceId name id} hid => ?_, fun {key} hkey hmem => ?_⟩
  · rw [hget] at hid
    by_cases habout : id = plan.id
    · subst habout
      obtain ⟨rfl, rfl, rfl⟩ := h.ids.name_inj hplanId hid
      refine ⟨⟨0, t.written + 1, plan.schema⟩,
        hversions.alteration h.ids rfl rfl hplan htime (Nat.zero_le _), ?_, hsound',
          fun field => ?_⟩
      · show t.written + 1 ≤ 255
        omega
      have hown (fields : List Name) : (∃ f ∈ fields, defaultKey req.spaceId plan.id field =
          defaultKey req.spaceId plan.id f) ↔ field ∈ fields := by
        rw [exists_defaultKey_eq, and_iff_right ⟨rfl, rfl⟩]
      rw [mem_alteration_default htime (inTable_defaultKey ..), hown, hown, hkeys, hdeclared]
      exact or_congr_right and_comm
    · refine (h.tag hid).congr (fun v => ?_) fun field => ?_
      · rw [lookup_alteration_schema htime (inTable_schemaKey ..), if_neg]
        exact fun heq => habout (schemaKey_inj.mp heq).1.2.2.symm
      · rw [mem_alteration_default htime (inTable_defaultKey ..), exists_defaultKey_eq,
          exists_defaultKey_eq, or_iff_right (fun heq => habout heq.1.2),
          and_iff_right (fun heq => habout heq.1.2)]
  · rcases (mem_alteration_default htime hkey).mp hmem with ⟨field, -, rfl⟩ | ⟨-, hold⟩
    · exact ⟨kind, req.spaceId, req.name, plan.id, field, (hget ..).trans hplanId, rfl⟩
    · obtain ⟨kind', spaceId, name, id, field, hid, rfl⟩ := h.owned hkey hold
      exact ⟨kind', spaceId, name, id, field, (hget ..).trans hid, rfl⟩

theorem Shaped.removal (hid : getId e kind req.spaceId req.name = some id)
    (hnone : ∀ schema, getLatestSchema codec e kind req.spaceId id = some schema → ∀ field,
      ¬ Declared schema.columns field)
    (htime : OpsOn .lastUpdateTime time)
    (hids : IdsKnown (e.write (Metad.removal kind e req id ++ time))) :
    Shaped codec (e.write (Metad.removal kind e req id ++ time)) := by
  refine ⟨hids, fun {kind' spaceId name id'} hid' => ?_, fun {key} hkey hmem => ?_⟩
  · rw [getId_removal htime] at hid'
    split at hid'
    · cases hid'
    rename_i habout
    refine (h.tag hid').congr (fun v => ?_) fun field =>
      mem_removal_default htime (inTable_defaultKey ..)
    rw [lookup_removal_schema htime (inTable_schemaKey ..), if_neg]
    intro hprefix
    obtain ⟨rfl, rfl, rfl⟩ := schemaPrefix_prefix_schemaKey.mp hprefix
    exact habout (h.ids.name_inj hid hid')
  · -- a default value that is left belongs to another tag or edge
    obtain ⟨kind', spaceId, name, id', field, hid', rfl⟩ :=
      h.owned hkey ((mem_removal_default htime hkey).mp hmem)
    refine ⟨kind', spaceId, name, id', field, ?_, rfl⟩
    rw [getId_removal htime, if_neg, hid']
    rintro ⟨rfl, rfl, rfl⟩
    obtain rfl := Option.some.inj (hid.symm.trans hid')
    obtain ⟨schema, hlatest, -, hkeys⟩ := h.latest hid
    exact hnone schema hlatest field
      ((hkeys field).mp ((mem_removal_default htime hkey).mp hmem))

end

theorem SoundStep.noOverflow (h : SoundStep codec e a) : NoOverflow e a := by
  obtain ⟨req, env⟩ := a
  cases req with
  | create kind req => exact h.1
  | alter kind req | drop kind req => trivial

/-- **A request that meets the condition keeps what holds**, and one that is refused changes
nothing. -/
theorem Shaped.step (h : Shaped codec e) {req : SchemaReq} {ops : List WriteOp} {code : ErrorCode}
    (hok : SoundStep codec e (req, env)) (heffect : Effect codec e env req ops code) :
    Shaped codec (e.write ops) ∧ (code ≠ .succeeded → e.write ops = e) := by
  have hids := h.ids.step hok.noOverflow heffect
  -- what was written is answered with success, if the sync succeeds
  have hanswer (hsync : env.sync = true) : env.answer = .succeeded := by
    rw [Env.answer, if_pos hsync]
  cases heffect with
  | nothing => exact ⟨h, fun _ => rfl⟩
  | @idOnly kind req code hcode hname hputId hfailed =>
    -- the condition leaves no way to fail
    obtain ⟨-, ⟨defaults, hdefaults⟩, hwrite⟩ := hok.2 hname
    rcases hfailed with herror | hfailed
    · rw [hdefaults] at herror
      cases herror
    · rw [(hwrite hputId).1] at hfailed
      cases hfailed
  | created hspace hname hputId hdefaults htime =>
    exact ⟨h.creation (lastId_lt_nextId hok.1) (hok.2 hname).1 hdefaults hname htime hids,
      absurd (hanswer ((hok.2 hname).2.2 hputId).2)⟩
  | @removedOnly kind req plan hplan hremoved hremove hwrite =>
    obtain ⟨-, -, v, schema, hfirst, -⟩ := planAlter_eq_ok hplan
    have hdone := (hok v schema plan hplan hfirst).2.2.1 hremoved hremove
    rw [hdone] at hwrite
    cases hwrite
  | @altered kind req plan time hplan hremove hwrite htime =>
    obtain ⟨-, -, v, schema, hfirst, -⟩ := planAlter_eq_ok hplan
    refine ⟨h.alteration hplan (fun v schema hfirst => ?_) htime hids,
      absurd (hanswer ((hok v schema plan hplan hfirst).2.2.2 hwrite))⟩
    obtain ⟨hv, halter, -⟩ := hok v schema _ hplan hfirst
    exact ⟨hv, halter⟩
  | dropped hid hindexes hwrite htime =>
    exact ⟨h.removal hid (hok _ hid hindexes).1 htime hids,
      absurd (hanswer ((hok _ hid hindexes).2 hwrite))⟩

/-- **In every run of requests that meet the condition the store is well formed, and a request that
is refused changes nothing.** -/
theorem wellFormed_of_soundSteps {e₀ : Engine} (hclean : Clean e₀)
    (hdefaults : ∀ {key}, InTable .defaults key → key ∉ e₀)
    (h : Reach (schemaStep codec) (SoundStep codec) e₀ e) :
    WellFormed codec e ∧ ∀ req env, SoundStep codec e (req, env) →
      (req.process codec e env).2 ≠ .succeeded → e.write (req.process codec e env).1 = e := by
  have hshaped : Shaped codec e := by
    refine Reach.invariant ⟨hclean.idsKnown, fun hid => ?_, fun hkey hmem => ?_⟩ ?_ h
    · rw [getId_eq_none.mpr hclean.names] at hid
      cases hid
    · exact absurd hmem (hdefaults hkey)
    · rintro e ⟨req, env⟩ e' hshaped hok hstep
      cases hstep
      exact (hshaped.step hok (req.effect codec e env)).1
  exact ⟨hshaped.wellFormed, fun req env hok => (hshaped.step hok (req.effect codec e env)).2⟩

end Steps

/-! ### Two columns, the first one with a default value -/

/-- A column of integers with a default value. -/
def age : ColumnDef := ⟨⟨[97], by decide⟩, .int, some (.int 1)⟩

/-- A column of timestamps without a default value. -/
def born : ColumnDef := ⟨⟨[98], by decide⟩, .timestamp, none⟩

def ageBorn : Schema := ⟨[age, born], ⟨some 7, some born.name⟩⟩

def bornOnly : Schema := ⟨[born], ⟨some 7, some born.name⟩⟩

/-- A format for the two schemas. -/
def shapes : Codec := .ofList [ageBorn, bornOnly]

def createPerson : SchemaReq × Env := (.create .tag ⟨1, person, ageBorn, false⟩, Env.good)

/-- The first column is dropped. -/
def dropAge : SchemaReq × Env := (.alter .tag ⟨1, person, [⟨.drop, [age]⟩], ⟨none, none⟩⟩, Env.good)

/-- The store after the creation. -/
def withPerson : Engine :=
  oneSpace.write (createPerson.1.process shapes oneSpace createPerson.2).1

theorem wellFormed_withPerson :
    Reach (schemaStep shapes) (SoundStep shapes) oneSpace withPerson ∧
      WellFormed shapes withPerson := by
  have hsound : Sound ageBorn := by
    refine ⟨by decide, ?_⟩
    intro ttlCol hcol
    cases hcol
    exact .inr ⟨born, by decide, rfl, .inr rfl⟩
  have hstep : SoundStep shapes oneSpace createPerson :=
    ⟨by decide, fun _ => ⟨hsound, ⟨_, rfl⟩, fun _ => ⟨rfl, rfl⟩⟩⟩
  have hreach : Reach (schemaStep shapes) (SoundStep shapes) oneSpace withPerson :=
    .tail .refl hstep rfl
  have hnone : ∀ {key}, InTable .defaults key → key ∉ oneSpace := by
    intro key hkey hmem
    rw [oneSpace, AList.mem_insert] at hmem
    exact hkey.ne (inTable_spaceKey 1) (by decide) (hmem.resolve_right (AList.notMem_empty _))
  exact ⟨hreach, (wellFormed_of_soundSteps oneSpace_clean hnone hreach).1⟩

/-- The store after the drop of the first column. -/
def withoutAge : Engine := withPerson.write (dropAge.1.process shapes withPerson dropAge.2).1

/-- The default value of a column that was dropped stays, since the column behind it has none. -/
theorem withoutAge_not_wellFormed :
    Reach (schemaStep shapes) (fun _ _ => True) oneSpace withoutAge ∧
      (dropAge.1.process shapes withPerson dropAge.2).2 = .succeeded ∧
      ¬ WellFormed shapes withoutAge := by
  have hreach : Reach (schemaStep shapes) (fun _ _ => True) oneSpace withoutAge :=
    .tail (.tail .refl trivial rfl) trivial rfl
  refine ⟨hreach, by decide +kernel, fun h => ?_⟩
  have hmem : defaultKey 1 1 age.name ∈ withoutAge := by decide +kernel
  have htag : getLatestSchema shapes withoutAge .tag 1 1 = some bornOnly := by decide +kernel
  obtain ⟨kind, spaceId, name, id, schema, field, -, hlatest, hdeclared, heq⟩ :=
    (h.defaults (inTable_defaultKey 1 1 age.name)).mp hmem
  obtain ⟨⟨rfl, rfl⟩, rfl⟩ := defaultKey_inj.mp heq
  cases kind with
  | tag =>
    obtain rfl := Option.some.inj (htag.symm.trans hlatest)
    obtain ⟨c, hc, hname, -⟩ := hdeclared
    obtain rfl := mem_singleton.mp hc
    exact absurd hname (by decide)
  | edge =>
    cases hlatest

end K2Graph.Metad
