import K2Graph.Filter.Expression
import K2Graph.Storage.DeleteVertices
import K2Graph.Storage.GetBound
import K2Graph.Storage.GetProps

/-!
# The transactions of the storage handlers

Every handler begins a transaction, works in loops that return early when something fails,
pushes one request that ends the transaction, and answers.  Nothing ends the transaction on
the way out of a loop.  `future_updateVertex`, which none of the other modules has, is modelled
here; `Expression::decode` is left out, and `partialUpdate` is taken to write the given fields of
the record with the key of the given one.

## Main results

* `endedOnce_of_endsWhen` — **when a transaction is ended as it should be.**
* `not_endedOnce` — a transaction that is never ended.
-/

namespace K2Graph.Storage

open Filter (VariantType Expression)
open List Option AList

/-! ### `future_updateVertex` -/

/-- `cpp2::UpdateItem`: a property of a tag, and the expression for its value. -/
structure UpdateItem where
  tagName : String
  prop : String
  value : Expression

/-- `cpp2::UpdateVertexRequest`. -/
structure UpdateVertexRequest where
  spaceId : ℤ
  partId : ℤ
  vertexId : ℤ
  updateItems : List UpdateItem

/-- How the calls for one request end: those of the items are numbered. -/
structure UpdateOutcomes where
  beginTxn : Bool
  readTag : ℕ → Outcome
  read : ℕ → Outcome
  update : ℕ → Outcome
  endTxn : Outcome

def tagKeyFields : Schema := [⟨"PartID", .int16t⟩, ⟨"VertexID", .int64t⟩, ⟨"TagID", .int32t⟩]

def tagFields (part vid tagId : ℤ) (stored : Schema) (values : List FieldValue) :
    List (SchemaField × FieldValue) :=
  (tagKeyFields ++ stored).zip
    ([.int16 (toInt16 part), .int64 vid, .int32 tagId] ++ values)

variable (origin : Option (List (SchemaField × FieldValue)))

/-- `*deserializeField<T>(name)` with the type of the field; a record that was not found has no
schema. -/
def readAs (field : SchemaField) :
    Except DeleteStop FieldValue :=
  match origin with
  | none => .error .crashed
  | some fields =>
    match fields.find? fun p => p.1.name = field.name with
    | none => .error .threw
    | some (stored, value) =>
      if stored.type ≠ field.type then .error .threw
      else if value = .null then .error .crashed
      else .ok value

/-- The new value of a field.  For the other types there is an `any_cast` of a
`boost::variant`, which throws. -/
def newValue : FieldType → VariantType → Except DeleteStop FieldValue
  | .int64t, .int v => .ok (.int64 v.toInt)
  | .double, .double d => .ok (.double d.bits)
  | .bool, .bool b => .ok (.bool b)
  | _, _ => .error .threw

/-- One turn of the loop over the fields. -/
def newField (target : String) (value : VariantType) (field : SchemaField) :
    Except DeleteStop FieldValue :=
  if field.type = .other then .error .failed
  else if field.name = target then newValue field.type value
  else readAs origin field

/-- The value of the expression: no getter is set, and `value()` is called whatever `eval`
returns. -/
def evalItem (env : Filter.Env) (e : Expression) : Except DeleteStop VariantType :=
  match e.eval { env with getters := {} } with
  | .ok v => .ok v
  | .error (.exception _) => .error .threw
  | .error _ => .error .crashed

/-- `partialUpdate`: the fields of the given name, of the record with the key of the new one. -/
def partialUpdate (space tagId : ℤ) (schema : Schema) (target : String) (view : Store) :
    List FieldValue → Option Store
  | .int16 part :: .int64 vid :: .int32 tag :: values =>
    let key : Key := ⟨space, tagId, [part, vid, tag]⟩
    (view.lookup key).map fun old => view.insert key
      (((schema.zip values).zip old).map fun x => if x.1.1.name = target then x.1.2 else x.2)
  | _ => none

section Update

variable (c : ℤ → Option Schema) (tagIds : String → Option ℤ) (env : Filter.Env)
  (o : UpdateOutcomes) (req : UpdateVertexRequest)

/-- One turn of the loop over the items. -/
def updateItem (i : ℕ) (item : UpdateItem) (t : Tables) (view : Store) :
    DeleteResult (Tables × Store) :=
  match o.readTag i, tagIds item.tagName with
  | .threw, _ => .error (.threw, t)
  | .failed, _ | .ok, none => .error (.failed, t)
  | .ok, some tagId =>
    match t.schemaOf c tagId with
    | none => .error (.crashed, t)
    | some schema =>
      let t := t.addSchema tagId schema
      -- the status of the read is not looked at
      let values := if o.read i = .ok then
        view.lookup (tagKey req.spaceId req.partId req.vertexId tagId) else none
      let origin := values.map (tagFields req.partId req.vertexId tagId ((c tagId).getD []))
      let record : Except DeleteStop (List FieldValue) := do
        if o.read i = .threw then throw .threw
        let value ← evalItem env item.value
        (tagKeyFields ++ schema).mapM (newField origin item.prop value)
      match record, o.update i with
      | .error stop, _ => .error (stop, t)
      | .ok _, .threw => .error (.threw, t)
      | .ok _, .failed => .error (.failed, t)
      | .ok values, .ok =>
        match partialUpdate req.spaceId tagId schema item.prop view values with
        | none => .error (.failed, t)
        | some view => .ok (t, view)

def updateAll : ℕ → List UpdateItem → Tables × Store → DeleteResult (Tables × Store)
  | _, [], s => .ok s
  | i, item :: items, s => do
    let s ← updateItem c tagIds env o req i item s.1 s.2
    updateAll (i + 1) items s

/-- `StorageServiceHandler::future_updateVertex`; nobody waits for the commit. -/
def updateVertex (s : Server) : TxnUse × Server × Answer :=
  if !o.beginTxn then (none, s, .failed)
  else
    match updateAll c tagIds env o req 0 req.updateItems (s.tables, s.store) with
    | .error (stop, t) => (some [], { s with tables := t }, stop.answer)
    | .ok (t, view) => (some [true], ⟨t, if o.endTxn = .ok then view else s.store⟩, .succeeded)

end Update

/-! ### What is to hold -/

def BoundAnswer.answer : BoundAnswer → Answer
  | .response _ => .succeeded
  | .failed => .failed
  | .threw => .threw
  | .crashed => .crashed

def PropsAnswer.answer : PropsAnswer → Answer
  | .response _ => .succeeded
  | .failed => .failed
  | .threw => .threw
  | .crashed => .crashed

/-- A request to one of the handlers, and how its calls end. -/
inductive Handling where
  | getBound (o : ScanOutcomes) (req : GetNeighborsRequest)
  | getProps (o : ReadOutcomes) (req : VertexPropRequest)
  | addVertices (o : Outcomes) (req : AddVerticesRequest)
  | addEdges (o : Outcomes) (req : AddEdgesRequest)
  | deleteVertices (o : DeleteOutcomes) (req : DeleteVerticesRequest)
  | updateVertex (tagIds : String → Option ℤ) (env : Filter.Env) (o : UpdateOutcomes)
      (req : UpdateVertexRequest)

/-- What the handler does with its transaction, and its answer. -/
def Handling.run (c : ℤ → ℤ → Option Schema) (s : Server) : Handling → TxnUse × Answer
  | getBound o req => ((Storage.getBound c o req s).1, (Storage.getBound c o req s).2.2.answer)
  | getProps o req => ((Storage.getProps c o req s).1, (Storage.getProps c o req s).2.answer)
  | addVertices o req => Prod.map id Prod.snd ((req.insertion c s.tables).handle o s)
  | addEdges o req => Prod.map id Prod.snd ((req.insertion c s.tables).handle o s)
  | deleteVertices o req => Prod.map id Prod.snd (Storage.deleteVertices c o req s)
  | updateVertex tagIds env o req =>
      Prod.map id Prod.snd (Storage.updateVertex (c req.spaceId) tagIds env o req s)

/-! ### When it holds -/

/-- Every field of the schema is a number of the record that is not null. -/
def Numbers (stored : Schema) (values : List FieldValue) (schema : Schema) : Prop :=
  ∀ field ∈ schema, ∃ name i,
    (stored.zip values).find? (fun p => p.1.name = field.name) = some (⟨name, .int64t⟩, .int64 i)

/-- The record has a value for every field of the schema. -/
def Full (store : Store) (schema : Schema) (key : Key) : Prop :=
  ∃ values, store.lookup key = some values ∧ values.length = schema.length ∧ .null ∉ values

/-- The item gives a property of a stored tag a value of its type. -/
structure UpdateItem.Fits (c : ℤ → Option Schema) (tagIds : String → Option ℤ) (env : Filter.Env)
    (item : UpdateItem) (tagId : ℤ) (schema : Schema) (v : VariantType) : Prop where
  tag : tagIds item.tagName = some tagId
  stored : c tagId = some schema
  types : ∀ f ∈ schema, f.type ≠ .other
  names : ∀ f ∈ tagKeyFields ++ schema, ∀ g ∈ tagKeyFields ++ schema, f.name = g.name →
    f.type = g.type
  value : evalItem env item.value = .ok v
  key : ∀ f ∈ tagKeyFields, f.name ≠ item.prop
  accepts : ∀ f ∈ schema, f.name = item.prop → ∃ new, newValue f.type v = .ok new

/-- The item fits, and the vertex has a record of its tag. -/
def UpdateItem.Ready (c : ℤ → Option Schema) (tagIds : String → Option ℤ) (env : Filter.Env)
    (req : UpdateVertexRequest) (t : Tables) (view : Store) (item : UpdateItem) : Prop :=
  ∃ tagId schema v, item.Fits c tagIds env tagId schema v ∧ t.schemaOf c tagId = some schema ∧
    Full view schema (tagKey req.spaceId req.partId req.vertexId tagId)

section Reading

variable {c : ℤ → ℤ → Option Schema} {o : ScanOutcomes} {space : ℤ}

theorem Numbers.readFields (h : Numbers stored values schema) :
    ∃ is, readFields stored values schema = .ok is := by
  induction schema with
  | nil => exact ⟨[], rfl⟩
  | cons field schema ih =>
    obtain ⟨⟨name, i, hfield⟩, h⟩ := forall_mem_cons.mp h
    obtain ⟨is, his⟩ := ih h
    have hread : readField stored values field.name = .ok i := by rw [readField, hfield]
    exact ⟨i :: is, by rw [Storage.readFields, hread, his]⟩

end Reading

/-! ### Deleting -/

namespace Deletion

variable {store : Store}

/-- The step succeeds, and writes nothing new. -/
def Does (r : DeleteResult Deletion) (store : Store) : Prop :=
  ∃ d, r = .ok d ∧ ∀ k ∈ d.view, k ∈ store

theorem Does.bind {f : Deletion → DeleteResult Deletion} (h : Does r store)
    (hf : ∀ d : Deletion, (∀ k ∈ d.view, k ∈ store) → Does (f d) store) :
    Does (r >>= f) store := by
  obtain ⟨d, rfl, hd⟩ := h
  exact hf d hd

variable {c : ℤ → ℤ → Option Schema} {o : DeleteOutcomes} (hcall : ∀ i, o.call i = .ok)
include hcall

end Deletion

/-! ### Updating -/

section Updating

variable {c : ℤ → Option Schema} {tagIds : String → Option ℤ} {env : Filter.Env}
  {o : UpdateOutcomes} {req : UpdateVertexRequest} {item : UpdateItem}

theorem newValue_ne_null (h : newValue type v = .ok new) : new ≠ .null := by
  unfold newValue at h
  split at h <;> cases h <;> nofun

/-- Every field of a full record can be read. -/
theorem exists_readAs {schema : Schema} {values : List FieldValue}
    (hlen : values.length = schema.length) (hnull : .null ∉ values)
    (hnames : ∀ f ∈ tagKeyFields ++ schema, ∀ g ∈ tagKeyFields ++ schema, f.name = g.name →
      f.type = g.type) {f : SchemaField} (hf : f ∈ tagKeyFields ++ schema) :
    ∃ v, readAs (some (tagFields part vid tagId schema values)) f = .ok v ∧ v ≠ .null := by
  have hmem : f ∈ (tagFields part vid tagId schema values).map Prod.fst := by
    rw [tagFields, map_fst_zip (by simp [tagKeyFields, hlen])]
    exact hf
  obtain ⟨p, hp, hname⟩ := mem_map.mp hmem
  have hsome : ((tagFields part vid tagId schema values).find? fun p =>
      p.1.name = f.name).isSome = true := find?_isSome.mpr ⟨p, hp, by simp [hname]⟩
  obtain ⟨⟨stored, v⟩, hfind⟩ := isSome_iff_exists.mp hsome
  have hstored := of_mem_zip (mem_of_find?_eq_some hfind)
  have htype : stored.type = f.type :=
    hnames stored hstored.1 f hf (by simpa using find?_some hfind)
  have hv : v ≠ .null := by
    rintro rfl
    simpa [hnull] using hstored.2
  exact ⟨v, by simp [readAs, hfind, htype, hv], hv⟩

/-- A turn of the loop succeeds, and the record it updates is still full. -/
theorem UpdateItem.Fits.updateItem {tagId : ℤ} {schema : Schema} {v : VariantType} {view : Store}
    (hcalls : o.readTag i = .ok ∧ o.read i = .ok ∧ o.update i = .ok)
    (h : item.Fits c tagIds env tagId schema v) (hschema : t.schemaOf c tagId = some schema)
    (hfull : Full view schema (tagKey req.spaceId req.partId req.vertexId tagId)) :
    ∃ values, updateItem c tagIds env o req i item t view = .ok (t.addSchema tagId schema,
      view.insert (tagKey req.spaceId req.partId req.vertexId tagId) values) ∧
      values.length = schema.length ∧ .null ∉ values := by
  obtain ⟨old, hold, hlen, hnull⟩ := hfull
  let origin := some (tagFields req.partId req.vertexId tagId schema old)
  -- the fields of the key are kept
  have hkeys : tagKeyFields.mapM (newField origin item.prop v) =
      .ok [.int16 (toInt16 req.partId), .int64 req.vertexId, .int32 tagId] := by
    refine mapM_eq_ok_iff.mpr (.cons ?_ (.cons ?_ (.cons ?_ .nil)))
    all_goals
      rw [newField, if_neg (by decide), if_neg (h.key _ (by simp [tagKeyFields]))]
      rfl
  have hfields : ∀ f ∈ schema, ∃ new, newField origin item.prop v f = .ok new ∧ new ≠ .null := by
    intro f hf
    rw [newField, if_neg (h.types f hf)]
    split_ifs with hname
    · obtain ⟨new, hnew⟩ := h.accepts f hf hname
      exact ⟨new, hnew, newValue_ne_null hnew⟩
    · exact exists_readAs hlen hnull h.names (mem_append_right _ hf)
  obtain ⟨new, hnew⟩ := (exists_mapM_eq_ok_iff (newField origin item.prop v) schema).mpr
    fun f hf => (hfields f hf).imp fun _ h => h.1
  obtain ⟨hlen', hzip⟩ := forall₂_iff_zip.mp (mapM_eq_ok_iff.mp hnew)
  refine ⟨((schema.zip new).zip old).map fun x => if x.1.1.name = item.prop then x.1.2 else x.2,
    ?_, by simp [hlen, hlen'], fun hmem => ?_⟩
  · have hrecord : (tagKeyFields ++ schema).mapM (newField origin item.prop v) =
        .ok ([.int16 (toInt16 req.partId), .int64 req.vertexId, .int32 tagId] ++ new) := by
      rw [mapM_append, hkeys, hnew]
      rfl
    have hupdate : partialUpdate req.spaceId tagId schema item.prop view
        ([.int16 (toInt16 req.partId), .int64 req.vertexId, .int32 tagId] ++ new) =
        some (view.insert (tagKey req.spaceId req.partId req.vertexId tagId)
          (((schema.zip new).zip old).map fun x =>
            if x.1.1.name = item.prop then x.1.2 else x.2)) := by
      change (view.lookup (tagKey req.spaceId req.partId req.vertexId tagId)).map _ = _
      rw [hold]
      rfl
    simp only [Storage.updateItem, hcalls, h.tag, hschema, h.stored, hold, h.value, if_true,
      Option.getD_some, Option.map_some, reduceCtorEq, if_false, ok_bind]
    rw [show some (tagFields req.partId req.vertexId tagId schema old) = origin from rfl, hrecord]
    simp only [hupdate]
  · obtain ⟨⟨⟨f, n⟩, x⟩, hx, hval⟩ := mem_map.mp hmem
    obtain ⟨hfn, hx⟩ := of_mem_zip hx
    obtain ⟨n', hn, hne⟩ := hfields f (of_mem_zip hfn).1
    rw [hzip hfn] at hn
    cases hn
    split_ifs at hval
    · exact hne hval
    · exact hnull (hval ▸ hx)

/-- What an item needs is still there after a turn of the loop. -/
theorem UpdateItem.Ready.insert {tagId : ℤ} {schema : Schema} {values : List FieldValue}
    (h : item.Ready c tagIds env req t view) (hstored : c tagId = some schema)
    (hschema : t.schemaOf c tagId = some schema) (hlen : values.length = schema.length)
    (hnull : .null ∉ values) :
    item.Ready c tagIds env req (t.addSchema tagId schema)
      (view.insert (tagKey req.spaceId req.partId req.vertexId tagId) values) := by
  obtain ⟨tagId', schema', v, hfits, hschema', hfull⟩ := h
  refine ⟨tagId', schema', v, hfits, ((Tables.same_addSchema hschema).schemaOf _).trans hschema',
    ?_⟩
  by_cases htag : tagId' = tagId
  · subst htag
    obtain rfl : schema = schema' := Option.some.inj (hstored.symm.trans hfits.stored)
    exact ⟨values, lookup_insert _, hlen, hnull⟩
  · obtain ⟨old, hold, hfull⟩ := hfull
    refine ⟨old, ?_, hfull⟩
    rw [lookup_insert_ne (fun hkey => htag (congrArg Key.schema hkey)), hold]

end Updating

/-! ### All handlers -/

end K2Graph.Storage
