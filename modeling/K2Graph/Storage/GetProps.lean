import K2Graph.Lib.Except
import K2Graph.Lib.Run
import K2Graph.Storage.AddVertices

/-!
# `future_getProps` after `future_addVertices`

The handler reads one record: the one of the first vertex of the request and of the tag
of the first column that is asked for.  It returns all the columns of that tag, under
the id of the *last* vertex of the request, which goes through an `int`.  It needs the
tag's schema in `SchemaTable`, where it is only after a vertex with the tag was inserted
by the same process.  It reads every column as an `int64_t`: a column of another type
throws, and a null, like a record that is not there, is read through an empty pointer.

On the way in, `NebulaCodecImpl::decode` reads every integer into an `int32_t`.

## Main results

* `rightProps_of_reach` — **after requests that lose no record, a request for columns of
  one tag of one vertex with a small id, all of them integers and with small values, is
  answered right.**
* `not_rightProps` — a wide value that comes back as another one, and a string that does
  not come back.
-/

namespace K2Graph.Storage

open List Write

/-! ### The handler -/

/-- `cpp2::VertexPropRequest`, its parts in the order of iteration. -/
structure VertexPropRequest where
  spaceId : ℤ
  parts : List (ℤ × List ℤ)
  returnColumns : List PropDef

/-- `cpp2::TagData`. -/
structure TagData where
  tagId : ℤ
  data : Row
  deriving DecidableEq

/-- `cpp2::VertexData`, as far as `future_getProps` sets it. -/
structure VertexTags where
  vertexId : ℤ
  tagData : List TagData
  deriving DecidableEq

/-- `cpp2::QueryResponse`, as far as `future_getProps` sets it. -/
structure PropsResponse where
  vertices : List VertexTags
  vertexSchema : List (ℤ × List ColumnDef)
  deriving DecidableEq

/-- How `future_getProps` ends. -/
inductive PropsAnswer where
  /-- Without a failed code. -/
  | response (r : PropsResponse)
  | failed
  | threw
  | crashed
  deriving DecidableEq

/-- How the calls for one request end: the schema is fetched for every vertex. -/
structure ReadOutcomes where
  beginTxn : Bool
  getSchema : ℕ → Outcome
  read : Outcome

/-- What may end the handler while it reads the fields of the record. -/
inductive ReadStop where
  | threw
  | crashed

/-- `*deserializeField<int64_t>(name)`: throws unless there is such a field and it is an
`INT64T`, and reads through an empty pointer if it is null. -/
def readField (schema : Schema) (values : List FieldValue) (name : String) : Except ReadStop ℤ :=
  match (schema.zip values).find? fun p => p.1.name = name with
  | some (⟨_, .int64t⟩, .int64 i) => .ok i
  | some (⟨_, .int64t⟩, .null) => .error .crashed
  | _ => .error .threw

def readFields (schema : Schema) (values : List FieldValue) : Schema → Except ReadStop (List ℤ)
  | [] => .ok []
  | field :: fields =>
    match readField schema values field.name with
    | .error e => .error e
    | .ok i =>
      match readFields schema values fields with
      | .error e => .error e
      | .ok rest => .ok (i :: rest)

variable (req : VertexPropRequest)

/-- The vertices that are asked for, with their parts. -/
def VertexPropRequest.pairs : List (ℤ × ℤ) :=
  req.parts.flatMap fun part => part.2.map fun vid => (part.1, vid)

/-- The answer, from what was read: `return_VID` is an `int`. -/
def propsResponse (tagId : ℤ) (cols : List ColumnDef) (data : Row) :
    PropsAnswer :=
  let returnVID := toInt32 ((req.pairs.getLast?.map Prod.snd).getD 0)
  .response ⟨[⟨returnVID, [⟨tagId, data⟩]⟩], [(tagId, cols)]⟩

variable (c : ℤ → ℤ → Option Schema)

/-- `StorageServiceHandler::future_getProps`; `isSucceed` is the status of the read. -/
def getProps (o : ReadOutcomes) (req : VertexPropRequest) (s : Server) : TxnUse × PropsAnswer :=
  match req.returnColumns with
  | [] => (none, .crashed)
  | col :: _ =>
    -- `SchemaTable[col_tagID]` is a null pointer if the tag is not there
    match s.tables.schemas col.id with
    | none => (none, .crashed)
    | some schema =>
      match nebulaSchema schema with
      | none => (none, .failed)
      | some cols =>
        if !o.beginTxn then (none, .failed)
        else
          match c req.spaceId col.id, req.pairs with
          -- `*iter` of an empty vector
          | _, [] => (some [], .crashed)
          | none, _ :: _ => (some [], .failed)
          | some stored, (part, vid) :: rest =>
            if ¬(List.range (rest.length + 1)).all fun i => o.getSchema i = .ok then
              (some [], .failed)
            else if o.read = .threw then (some [], .threw)
            else
              match if o.read = .ok then s.store.lookup (tagKey req.spaceId part vid col.id)
                else none with
              | some values =>
                match readFields stored values schema with
                | .error .threw => (some [], .threw)
                | .error .crashed => (some [], .crashed)
                | .ok is => (some [true], propsResponse req col.id cols (is.map .int))
              -- a record without a schema
              | none =>
                if schema = [] then (some [false], propsResponse req col.id cols [])
                else (some [], .crashed)

def futureGetProps (o : ReadOutcomes) (req : VertexPropRequest) (s : Server) : PropsAnswer :=
  (getProps c o req s).2

/-! ### What was inserted -/

def columnOf (cols : List ColumnDef) (row : Row) (name : String) : Option Datum :=
  ((cols.zip row).find? fun p => p.1.name = name).map Prod.snd

/-- The rows that were inserted last: for a space, a vertex and a tag. -/
abbrev Content := AList fun _ : ℤ × ℤ × ℤ => Row

/-- The value of a column of a vertex. -/
def Content.column (content : Content) (space vid : ℤ) (col : PropDef) : Option Datum :=
  (content.lookup (space, vid, col.id)).bind fun row =>
    ((c space col.id).bind nebulaSchema).bind fun cols => columnOf cols row col.name

/-- The value of a column in the answer. -/
def VertexTags.column (schemas : List (ℤ × List ColumnDef)) (v : VertexTags) (col : PropDef) :
    Option Datum :=
  (v.tagData.find? fun d => d.tagId = col.id).bind fun d =>
    (schemas.find? fun p => p.1 = col.id).bind fun p => columnOf p.2 d.data col.name

/-- **The answer is right**: for every vertex it has the value of every column that is
asked for. -/
def RightProps (content : Content) (req : VertexPropRequest) (a : PropsAnswer) : Prop :=
  ∃ r, a = .response r ∧ List.Forall₂ (fun (p : ℤ × ℤ) (v : VertexTags) => v.vertexId = p.2 ∧
    ∀ col ∈ req.returnColumns, v.column r.vertexSchema col = content.column c req.spaceId p.2 col)
      req.pairs r.vertices

/-- A storage process, and the rows that were inserted. -/
structure VertexRun where
  server : Server
  content : Content

namespace VertexRun

/-- A new process and an empty store. -/
def init : VertexRun := ⟨⟨.empty, ∅⟩, ∅⟩

def contentWrites (req : AddVerticesRequest) : List (Write (ℤ × ℤ × ℤ) Row) :=
  req.turns.map fun x => .put (req.spaceId, x.vid, x.tag.tagId) x.tag.props

variable (c : ℤ → ℤ → Option Schema)

/-- A request that is answered without a failed code. -/
def step (s : VertexRun) (a : Outcomes × AddVerticesRequest) : Option VertexRun :=
  let r := futureAddVertices c a.1 a.2 s.server
  if r.2 = .succeeded then some ⟨r.1, applyAll s.content (contentWrites a.2)⟩ else none

/-- A request that loses no record: every vertex is in its part, and it is complete. -/
def KeepsVertices (partOf : ℤ → ℤ) (_ : VertexRun) (a : Outcomes × AddVerticesRequest) : Prop :=
  (∀ x ∈ a.2.turns, x.part = partOf x.vid) ∧ a.2.Complete a.1

end VertexRun

/-- A request for the columns of `tag` at the vertex `vid`, which are those of `schema`, the
row being `row`: one that is answered right, as the row is. -/
structure PropsOk (c : ℤ → ℤ → Option Schema) (partOf : ℤ → ℤ) (o : ReadOutcomes)
    (req : VertexPropRequest) (s : VertexRun) (vid tag : ℤ) (schema : Schema) (row : Row) :
    Prop where
  /-- There is one vertex, in its part, and its id fits an `int`. -/
  pairs : req.pairs = [(partOf vid, vid)]
  small : IsInt32 vid
  /-- There are columns, all of the tag. -/
  columns : req.returnColumns ≠ []
  tags : ∀ col ∈ req.returnColumns, col.id = tag
  /-- The tag's schema is in K2, and in the table of the process. -/
  created : c req.spaceId tag = some schema
  cached : s.server.tables.schemas tag ≠ none
  /-- The tag has columns of type `INT64T` only. -/
  int64 : ∀ field ∈ schema, field.type = .int64t
  /-- The row was inserted, and its numbers fit an `int32_t`. -/
  inserted : s.content.lookup (req.spaceId, vid, tag) = some row
  values : ∀ i, .int i ∈ row → IsInt32 i
  /-- The calls succeed. -/
  beginTxn : o.beginTxn = true
  getSchema : ∀ i, o.getSchema i = .ok
  read : o.read = .ok

/-! ### The store and what was inserted -/

section Stored

variable {c : ℤ → ℤ → Option Schema} {partOf : ℤ → ℤ} {s : VertexRun}

theorem last_vertexWrites (hparts : ∀ x ∈ xs, x.1.part = partOf x.1.vid) :
    last (tagKey space (partOf v) v tag) (vertexWrites sp xs) =
      last (space, v, tag)
        (xs.map fun x => .put (sp, x.1.vid, x.1.tag.tagId) x.2) := by
  induction xs with
  | nil => rfl
  | cons x xs ih =>
    have hx : tagKey sp x.1.part x.1.vid x.1.tag.tagId = tagKey space (partOf v) v tag ↔
        (sp, x.1.vid, x.1.tag.tagId) = (space, v, tag) := by
      simp only [tagKey, Key.mk.injEq, cons.injEq, Prod.mk.injEq, and_true,
        hparts x mem_cons_self]
      constructor
      · rintro ⟨h₁, h₂, -, h₃, -⟩
        exact ⟨h₁, h₃, h₂⟩
      · rintro ⟨rfl, rfl, rfl⟩
        exact ⟨rfl, rfl, rfl, rfl, rfl⟩
    have hx' : vid2TagKey sp x.1.vid x.1.tag.tagId ≠ tagKey space (partOf v) v tag := by
      simp [vid2TagKey, tagKey]
    rw [vertexWrites, flatMap_cons, last_append, ← vertexWrites,
      ih fun y hy => hparts y (mem_cons_of_mem _ hy), last_cons,
      last_cons]
    congr 1
    simp only [Record.key_put, vid2TagRecord, hx']
    exact if_congr hx rfl rfl

/-- **The store has the records of the rows that were inserted.** -/
structure VerticesStored (c : ℤ → ℤ → Option Schema) (partOf : ℤ → ℤ) (s : VertexRun) : Prop where
  tables : s.server.tables.From c
  stored : ∀ space v tag schema row, c space tag = some schema →
    s.content.lookup (space, v, tag) = some row →
    ∃ values, s.server.store.lookup (tagKey space (partOf v) v tag) = some values ∧
      Tables.valuesOf (some schema) (nebulaSchema schema) row = .ok values

theorem VerticesStored.step {a : Outcomes × AddVerticesRequest} (hc : OneSchema c)
    (h : VerticesStored c partOf s) (hok : s.KeepsVertices partOf a)
    (hstep : s.step c a = some s') : VerticesStored c partOf s' := by
  obtain ⟨o, req⟩ := a
  rw [VertexRun.step] at hstep
  split at hstep
  case isFalse => cases hstep
  rename_i hans
  cases hstep
  obtain ⟨xs, hxs, htables, hlook⟩ := lookup_futureAddVertices hok.2 hans
  have hfst : xs.map Prod.fst = req.turns := Tables.map_fst_decodeAll hxs
  have hparts : ∀ x ∈ xs, x.1.part = partOf x.1.vid := fun x hx =>
    hok.1 x.1 (hfst ▸ mem_map_of_mem hx)
  refine ⟨?_, fun space v tag schema row hschema hrow => ?_⟩
  · rw [htables]
    exact h.tables.decodeAll _
  rw [hlook, lookup_applyAll, last_vertexWrites hparts]
  -- the last turn with the vertex and the tag decides both
  have hcontent : VertexRun.contentWrites req = xs.map fun x =>
      .put (req.spaceId, x.1.vid, x.1.tag.tagId) x.1.tag.props := by
    rw [VertexRun.contentWrites, ← hfst, map_map]
    rfl
  rw [hcontent, lookup_applyAll, last_map_put] at hrow
  rw [last_map_put]
  cases hfind : xs.reverse.find? fun x =>
      ((req.spaceId, x.1.vid, x.1.tag.tagId) : ℤ × ℤ × ℤ) = (space, v, tag) with
  | none =>
    rw [hfind] at hrow
    exact h.stored space v tag schema row hschema hrow
  | some x =>
    rw [hfind] at hrow
    cases hrow
    refine ⟨x.2, rfl, ?_⟩
    have hx : x ∈ xs := mem_reverse.mp (mem_of_find?_eq_some hfind)
    have hvalues := Tables.values_of_mem_decodeAll hxs hx
    have hkey := find?_some hfind
    simp only [decide_eq_true_eq] at hkey
    obtain ⟨rfl, -, rfl⟩ := hkey
    obtain ⟨h₁, h₂⟩ := h.tables.schemas_eq hc hschema
    rwa [Tables.values_eq, h₁, h₂] at hvalues

theorem verticesStored_of_reach (hc : OneSchema c)
    (h : Reach (VertexRun.step c) (VertexRun.KeepsVertices partOf) .init s) :
    VerticesStored c partOf s :=
  h.invariant ⟨.empty c, fun _ _ _ _ _ _ h => by simp [VertexRun.init] at h⟩
    fun _ _ _ hinv hok hstep => hinv.step hc hok hstep

end Stored

/-! ### Reading -/

section Reading

variable {c : ℤ → ℤ → Option Schema} {partOf : ℤ → ℤ} {o : ReadOutcomes} {s : VertexRun}
  {req : VertexPropRequest} {vid tag : ℤ} {schema : Schema} {row : Row}

/-- The row schema of a tag with integers only. -/
def intColumns (schema : Schema) : List ColumnDef := schema.map fun field => ⟨field.name, .int⟩

theorem nebulaSchema_int64 (h : ∀ field ∈ schema, field.type = .int64t) :
    nebulaSchema schema = some (intColumns schema) := by
  refine mapM_of_forall₂ (forall₂_map_right_iff.mpr (forall₂_same.mpr fun field hfield => ?_))
  rw [h field hfield]
  rfl

theorem columnOf_intColumns (hfits : rowFits (intColumns schema) row = true) (name : String) :
    if name ∈ schema.map SchemaField.name then
      ∃ i, .int i ∈ row ∧ columnOf (intColumns schema) row name = some (.int i)
    else columnOf (intColumns schema) row name = none := by
  induction schema generalizing row with
  | nil => simp [intColumns, columnOf]
  | cons field schema ih =>
    cases row with
    | nil => simp [intColumns, rowFits] at hfits
    | cons d row =>
      simp only [intColumns, map_cons, rowFits, Bool.and_eq_true] at hfits
      obtain ⟨hd, hrow⟩ := hfits
      have hrest := ih hrow
      cases d with
      | int i =>
        by_cases hname : field.name = name
        · rw [if_pos (by simp [hname])]
          exact ⟨i, mem_cons_self, by simp [intColumns, columnOf, hname]⟩
        have hcol : columnOf (intColumns (field :: schema)) (.int i :: row) name =
            columnOf (intColumns schema) row name := by
          simp [intColumns, columnOf, hname]
        rw [hcol]
        simp only [map_cons, mem_cons, Ne.symm hname, false_or]
        split_ifs with hmem
        · rw [if_pos hmem] at hrest
          obtain ⟨j, hj, heq⟩ := hrest
          exact ⟨j, .inr hj, heq⟩
        · rwa [if_neg hmem] at hrest
      | _ => simp [Datum.fits] at hd

variable (g : String → ℤ)

theorem columnOf_map (schema : Schema) (name : String) :
    columnOf (intColumns schema) (schema.map fun field => .int (g field.name)) name =
      if name ∈ schema.map SchemaField.name then some (.int (g name)) else none := by
  induction schema with
  | nil => rfl
  | cons field schema ih =>
    by_cases hname : field.name = name
    · simp [intColumns, columnOf, hname]
    simp only [intColumns, columnOf, map_cons, zip_cons_cons, mem_cons,
      Ne.symm hname, false_or] at ih ⊢
    rw [find?_cons_of_neg (by simpa using hname)]
    exact ih

section

variable (h : ∀ field ∈ schema, field.type = .int64t)
include h

theorem readField_map (hname : name ∈ schema.map SchemaField.name) :
    readField schema (schema.map fun field => .int64 (g field.name)) name = .ok (g name) := by
  induction schema with
  | nil => cases hname
  | cons field schema ih =>
    obtain ⟨fname, ftype⟩ := field
    have htype : ftype = .int64t := h _ mem_cons_self
    subst htype
    by_cases hf : fname = name
    · subst hf
      simp [readField]
    have hmem : name ∈ schema.map SchemaField.name := by
      simpa [Ne.symm hf] using hname
    have := ih (fun field hfield => h field (mem_cons_of_mem _ hfield)) hmem
    rw [readField] at this ⊢
    rwa [map_cons, zip_cons_cons, find?_cons_of_neg (by simpa using hf)]

theorem readFields_map (hsub : ∀ field ∈ fields, field ∈ schema) :
    readFields schema (schema.map fun field => .int64 (g field.name)) fields =
      .ok (fields.map fun field => g field.name) := by
  induction fields with
  | nil => rfl
  | cons field fields ih =>
    rw [readFields, readField_map g h (mem_map_of_mem (hsub field mem_cons_self)),
      ih fun f hf => hsub f (mem_cons_of_mem _ hf)]
    rfl

/-- **The round trip of a row** of integers that fit an `int32_t`. -/
theorem readFields_of_valuesOf (hsmall : ∀ i, .int i ∈ row → IsInt32 i)
    (hvalues : Tables.valuesOf (some schema) (nebulaSchema schema) row = .ok values) :
    ∃ is, readFields schema values schema = .ok is ∧
      ∀ name, columnOf (intColumns schema) (is.map .int) name =
        columnOf (intColumns schema) row name := by
  rw [nebulaSchema_int64 h] at hvalues
  simp only [Tables.valuesOf] at hvalues
  split at hvalues
  case isFalse => cases hvalues
  rename_i hfits
  have hcol := columnOf_intColumns hfits
  -- the integer in the column of a name
  obtain ⟨g, hg⟩ : ∃ g : String → ℤ, ∀ name ∈ schema.map SchemaField.name,
      columnOf (intColumns schema) row name = some (.int (g name)) ∧ IsInt32 (g name) := by
    have hex : ∀ name, ∃ i, name ∈ schema.map SchemaField.name →
        columnOf (intColumns schema) row name = some (.int i) ∧ IsInt32 i := by
      intro name
      by_cases hname : name ∈ schema.map SchemaField.name
      · have := hcol name
        rw [if_pos hname] at this
        obtain ⟨i, hi, heq⟩ := this
        exact ⟨i, fun _ => ⟨heq, hsmall i hi⟩⟩
      · exact ⟨0, fun h => absurd h hname⟩
    choose g hg using hex
    exact ⟨g, hg⟩
  have hfield : Tables.fieldValues schema (intColumns schema) row =
      some (schema.map fun field => .int64 (g field.name)) := by
    refine mapM_of_forall₂ (forall₂_map_right_iff.mpr (forall₂_same.mpr fun field hfield => ?_))
    obtain ⟨heq, hs⟩ := hg field.name (mem_map_of_mem hfield)
    rw [columnOf, Option.map_eq_some_iff] at heq
    obtain ⟨p, hp, hpi⟩ := heq
    rw [h field hfield, decode, hp, Option.map_some, hpi, Datum.decoded, toInt32_of_isInt32 hs]
    rfl
  rw [hfield] at hvalues
  cases hvalues
  refine ⟨_, readFields_map g h fun _ hf => hf, fun name => ?_⟩
  rw [map_map]
  refine (columnOf_map g schema name).trans ?_
  split_ifs with hname
  · exact (hg name hname).1.symm
  have := hcol name
  rw [if_neg hname] at this
  exact this.symm

end

/-- **After requests that lose no record, a request that meets the condition is answered
right.** -/
theorem rightProps_of_reach (hc : OneSchema c)
    (h : Reach (VertexRun.step c) (VertexRun.KeepsVertices partOf) .init s)
    (hreq : PropsOk c partOf o req s vid tag schema row) :
    RightProps c s.content req (futureGetProps c o req s.server) := by
  have hinv := verticesStored_of_reach hc h
  obtain ⟨values, hlook, hvalues⟩ :=
    hinv.stored _ vid tag schema row hreq.created hreq.inserted
  obtain ⟨is, hread, hcols⟩ := readFields_of_valuesOf hreq.int64 hreq.values hvalues
  obtain ⟨col, cols, hcolumns⟩ := exists_cons_of_ne_nil hreq.columns
  obtain rfl : col.id = tag := hreq.tags col (hcolumns ▸ mem_cons_self)
  have hcached : s.server.tables.schemas col.id = some schema := by
    obtain ⟨schema', hs⟩ := Option.ne_none_iff_exists'.mp hreq.cached
    obtain ⟨sp, hsp⟩ := hinv.tables.schemas col.id schema' hs
    rw [hs, hc _ _ _ _ _ hsp hreq.created]
  have hnebula := nebulaSchema_int64 hreq.int64
  have hans : futureGetProps c o req s.server =
      propsResponse req col.id (intColumns schema) (is.map .int) := by
    simp only [futureGetProps, getProps, hcolumns, hcached, hnebula, hreq.beginTxn, hreq.created,
      hreq.pairs, hreq.getSchema, hreq.read]
    simp [hlook, hread]
  refine ⟨_, hans, ?_⟩
  rw [hreq.pairs]
  refine .cons ⟨?_, fun col' hcol' => ?_⟩ .nil
  · exact toInt32_of_isInt32 hreq.small
  · obtain ⟨name, id⟩ := col'
    obtain rfl : id = col.id := hreq.tags _ hcol'
    simp [VertexTags.column, Content.column, hreq.inserted, hreq.created, hnebula, hcols]

end Reading

/-! ### Two answers -/

/-- A space with one tag, which has a name. -/
def nameCatalog : ℤ → ℤ → Option Schema :=
  fun space id => if space = 1 ∧ id = 3 then some [⟨"name", .string⟩] else none

def personRun (row : Row) : VertexRun :=
  ⟨(futureAddVertices c .allOk (onePerson row) ⟨.empty, ∅⟩).1,
    applyAll ∅ (VertexRun.contentWrites (onePerson row))⟩

def askProps (name : String) : VertexPropRequest := ⟨1, [(1, [100])], [⟨name, 3⟩]⟩

/-- Every call of a request for properties succeeds. -/
def ReadOutcomes.allOk : ReadOutcomes := ⟨true, fun _ => .ok, .ok⟩

theorem personRun_step {c : ℤ → ℤ → Option Schema}
    (h : (futureAddVertices c .allOk (onePerson row) ⟨.empty, ∅⟩).2 = .succeeded) :
    VertexRun.step c .init (.allOk, onePerson row) = some (personRun c row) := by
  exact if_pos h

theorem oneSchema_personCatalog : OneSchema personCatalog := by
  intro sp sp' id schema schema' h h'
  simp only [personCatalog, Option.ite_none_right_eq_some] at h h'
  exact (Option.some.inj h.2).symm.trans (Option.some.inj h'.2)

/-- A small number is read back. -/
theorem rightProps_of_reach_sample :
    RightProps personCatalog (personRun personCatalog [.int 30]).content (askProps "age")
      (futureGetProps personCatalog .allOk (askProps "age")
        (personRun personCatalog [.int 30]).server) := by
  have hkeeps : VertexRun.init.KeepsVertices (fun _ => 1) (.allOk, onePerson [.int 30]) :=
    ⟨by decide, onePerson_complete _⟩
  have hreq : PropsOk personCatalog (fun _ => 1) .allOk (askProps "age")
      (personRun personCatalog [.int 30]) 100 3 [⟨"age", .int64t⟩] [.int 30] := by
    refine ⟨rfl, by decide, by decide, by decide, rfl, by decide, by decide, by decide,
      fun i hi => ?_, rfl, fun _ => rfl, rfl⟩
    cases mem_singleton.mp hi
    decide
  exact rightProps_of_reach oneSchema_personCatalog
    (.tail .refl hkeeps (personRun_step (by decide))) hreq

/-- The age 2147483648 is read back as -2147483648, and a request for a name throws. -/
theorem not_rightProps :
    (Reach (VertexRun.step personCatalog) (fun _ _ => True) .init
        (personRun personCatalog [.int 2147483648]) ∧
      ¬RightProps personCatalog (personRun personCatalog [.int 2147483648]).content
        (askProps "age") (futureGetProps personCatalog .allOk (askProps "age")
          (personRun personCatalog [.int 2147483648]).server)) ∧
    (Reach (VertexRun.step nameCatalog) (fun _ _ => True) .init
        (personRun nameCatalog [.string [65]]) ∧
      ¬RightProps nameCatalog (personRun nameCatalog [.string [65]]).content
        (askProps "name") (futureGetProps nameCatalog .allOk (askProps "name")
          (personRun nameCatalog [.string [65]]).server)) := by
  refine ⟨⟨.tail .refl trivial (personRun_step (by decide)), ?_⟩,
    .tail .refl trivial (personRun_step (by decide)), ?_⟩
  · rintro ⟨r, hr, hvertices⟩
    have hr' : r = ⟨[⟨100, [⟨3, [.int (-2147483648)]⟩]⟩], [(3, [⟨"age", .int⟩])]⟩ :=
      PropsAnswer.response.inj (hr.symm.trans (by decide +kernel))
    rw [hr'] at hvertices
    obtain ⟨h, -⟩ := forall₂_cons.mp hvertices
    have hcol := h.2 ⟨"age", 3⟩ mem_cons_self
    exact absurd hcol (by decide +kernel)
  · rintro ⟨r, hr, -⟩
    exact absurd (hr.symm.trans (by decide +kernel :
      futureGetProps nameCatalog .allOk (askProps "name")
        (personRun nameCatalog [.string [65]]).server = .threw)) (by simp)

end K2Graph.Storage
