import Mathlib.Algebra.GroupWithZero.Nat
import Mathlib.Algebra.Ring.Int.Defs
import K2Graph.Base.SupportedType
import K2Graph.Lib.Writes

/-!
# Records, schemas and transactions of K2

What the storage handlers read and write, below the level of a handler: the records
of a K2 collection, the schemas that say which columns a record has, and how a row of
properties becomes the values of a record.

A K2 transaction is taken to be an atomic set of writes, and each call to report its
true status: a write is in the transaction if and only if its status was OK, and the
writes are in the store if and only if the commit's status was OK.

The handlers keep the schemas they have seen in two tables, `SchemaTable` for the
schemas of K2 and `NebulaSchemaTable` for the row schemas made from them.  Filling the
tables on the way changes no result, see `Tables.Same`.

## Main results

* `Tables.forall₂_decodeAll` — the tables change no result.
* `Insertion.added_of_covers` — an insertion whose batch covers its records is all or nothing.
-/

namespace K2Graph.Storage

open Option Function Write

/-! ### Values -/

/-- `k2::dto::FieldType`, as far as the handlers tell the types apart. -/
inductive FieldType where
  | string | int16t | int32t | int64t | float | double | bool | other
  deriving DecidableEq

/-- A value of a row.  Floating-point numbers are their bits. -/
inductive Datum where
  | bool (b : Bool)
  | int (i : ℤ)
  | string (bytes : List UInt8)
  | float (bits : UInt32)
  | double (bits : UInt64)
  deriving DecidableEq

/-- A value of a field of a K2 record. -/
inductive FieldValue where
  | null
  | string (bytes : List UInt8)
  | int16 (i : ℤ)
  | int32 (i : ℤ)
  | int64 (i : ℤ)
  | float (bits : UInt32)
  | double (bits : UInt64)
  | bool (b : Bool)
  deriving DecidableEq

/-- `k2::dto::SchemaField`. -/
structure SchemaField where
  name : String
  type : FieldType

/-- The fields of a schema behind its key fields, which all tags share and all edges
share. -/
abbrev Schema := List SchemaField

/-- A column of a row. -/
structure ColumnDef where
  name : String
  type : SupportedType
  deriving DecidableEq

/-- `cpp2::PropDef`: a column that is asked for, of a tag or an edge type. -/
structure PropDef where
  name : String
  id : ℤ

/-- The properties of a vertex or an edge, as `RowWriter` encodes them. -/
abbrev Row := List Datum

/-- Conversion to `int32_t`, which wraps; only arithmetic overflows. -/
def toInt32 (i : ℤ) : ℤ := i.bmod (2 ^ 32)

/-- The number is one of an `int32_t`. -/
def IsInt32 (i : ℤ) : Prop := -2 ^ 31 ≤ i ∧ i < 2 ^ 31

instance (i : ℤ) : Decidable (IsInt32 i) := inferInstanceAs (Decidable (_ ∧ _))

theorem toInt32_of_isInt32 (h : IsInt32 i) : toInt32 i = i :=
  Int.bmod_eq_of_le_mul_two (by have := h.1; omega) (by have := h.2; omega)

/-- Conversion to `int16_t`. -/
def toInt16 (i : ℤ) : ℤ := i.bmod (2 ^ 16)

/-- The column type a K2 field is read as. -/
def columnType : FieldType → Option SupportedType
  | .string => some .string
  | .int16t => some .int
  | .int32t => some .int
  | .int64t => some .int
  | .float => some .float
  | .double => some .double
  | .bool => some .bool
  | .other => none

/-- The row schema for a K2 schema, if it has no field of another type. -/
def nebulaSchema (schema : Schema) : Option (List ColumnDef) :=
  schema.mapM fun field => (columnType field.type).map fun type => ⟨field.name, type⟩

/-- The value is of the type of the column. -/
def Datum.fits : SupportedType → Datum → Bool
  | .bool, .bool _ => true
  | .int, .int _ => true
  | .string, .string _ => true
  | .float, .float _ => true
  | .double, .double _ => true
  | _, _ => false

def rowFits : List ColumnDef → Row → Bool
  | [], [] => true
  | col :: cols, d :: row => d.fits col.type && rowFits cols row
  | _, _ => false

/-- What `NebulaCodecImpl::decode` makes of a value: an integer is read into an
`int32_t`. -/
def Datum.decoded : Datum → Datum
  | .int i => .int (toInt32 i)
  | d => d

/-- The column of the given name in what `NebulaCodecImpl::decode` returns. -/
def decode (cols : List ColumnDef) (row : Row) (name : String) : Option Datum :=
  ((cols.zip row).find? fun p => p.1.name = name).map fun p => p.2.decoded

/-- The value that is put into a field, where nothing was decoded a null.  There is no
value where the `any_cast` throws: `decode` never returns an `int16_t`. -/
def serialize : FieldType → Option Datum → Option FieldValue
  | _, none => some .null
  | .string, some (.string bytes) => some (.string bytes)
  | .int32t, some (.int i) => some (.int32 i)
  | .int64t, some (.int i) => some (.int64 i)
  | .float, some (.float bits) => some (.float bits)
  | .double, some (.double bits) => some (.double bits)
  | .bool, some (.bool b) => some (.bool b)
  | _, some _ => none

/-! ### The store -/

/-- The key of a record: its collection, its schema and its key fields. -/
structure Key where
  space : ℤ
  schema : ℤ
  fields : List ℤ
  deriving DecidableEq

abbrev Store := AList fun _ : Key => List FieldValue

/-- `k2::dto::SKVRecord`. -/
structure Record where
  key : Key
  values : List FieldValue

def Record.put (r : Record) : Write Key (List FieldValue) := .put r.key r.values

@[simp] theorem Record.key_put (r : Record) : r.put.key = r.key := rfl
@[simp] theorem Record.value_put (r : Record) : r.put.value = some r.values := rfl

/-- The store has the last version of every record that is written. -/
def Holds (store : Store) (ws : List (Write Key (List FieldValue))) : Prop :=
  ∀ k v, last k ws = some v → store.lookup k = v

/-! ### The tables of schemas -/

/-- `SchemaTable` and `NebulaSchemaTable`. -/
structure Tables where
  schemas : ℤ → Option Schema
  nebula : ℤ → Option (List ColumnDef)

def Tables.empty : Tables := ⟨fun _ => none, fun _ => none⟩

/-- How a handler ends. -/
inductive Answer where
  /-- An answer without a failed code. -/
  | succeeded
  /-- An answer with a failed code. -/
  | failed
  /-- An exception leaves the handler. -/
  | threw
  /-- The process reads through a null pointer or beyond the end of a vector. -/
  | crashed
  deriving DecidableEq

/-- What may end a handler while it makes its records. -/
inductive Stop where
  | failed
  | crashed

def Stop.answer : Stop → Answer
  | failed => .failed
  | crashed => .crashed

theorem Stop.answer_ne (e : Stop) : e.answer ≠ .succeeded := by cases e <;> decide

namespace Tables

variable (c : ℤ → Option Schema) (t : Tables) (id : ℤ)

/-- The schema of a tag or an edge type: from the table, or else from K2.  There is
none where `GetSchemaFromK2` returns a null pointer. -/
def schemaOf : Option Schema :=
  (t.schemas id).or (c id)

/-- The row schema of a tag or an edge type. -/
def nebulaOf : Option (List ColumnDef) :=
  (t.nebula id).or ((t.schemaOf c id).bind nebulaSchema)

/-- `SchemaTable[id] = schema`. -/
def addSchema (schema : Schema) : Tables :=
  { t with schemas := update t.schemas id (some schema) }

/-- `NebulaSchemaTable[id] = cols`. -/
def addNebula (cols : List ColumnDef) : Tables :=
  { t with nebula := update t.nebula id (some cols) }

variable (t : Tables) (id : ℤ) (schema : Schema)

@[simp] theorem addSchema_schemas :
    (t.addSchema id schema).schemas = update t.schemas id (some schema) := rfl
@[simp] theorem addSchema_nebula :
    (t.addSchema id schema).nebula = t.nebula := rfl
variable (cols : List ColumnDef)

@[simp] theorem addNebula_nebula :
    (t.addNebula id cols).nebula = update t.nebula id (some cols) := rfl

def fieldValues (row : Row) : Option (List FieldValue) :=
  schema.mapM fun field => serialize field.type (decode cols row field.name)

/-- From a row to the values of a record, filling the tables. -/
def values (c : ℤ → Option Schema) (t : Tables) (id : ℤ) (row : Row) :
    Tables × Except Stop (List FieldValue) :=
  match t.schemaOf c id with
  | none => (t, .error .crashed)
  | some schema =>
    let t := t.addSchema id schema
    match (t.nebula id).or (nebulaSchema schema) with
    | none => (t, .error .failed)
    | some cols =>
      let t := t.addNebula id cols
      if rowFits cols row then
        match fieldValues schema cols row with
        | none => (t, .error .failed)
        | some values => (t, .ok values)
      else (t, .error .crashed)

/-- The values of a record, from the schemas. -/
def valuesOf (schema : Option Schema) (cols : Option (List ColumnDef)) (row : Row) :
    Except Stop (List FieldValue) :=
  match schema with
  | none => .error .crashed
  | some schema =>
    match cols with
    | none => .error .failed
    | some cols =>
      if rowFits cols row then
        match fieldValues schema cols row with
        | none => .error .failed
        | some values => .ok values
      else .error .crashed

structure Same (c : ℤ → Option Schema) (t t' : Tables) : Prop where
  schemaOf : ∀ id, t'.schemaOf c id = t.schemaOf c id
  nebulaOf : ∀ id, t'.nebulaOf c id = t.nebulaOf c id

section

variable {c : ℤ → Option Schema} {t : Tables} {id : ℤ}

theorem Same.refl (c : ℤ → Option Schema) (t : Tables) : Same c t t := ⟨fun _ => rfl, fun _ => rfl⟩

theorem Same.trans (h : Same c t t') (h' : Same c t' t'') : Same c t t'' :=
  ⟨fun id => (h'.schemaOf id).trans (h.schemaOf id),
    fun id => (h'.nebulaOf id).trans (h.nebulaOf id)⟩

theorem same_addSchema {schema : Schema} (h : t.schemaOf c id = some schema) :
    Same c t (t.addSchema id schema) := by
  have hs : ∀ id', (t.addSchema id schema).schemaOf c id' = t.schemaOf c id' := by
    intro id'
    rw [schemaOf, addSchema_schemas]
    by_cases hid : id' = id
    · rw [hid, update_self, h, some_or]
    · rw [update_of_ne hid, schemaOf]
  exact ⟨hs, fun id' => by rw [nebulaOf, hs, addSchema_nebula, nebulaOf]⟩

theorem same_addNebula {cols : List ColumnDef} (h : t.nebulaOf c id = some cols) :
    Same c t (t.addNebula id cols) := by
  refine ⟨fun _ => rfl, fun id' => ?_⟩
  rw [nebulaOf, addNebula_nebula]
  by_cases hid : id' = id
  · rw [hid, update_self, h, some_or]
  · rw [update_of_ne hid]
    rfl

theorem nebulaOf_eq {schema : Schema} (h : t.schemaOf c id = some schema) :
    t.nebulaOf c id = (t.nebula id).or (nebulaSchema schema) := by
  rw [nebulaOf, h, bind_some]

theorem values_same (c : ℤ → Option Schema) (t : Tables) (id : ℤ) (row : Row) :
    Same c t (t.values c id row).1 := by
  rw [values]
  cases hs : t.schemaOf c id with
  | none => exact .refl c t
  | some schema =>
    have h := same_addSchema hs
    simp only [addSchema_nebula, ← nebulaOf_eq hs]
    cases hn : t.nebulaOf c id with
    | none => exact h
    | some cols =>
      have h' := h.trans (same_addNebula ((h.nebulaOf id).trans hn))
      dsimp only
      split
      · split <;> exact h'
      · exact h'

theorem values_eq (c : ℤ → Option Schema) (t : Tables) (id : ℤ) (row : Row) :
    (t.values c id row).2 = valuesOf (t.schemaOf c id) (t.nebulaOf c id) row := by
  unfold values valuesOf
  cases hs : t.schemaOf c id with
  | none => rfl
  | some schema =>
    simp only [addSchema_nebula, ← nebulaOf_eq hs]
    cases t.nebulaOf c id with
    | none => rfl
    | some cols =>
      dsimp only
      split
      · split <;> rfl
      · rfl

theorem Same.values_eq (h : Same c t t') (id : ℤ) (row : Row) :
    (t'.values c id row).2 = (t.values c id row).2 := by
  rw [Tables.values_eq, Tables.values_eq, h.schemaOf, h.nebulaOf]

end

section

variable {α : Type} (c : ℤ → Option Schema) (id : α → ℤ) (row : α → Row)

/-- The values of the records of a request, one after the other, as long as none of
them ends the handler. -/
def decodeAll : Tables → List α → Tables × Except Stop (List (α × List FieldValue))
  | t, [] => (t, .ok [])
  | t, x :: xs =>
    match t.values c (id x) (row x) with
    | (t, .error e) => (t, .error e)
    | (t, .ok values) =>
      match decodeAll t xs with
      | (t, .error e) => (t, .error e)
      | (t, .ok rest) => (t, .ok ((x, values) :: rest))

variable {c id row} {t : Tables} {xs : List α} {ys : List (α × List FieldValue)}

section

variable (h : (decodeAll c id row t xs).2 = .ok ys)
include h

/-- **The tables as they are at first tell all the values**: what is added on the way
changes nothing. -/
theorem forall₂_decodeAll :
    List.Forall₂ (fun x y => y.1 = x ∧ (t.values c (id x) (row x)).2 = .ok y.2) xs ys := by
  suffices hgen : ∀ t', Same c t t' → (decodeAll c id row t' xs).2 = .ok ys →
      List.Forall₂ (fun x y => y.1 = x ∧ (t.values c (id x) (row x)).2 = .ok y.2) xs ys from
    hgen t (.refl c t) h
  clear h
  induction xs generalizing ys with
  | nil =>
    rintro t' - h
    cases h
    exact .nil
  | cons x xs ih =>
    intro t' ht h
    have hx := ht.values_eq (id x) (row x)
    have hsame := ht.trans (values_same c t' (id x) (row x))
    rw [decodeAll] at h
    generalize t'.values c (id x) (row x) = r at h hx hsame
    obtain ⟨t₁, _ | values⟩ := r
    · cases h
    dsimp only at h
    cases hd : decodeAll c id row t₁ xs with
    | mk t₂ r =>
      rw [hd] at h
      cases r with
      | error e => cases h
      | ok rest =>
        cases h
        exact .cons ⟨rfl, hx.symm⟩ (ih t₁ hsame (by rw [hd]))

theorem map_fst_decodeAll : ys.map Prod.fst = xs := by
  rw [← List.forall₂_eq_eq_eq, List.forall₂_map_left_iff]
  exact (forall₂_decodeAll h).flip.imp fun _ _ h => h.1

theorem length_decodeAll : ys.length = xs.length :=
  (forall₂_decodeAll h).length_eq.symm

theorem values_of_mem_decodeAll (hy : y ∈ ys) : (t.values c (id y.1) (row y.1)).2 = .ok y.2 := by
  have hall := forall₂_decodeAll h
  clear h
  induction hall with
  | nil => cases hy
  | cons hxy _ ih =>
    obtain rfl | hy := List.mem_cons.mp hy
    · rw [hxy.1]
      exact hxy.2
    · exact ih hy

end

end

end Tables

/-! ### Schemas in the tables are schemas of K2 -/

/-- No two spaces have different schemas under one id: the tables are shared by all
spaces. -/
def OneSchema (c : ℤ → ℤ → Option Schema) : Prop :=
  ∀ sp sp' id schema schema', c sp id = some schema → c sp' id = some schema' → schema = schema'

/-- What is in the tables was taken from K2. -/
structure Tables.From (c : ℤ → ℤ → Option Schema) (t : Tables) : Prop where
  schemas : ∀ id schema, t.schemas id = some schema → ∃ sp, c sp id = some schema
  nebula : ∀ id cols, t.nebula id = some cols →
    ∃ sp schema, c sp id = some schema ∧ nebulaSchema schema = some cols

namespace Tables

section

variable {c : ℤ → ℤ → Option Schema} {t : Tables} {id : ℤ} {schema : Schema}

theorem From.empty (c : ℤ → ℤ → Option Schema) : From c .empty :=
  ⟨fun _ _ h => (by cases h), fun _ _ h => (by cases h)⟩

section

variable (h : t.From c)
include h

theorem From.schemaOf (hs : t.schemaOf (c sp) id = some schema) :
    ∃ sp, c sp id = some schema := by
  rw [Tables.schemaOf] at hs
  cases ht : t.schemas id with
  | some schema' =>
    rw [ht] at hs
    exact h.schemas id schema (ht.trans hs)
  | none =>
    rw [ht] at hs
    exact ⟨sp, hs⟩

theorem From.nebulaOf (hn : t.nebulaOf (c sp) id = some cols) :
    ∃ sp schema, c sp id = some schema ∧ nebulaSchema schema = some cols := by
  rw [Tables.nebulaOf] at hn
  cases ht : t.nebula id with
  | some cols' =>
    rw [ht] at hn
    exact h.nebula id cols (ht.trans hn)
  | none =>
    rw [ht] at hn
    obtain ⟨schema, hs, hc⟩ := bind_eq_some_iff.mp hn
    obtain ⟨sp', hsp'⟩ := h.schemaOf hs
    exact ⟨sp', schema, hsp', hc⟩

theorem From.addSchema (hs : ∃ sp, c sp id = some schema) :
    (t.addSchema id schema).From c := by
  refine ⟨fun id' schema' hs' => ?_, h.nebula⟩
  rw [addSchema_schemas] at hs'
  by_cases hid : id' = id
  · subst hid
    rw [update_self] at hs'
    cases hs'
    exact hs
  · rw [update_of_ne hid] at hs'
    exact h.schemas id' schema' hs'

theorem From.addNebula (hn : ∃ sp schema, c sp id = some schema ∧ nebulaSchema schema = some cols) :
    (t.addNebula id cols).From c := by
  refine ⟨h.schemas, fun id' cols' hn' => ?_⟩
  rw [addNebula_nebula] at hn'
  by_cases hid : id' = id
  · subst hid
    rw [update_self] at hn'
    cases hn'
    exact hn
  · rw [update_of_ne hid] at hn'
    exact h.nebula id' cols' hn'

theorem From.values (row : Row) : (t.values (c sp) id row).1.From c := by
  rw [Tables.values]
  cases hs : t.schemaOf (c sp) id with
  | none => exact h
  | some schema =>
    have h₁ := h.addSchema (h.schemaOf hs)
    simp only [addSchema_nebula, ← nebulaOf_eq hs]
    cases hn : t.nebulaOf (c sp) id with
    | none => exact h₁
    | some cols =>
      have h₂ := h₁.addNebula (h.nebulaOf hn)
      dsimp only
      split
      · split <;> exact h₂
      · exact h₂

end

theorem From.decodeAll (h : t.From c) (xs : List α) :
    (Tables.decodeAll (c sp) ids row t xs).1.From c := by
  induction xs generalizing t with
  | nil => exact h
  | cons x xs ih =>
    have h₁ : (t.values (c sp) (ids x) (row x)).1.From c := h.values (row x)
    rw [decodeAll]
    generalize t.values (c sp) (ids x) (row x) = r at h₁ ⊢
    obtain ⟨t₁, _ | values⟩ := r
    · exact h₁
    have h₂ := ih h₁
    dsimp only
    generalize decodeAll (c sp) ids row t₁ xs = r at h₂ ⊢
    obtain ⟨t₂, _ | rest⟩ := r <;> exact h₂

theorem From.schemas_eq (h : t.From c) (hc : OneSchema c) (hs : c sp id = some schema) :
    t.schemaOf (c sp) id = some schema ∧ t.nebulaOf (c sp) id = nebulaSchema schema := by
  have hschema : t.schemaOf (c sp) id = some schema := by
    cases ht : t.schemaOf (c sp) id with
    | none => simp [Tables.schemaOf, hs] at ht
    | some schema' =>
      obtain ⟨sp', hsp'⟩ := h.schemaOf ht
      rw [hc _ _ _ _ _ hsp' hs]
  refine ⟨hschema, ?_⟩
  rw [nebulaOf_eq hschema]
  cases ht : t.nebula id with
  | none => rfl
  | some cols =>
    obtain ⟨sp', schema', hsp', hcols⟩ := h.nebula id cols ht
    rw [some_or, ← hcols, hc _ _ _ _ _ hsp' hs]

end

end Tables

/-! ### Transactions -/

/-- How a call of the K2 client ends. -/
inductive Outcome where
  | ok
  /-- Not a 2xx status. -/
  | failed
  /-- The promise is set to an exception. -/
  | threw
  deriving DecidableEq

/-- How the calls of one transaction end. -/
structure Outcomes where
  /-- `beginTxn` returns a handle, and does not throw. -/
  beginTxn : Bool
  /-- The `i`-th write that the handler pushes. -/
  write : ℕ → Outcome
  endTxn : Outcome

/-- Every call of a transaction succeeds. -/
def Outcomes.allOk : Outcomes := ⟨true, fun _ => .ok, .ok⟩

/-- What the storage process and K2 hold. -/
structure Server where
  tables : Tables
  store : Store

def accepted (write : ℕ → Outcome) (ws : List (Write Key (List FieldValue))) :
    List (Write Key (List FieldValue)) :=
  (ws.zipIdx.filter fun p => write p.2 = .ok).map Prod.fst

theorem accepted_eq_self (h : ∀ i < ws.length, write i = .ok) : accepted write ws = ws := by
  rw [accepted, List.filter_eq_self.mpr, List.zipIdx_map_fst]
  intro p hp
  simpa using h p.2 (List.mem_zipIdx' hp).1

/-- What a handler does with a transaction: nothing, or it begins one and pushes requests to end
it, each with its `shouldCommit`. -/
abbrev TxnUse := Option (List Bool)

/-- The end of a transaction, and the answer of an insertion handler. -/
def endTxn (o : Outcomes) (isSucceed : Bool) (ws : List (Write Key (List FieldValue)))
    (s : Server) : Server × Answer :=
  match o.endTxn with
  | .threw => (s, .threw)
  | .failed => (s, .failed)
  | .ok =>
    if isSucceed then
      ({ s with store := applyAll s.store (accepted o.write ws) }, .succeeded)
    else (s, .failed)

theorem endTxn_cases (o : Outcomes) (isSucceed : Bool) (ws : List (Write Key (List FieldValue)))
    (s : Server) :
    (o.endTxn = .ok ∧ isSucceed = true ∧ endTxn o isSucceed ws s =
      ({ s with store := applyAll s.store (accepted o.write ws) }, .succeeded)) ∨
    (¬(o.endTxn = .ok ∧ isSucceed = true) ∧ (endTxn o isSucceed ws s).1 = s ∧
      (endTxn o isSucceed ws s).2 ≠ .succeeded) := by
  rw [endTxn]
  cases o.endTxn with
  | threw | failed => exact .inr ⟨by simp, rfl, by simp⟩
  | ok =>
    cases isSucceed with
    | true => exact .inl ⟨rfl, rfl, rfl⟩
    | false => exact .inr ⟨by simp, rfl, by simp⟩

/-! ### Insertion handlers -/

/-- What the two insertion handlers differ in: `α` is what one turn of their loops
leaves. -/
structure Insertion (α : Type) where
  /-- The turns, with the tables that were filled on the way. -/
  decoded : Tables × Except Stop (List α)
  /-- There is a first part. -/
  hasParts : Bool
  /-- How many turns are written. -/
  batch : ℕ
  /-- The writes that are pushed for these turns. -/
  pushed : List α → List (Write Key (List FieldValue))
  /-- `isSucceed`, from the writes the handler waits for. -/
  isSucceed : (ℕ → Outcome) → Bool

namespace Insertion

variable {α : Type} (i : Insertion α)

/-- An insertion handler, once the request is given: make the records, begin a
transaction, push the writes, end the transaction. -/
def handle (o : Outcomes) (s : Server) : TxnUse × Server × Answer :=
  match i.decoded with
  | (t, .error e) => (none, { s with tables := t }, e.answer)
  | (t, .ok xs) =>
    let s := { s with tables := t }
    if !o.beginTxn then (none, s, .failed)
    -- `req.parts.begin()` of no parts, and `skvrecord_list[i]` behind the end
    else if !i.hasParts || xs.length < i.batch then (some [], s, .crashed)
    else (some [i.isSucceed o.write],
      endTxn o (i.isSucceed o.write) (i.pushed (xs.take i.batch)) s)

def run (o : Outcomes) (s : Server) : Server × Answer := (i.handle o s).2

/-- What it takes that the answer has no failed code. -/
structure Succeeds (i : Insertion α) (o : Outcomes) (xs : List α) : Prop where
  decoded : i.decoded.2 = .ok xs
  beginTxn : o.beginTxn = true
  hasParts : i.hasParts = true
  length : i.batch ≤ xs.length
  isSucceed : i.isSucceed o.write = true
  endTxn : o.endTxn = .ok

variable (all : List α → List (Write Key (List FieldValue)))

/-- The records that are written, and those the store has, tell all the records: the
last version of each record is the one of the last accepted write of its key, or, if
there is none, the one of the store. -/
def Covers (o : Outcomes) (store : Store) (xs : List α) : Prop :=
  ∀ k v, last k (all xs) = some v →
    (last k (accepted o.write (i.pushed (xs.take i.batch)))).getD (store.lookup k) = v

variable {i : Insertion α} {all : List α → List (Write Key (List FieldValue))}

theorem Succeeds.eq (h : i.Succeeds o xs) (hys : i.decoded.2 = .ok ys) : ys = xs :=
  Except.ok.inj (hys.symm.trans h.decoded)

/-- **The two ways a handler ends.** -/
theorem run_cases (i : Insertion α) (o : Outcomes) (s : Server) :
    (∃ xs, i.Succeeds o xs ∧ i.run o s = (⟨i.decoded.1,
      applyAll s.store (accepted o.write (i.pushed (xs.take i.batch)))⟩, .succeeded)) ∨
    ((∀ xs, ¬i.Succeeds o xs) ∧ (i.run o s).1 = ⟨i.decoded.1, s.store⟩ ∧
      (i.run o s).2 ≠ .succeeded) := by
  rw [run, handle]
  cases hd : i.decoded with
  | mk t r =>
    cases r with
    | error e =>
      refine .inr ⟨fun xs h => ?_, rfl, e.answer_ne⟩
      have := h.decoded
      rw [hd] at this
      cases this
    | ok xs =>
      dsimp only
      split
      · rename_i hb
        refine .inr ⟨fun ys h => ?_, rfl, by simp⟩
        simp [h.beginTxn] at hb
      rename_i hb
      split_ifs with hcrash
      · refine .inr ⟨fun ys h => ?_, rfl, by simp⟩
        have hlen := h.length
        rw [← h.eq (by rw [hd])] at hlen
        simp only [h.hasParts, Bool.not_true, Bool.false_or, decide_eq_true_eq] at hcrash
        omega
      · simp only [Bool.or_eq_true, Bool.not_eq_true', decide_eq_true_eq, not_or, Bool.not_eq_false,
          not_lt] at hcrash
        obtain ⟨hend, hok, heq⟩ | ⟨hnot, hs, ha⟩ := endTxn_cases o (i.isSucceed o.write)
          (i.pushed (xs.take i.batch)) { s with tables := t }
        · exact .inl ⟨xs, ⟨by rw [hd], by simpa using hb, hcrash.1, hcrash.2, hok, hend⟩, heq⟩
        · exact .inr ⟨fun ys h => hnot ⟨h.endTxn, h.isSucceed⟩, hs, ha⟩

/-- Where the batch covers the records and writes no others, the handler does what writing
all of them would. -/
theorem Covers.lookup (h : i.Covers all o store xs)
    (hkeys : ∀ w ∈ i.pushed (xs.take i.batch), ∃ w' ∈ all xs, w'.key = w.key) (k : Key) :
    (applyAll store (accepted o.write (i.pushed (xs.take i.batch)))).lookup k =
      (applyAll store (all xs)).lookup k := by
  rw [lookup_applyAll, lookup_applyAll store (all xs)]
  cases hl : last k (all xs) with
  | some v => exact h k v hl
  | none =>
    rw [last_eq_none_iff.mpr]
    intro w hw hk
    obtain ⟨p, hp, rfl⟩ := List.mem_map.mp hw
    obtain ⟨w', hw', hkey⟩ := hkeys p.1
      ((List.mem_zipIdx' (List.mem_filter.mp hp).1).2 ▸ List.getElem_mem _)
    exact last_eq_none_iff.mp hl w' hw' (hkey.trans hk)

/-- **What a successful handler leaves**, where the batch covers the records and writes no
others. -/
theorem lookup_run (hcov : ∀ xs, i.Succeeds o xs → i.Covers all o s.store xs)
    (hkeys : ∀ xs, i.decoded.2 = .ok xs →
      ∀ w ∈ i.pushed (xs.take i.batch), ∃ w' ∈ all xs, w'.key = w.key)
    (hans : (i.run o s).2 = .succeeded) :
    ∃ xs, i.decoded.2 = .ok xs ∧ (i.run o s).1.tables = i.decoded.1 ∧
      ∀ k, (i.run o s).1.store.lookup k = (applyAll s.store (all xs)).lookup k := by
  obtain ⟨xs, hsucc, heq⟩ | ⟨-, -, ha⟩ := i.run_cases o s
  · refine ⟨xs, hsucc.decoded, by rw [heq], fun k => ?_⟩
    rw [heq]
    exact (hcov xs hsucc).lookup (hkeys xs hsucc.decoded) k
  · exact absurd hans ha

end Insertion

end K2Graph.Storage
