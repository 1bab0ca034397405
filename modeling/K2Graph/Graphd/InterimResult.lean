import Mathlib.Data.List.Lex
import K2Graph.Base.SupportedType
import K2Graph.Filter.Expression

/-!
# Interim results

The rows that one sentence hands to the next.  A result has the names of its columns and, if
the sentence yielded any rows, the types of its columns and the rows.  Columns are compared
with the operators of their types, so a double that is not a number equals nothing, and they
are cast from one type to another.

## Main results

* `row_compare_key` — rows of the same types compare as their keys do.
* `castTo_type` — casting gives the type asked for.
-/

namespace K2Graph.Graphd

open Filter (Bytes Double)

/-! ### Doubles -/

def isNaN (d : Double) : Bool :=
  d.bits.toNat / 2 ^ 52 % 2 ^ 11 == 2 ^ 11 - 1 && d.bits.toNat % 2 ^ 52 != 0

/-- The place of a double that is a number among the others; both zeros have the same. -/
def rank (d : Double) : ℤ :=
  if d.bits.toNat < 2 ^ 63 then (d.bits.toNat : ℤ) else -((d.bits.toNat : ℤ) - 2 ^ 63)

/-- `==` of doubles. -/
def doubleEq (a b : Double) : Bool := !isNaN a && !isNaN b && decide (rank a = rank b)

/-- `<` of doubles. -/
def doubleLt (a b : Double) : Bool := !isNaN a && !isNaN b && decide (rank a < rank b)

/-! ### Columns -/

/-- `cpp2::ColumnValue`, as far as `getRows` sets it. -/
inductive ColumnValue
  | boolVal (value : Bool)
  | integer (value : Int64)
  | id (value : Int64)
  | doublePrecision (value : Double)
  | str (value : Bytes)
  | timestamp (value : Int64)
  deriving DecidableEq

def ColumnValue.type : ColumnValue → SupportedType
  | .boolVal _ => .bool
  | .integer _ => .int
  | .id _ => .vid
  | .doublePrecision _ => .double
  | .str _ => .string
  | .timestamp _ => .timestamp

/-- `==` of columns. -/
def ColumnValue.eqv : ColumnValue → ColumnValue → Bool
  | .boolVal a, .boolVal b => a == b
  | .integer a, .integer b => a == b
  | .id a, .id b => a == b
  | .doublePrecision a, .doublePrecision b => doubleEq a b
  | .str a, .str b => a == b
  | .timestamp a, .timestamp b => a == b
  | _, _ => false

/-- `<` of columns, which asks for the same type on both sides. -/
def ColumnValue.lt : ColumnValue → ColumnValue → Bool
  | .boolVal a, .boolVal b => !a && b
  | .integer a, .integer b => decide (a < b)
  | .id a, .id b => decide (a < b)
  | .doublePrecision a, .doublePrecision b => doubleLt a b
  | .str a, .str b => decide (a < b)
  | .timestamp a, .timestamp b => decide (a < b)
  | _, _ => false

/-- `cpp2::RowValue`. -/
abbrev Row := List ColumnValue

/-- `==` of rows. -/
def rowEq : Row → Row → Bool
  | [], [] => true
  | a :: as, b :: bs => a.eqv b && rowEq as bs
  | _, _ => false

/-- `<` of rows, which is `std::lexicographical_compare`. -/
def rowLt : Row → Row → Bool
  | [], [] => false
  | [], _ :: _ => true
  | _ :: _, [] => false
  | a :: as, b :: bs => if a.lt b then true else if b.lt a then false else rowLt as bs

def rowTypes (row : Row) : List SupportedType := row.map ColumnValue.type

/-- No column of the row is a double that is not a number. -/
def IsNumeric (row : Row) : Prop := ∀ d, ColumnValue.doublePrecision d ∈ row → isNaN d = false

/-! ### Casting -/

/-- What `castTo` takes from the language and the library. -/
structure Casts where
  /-- `static_cast<int64_t>`. -/
  truncate : Double → Int64
  /-- `static_cast<double>`. -/
  ofInt : Int64 → Double
  /-- `folly::tryTo<int64_t>`. -/
  intOfText : Bytes → Option Int64
  /-- `folly::tryTo<double>`. -/
  doubleOfText : Bytes → Option Double
  /-- `folly::to<std::string>` of an integer. -/
  textOfInt : Int64 → Bytes
  /-- `folly::to<std::string>` of a double. -/
  textOfDouble : Double → Bytes
  /-- `folly::to<std::string>` of a bool. -/
  textOfBool : Bool → Bytes

variable (casts : Casts)

/-- The number that `castToInt`, `castToVid` and `castToTimestamp` set. -/
def toInt64 : ColumnValue → Option Int64
  | .integer v => some v
  | .id v => some v
  | .timestamp v => some v
  | .doublePrecision v => some (casts.truncate v)
  | .boolVal v => some (if v then 1 else 0)
  | .str v => casts.intOfText v

variable (col : ColumnValue)

def castToInt : Option ColumnValue :=
  (toInt64 casts col).map .integer

def castToVid : Option ColumnValue :=
  (toInt64 casts col).map .id

def castToTimestamp : Option ColumnValue :=
  (toInt64 casts col).map .timestamp

def castToDouble : ColumnValue → Option ColumnValue
  | .id v => some (.doublePrecision (casts.ofInt v))
  | .integer v => some (.doublePrecision (casts.ofInt v))
  | .timestamp v => some (.doublePrecision (casts.ofInt v))
  | .doublePrecision v => some (.doublePrecision v)
  | .boolVal v => some (.doublePrecision (casts.ofInt (if v then 1 else 0)))
  | .str v => (casts.doubleOfText v).map .doublePrecision

/-- `castToBool`; the empty text is the one that is true. -/
def castToBool : ColumnValue → Option ColumnValue
  | .id v => some (.boolVal (v != 0))
  | .integer v => some (.boolVal (v != 0))
  | .timestamp v => some (.boolVal (v != 0))
  | .doublePrecision v => some (.boolVal (!doubleEq v .zero))
  | .boolVal v => some (.boolVal v)
  | .str v => some (.boolVal v.isEmpty)

def castToStr : ColumnValue → Option ColumnValue
  | .id v => some (.str (casts.textOfInt v))
  | .integer v => some (.str (casts.textOfInt v))
  | .timestamp v => some (.str (casts.textOfInt v))
  | .doublePrecision v => some (.str (casts.textOfDouble v))
  | .boolVal v => some (.str (casts.textOfBool v))
  | .str v => some (.str v)

def castTo : SupportedType → Option ColumnValue
  | .vid => castToVid casts col
  | .int => castToInt casts col
  | .timestamp => castToTimestamp casts col
  | .double => castToDouble casts col
  | .bool => castToBool col
  | .string => castToStr casts col
  | _ => none

theorem castTo_type {casts : Casts} {col : ColumnValue} (h : castTo casts col type = some col') :
    col'.type = type := by
  cases type with
  | vid | int | timestamp =>
    obtain ⟨v, -, rfl⟩ := Option.map_eq_some_iff.mp h
    rfl
  | double =>
    cases col with
    | str v =>
      obtain ⟨d, -, rfl⟩ := Option.map_eq_some_iff.mp h
      rfl
    | _ =>
      obtain rfl := Option.some.inj h
      rfl
  | bool | string =>
    cases col <;>
      obtain rfl := Option.some.inj h <;>
      rfl
  | _ => cases h

/-! ### Results -/

/-- The rows of a result, as `getRows` reads them, with the types of their columns.  A
sentence yields at least one column. -/
structure RowSet where
  schema : List SupportedType
  schema_ne : schema ≠ []
  rows : List Row
  typed : ∀ row ∈ rows, rowTypes row = schema

structure InterimResult where
  colNames : List Bytes
  /-- `rsWriter_` and `rsReader_`, where they are set. -/
  data : Option RowSet

variable (r : InterimResult)

/-- The rows, none if no row set is there. -/
def InterimResult.rows : List Row :=
  match r.data with
  | none => []
  | some set => set.rows

def InterimResult.hasData : Bool := !r.rows.isEmpty

/-- `schema`; without data there is none, and it has no columns to iterate over. -/
def InterimResult.schema : List SupportedType :=
  match r.data with
  | none => []
  | some set => set.schema

variable {row : Row} {r : InterimResult}

theorem InterimResult.rowTypes_of_mem (h : row ∈ r.rows) : rowTypes row = r.schema := by
  unfold InterimResult.rows at h
  unfold InterimResult.schema
  cases hd : r.data with
  | none => simp [hd] at h
  | some set =>
    simp only [hd] at h ⊢
    exact set.typed row h

theorem InterimResult.ne_nil_of_mem (h : row ∈ r.rows) : row ≠ [] := by
  intro hnil
  have htypes := r.rowTypes_of_mem h
  unfold InterimResult.rows at h
  unfold InterimResult.schema at htypes
  cases hd : r.data with
  | none => simp [hd] at h
  | some set =>
    simp only [hd, hnil] at htypes
    exact set.schema_ne htypes.symm

/-! ### Equality of rows -/

theorem doubleEq_comm (a b : Double) : doubleEq a b = doubleEq b a := by
  unfold doubleEq
  rw [Bool.and_comm (!isNaN a), decide_eq_decide.mpr (eq_comm)]

theorem doubleEq_trans (hab : doubleEq a b = true) (hbc : doubleEq b c = true) :
    doubleEq a c = true := by
  simp only [doubleEq, Bool.and_eq_true, decide_eq_true_eq] at hab hbc ⊢
  exact ⟨⟨hab.1.1, hbc.1.2⟩, hab.2.trans hbc.2⟩

theorem ColumnValue.eqv_comm (a b : ColumnValue) : a.eqv b = b.eqv a := by
  cases a <;> cases b <;> simp [ColumnValue.eqv, doubleEq_comm, Bool.beq_comm]

theorem ColumnValue.eqv_trans {a : ColumnValue} (hab : a.eqv b = true) (hbc : b.eqv c = true) :
    a.eqv c = true := by
  cases a with
  | doublePrecision v =>
    cases b <;> simp only [ColumnValue.eqv, Bool.false_eq_true] at hab
    cases c <;> simp only [ColumnValue.eqv, Bool.false_eq_true] at hbc
    exact doubleEq_trans hab hbc
  | _ =>
    cases b <;> simp only [ColumnValue.eqv, Bool.false_eq_true, beq_iff_eq] at hab
    subst hab
    exact hbc

theorem rowEq_comm (a b : Row) : rowEq a b = rowEq b a := by
  induction a generalizing b with
  | nil => cases b <;> rfl
  | cons x a ih =>
    cases b with
    | nil => rfl
    | cons y b => rw [rowEq, rowEq, ColumnValue.eqv_comm, ih]

theorem rowEq_trans (hab : rowEq a b = true) (hbc : rowEq b c = true) :
    rowEq a c = true := by
  induction a generalizing b c with
  | nil =>
    cases b with
    | nil => exact hbc
    | cons y b => cases hab
  | cons x a ih =>
    cases b with
    | nil => cases hab
    | cons y b =>
      cases c with
      | nil => cases hbc
      | cons z c =>
        simp only [rowEq, Bool.and_eq_true] at hab hbc ⊢
        exact ⟨ColumnValue.eqv_trans hab.1 hbc.1, ih hab.2 hbc.2⟩

theorem rowEq_congr (h : rowEq a b = true) (c : Row) : rowEq a c = rowEq b c := by
  have hba : rowEq b a = true := by rwa [rowEq_comm]
  rw [Bool.eq_iff_iff]
  exact ⟨rowEq_trans hba, rowEq_trans h⟩

theorem rowEq_self_iff : rowEq row row = true ↔ IsNumeric row := by
  unfold IsNumeric
  induction row with
  | nil => simp [rowEq]
  | cons x row ih =>
    rw [rowEq, Bool.and_eq_true, ih]
    have hx : x.eqv x = true ↔ ∀ d, x = .doublePrecision d → isNaN d = false := by
      cases x <;> simp [ColumnValue.eqv, doubleEq]
    rw [hx]
    constructor
    · rintro ⟨h, hrow⟩ d hd
      rcases List.mem_cons.mp hd with hd | hd
      · exact h d hd.symm
      · exact hrow d hd
    · intro h
      exact ⟨fun d hd => h d (hd ▸ List.mem_cons_self), fun d hd => h d (List.mem_cons_of_mem _ hd)⟩

instance (row : Row) : Decidable (IsNumeric row) := decidable_of_iff _ rowEq_self_iff

/-! ### The order of rows -/

/-- What columns of one type are ordered by. -/
def ColumnValue.key : ColumnValue → List ℤ
  | .boolVal v => [if v then 1 else 0]
  | .integer v => [v.toInt]
  | .id v => [v.toInt]
  | .doublePrecision v => [rank v]
  | .str v => v.map fun b => (b.toNat : ℤ)
  | .timestamp v => [v.toInt]

theorem bytes_lt_iff (a b : Bytes) :
    a < b ↔ (a.map fun b => (b.toNat : ℤ)) < b.map fun b => (b.toNat : ℤ) := by
  induction a generalizing b with
  | nil => cases b <;> simp
  | cons x a ih =>
    cases b with
    | nil => simp
    | cons y b =>
      rw [List.map_cons, List.map_cons, List.cons_lt_cons_iff, List.cons_lt_cons_iff, ← ih b,
        Nat.cast_lt, Nat.cast_inj, ← UInt8.lt_iff_toNat_lt, UInt8.toNat_inj]

theorem bytes_map_inj {a : Bytes} :
    (a.map fun b => (b.toNat : ℤ)) = b.map (fun b => (b.toNat : ℤ)) ↔ a = b := by
  refine ⟨fun h => List.map_injective_iff.mpr ?_ h, fun h => h ▸ rfl⟩
  intro x y hxy
  exact UInt8.toNat_inj.mp (Nat.cast_inj.mp hxy)

theorem ColumnValue.compare_key {a : ColumnValue} (htype : a.type = b.type)
    (ha : ∀ d, a = .doublePrecision d → isNaN d = false)
    (hb : ∀ d, b = .doublePrecision d → isNaN d = false) :
    (a.lt b = true ↔ a.key < b.key) ∧ (a.eqv b = true ↔ a.key = b.key) := by
  cases a with
  | boolVal v =>
    cases b <;> cases htype
    rename_i w
    cases v <;> cases w <;> decide
  | doublePrecision v =>
    cases b <;> cases htype
    rename_i w
    simp [ColumnValue.lt, ColumnValue.eqv, ColumnValue.key, doubleLt, doubleEq, ha v rfl,
      hb w rfl, List.cons_lt_cons_iff]
  | str v =>
    cases b <;> cases htype
    rename_i w
    simp only [ColumnValue.lt, ColumnValue.eqv, ColumnValue.key, decide_eq_true_eq, beq_iff_eq,
      bytes_map_inj, and_true]
    exact bytes_lt_iff v w
  | _ =>
    cases b <;> cases htype
    simp [ColumnValue.lt, ColumnValue.eqv, ColumnValue.key, Int64.lt_iff_toInt_lt, Int64.toInt_inj,
      List.cons_lt_cons_iff]

theorem row_compare_key (htypes : rowTypes a = rowTypes b) (ha : IsNumeric a)
    (hb : IsNumeric b) :
    (rowLt a b = true ↔ a.map ColumnValue.key < b.map ColumnValue.key) ∧
      (rowEq a b = true ↔ a.map ColumnValue.key = b.map ColumnValue.key) := by
  induction a generalizing b with
  | nil =>
    cases b with
    | nil => simp [rowLt, rowEq]
    | cons y b => cases htypes
  | cons x a ih =>
    cases b with
    | nil => cases htypes
    | cons y b =>
      obtain ⟨htype, htypes⟩ := List.cons.inj htypes
      have hx : ∀ d, x = .doublePrecision d → isNaN d = false :=
        fun d hd => ha d (hd ▸ List.mem_cons_self)
      have hy : ∀ d, y = .doublePrecision d → isNaN d = false :=
        fun d hd => hb d (hd ▸ List.mem_cons_self)
      obtain ⟨hlt, heq⟩ := ColumnValue.compare_key htype hx hy
      have hgt := (ColumnValue.compare_key htype.symm hy hx).1
      obtain ⟨ihlt, iheq⟩ := ih htypes (fun d hd => ha d (List.mem_cons_of_mem _ hd))
        (fun d hd => hb d (List.mem_cons_of_mem _ hd))
      constructor
      · rw [List.map_cons, List.map_cons, List.cons_lt_cons_iff, rowLt, ← ihlt, ← hlt, ← heq]
        rcases lt_trichotomy x.key y.key with h | h | h
        · simp [hlt.mpr h]
        · have hngt : ¬ y.lt x = true := fun hl => (hgt.mp hl).ne h.symm
          simp [hngt, heq.mpr h]
        · have hneq : ¬ x.eqv y = true := fun he => h.ne (heq.mp he).symm
          simp [hneq, hgt.mpr h]
      · rw [rowEq, Bool.and_eq_true, heq, iheq, List.map_cons, List.map_cons, List.cons.injEq]

end K2Graph.Graphd
