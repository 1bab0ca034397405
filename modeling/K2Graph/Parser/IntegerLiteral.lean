import Mathlib.Data.Nat.Digits.Lemmas
import K2Graph.Filter.Expression
import K2Graph.Lib.Checked

/-!
# Integer literals

What the scanner and the rule of primary expressions make of an integer.  A text is the
list of its digits, without the `0x` of a hexadecimal one.

`sscanf` reads a number that does not fit as the largest one, and `folly::to` throws.  Behind
a minus the scanner's number is negated, which the one for the least integer cannot be.

## Main results

* `means_primaryExpression_iff` — a literal means its value, unless it is that of the least integer.
* `not_means` — the least integer.
-/

namespace K2Graph.Parser

open List Filter

/-! ### The scanner -/

/-- What the digits stand for, the most significant one first. -/
def value (base : ℕ) (digits : List ℕ) : ℕ := Nat.ofDigits base digits.reverse

/-- `sscanf` with `%lx` or `%lo`. -/
def sscanf (base : ℕ) (digits : List ℕ) : ℕ := min (value base digits) (2 ^ 64 - 1)

/-- `folly::to<uint64_t>`. -/
def toUint64 (digits : List ℕ) : Option ℕ :=
  if value 10 digits < 2 ^ 64 then some (value 10 digits) else none

/-- `MAX_ABS_INTEGER`. -/
def maxAbsInteger : ℕ := 9223372036854775808

/-- How the three rules end. -/
def intval (val : ℕ) : Option Int64 := if maxAbsInteger < val then none else some (.ofNat val)

/-- The digits without the leading zeros. -/
def significant (digits : List ℕ) : List ℕ := digits.dropWhile (· == 0)

/-- `0[Xx]{HEX}+`, with the digits behind the `x`. -/
def scanHex (digits : List ℕ) : Option Int64 :=
  if 18 < digits.length + 2 ∧ 16 < (significant digits).length then none
  else intval (sscanf 16 digits)

/-- `0{OCT}+`, with the digits behind the first zero. -/
def scanOct (digits : List ℕ) : Option Int64 :=
  if 22 < digits.length + 1 ∧ (22 < (significant digits).length ∨
      (significant digits).length = 22 ∧ (significant digits).head? ≠ some 1) then none
  else intval (sscanf 8 digits)

/-- `{DEC}+`. -/
def scanDec (digits : List ℕ) : Option Int64 := (toUint64 digits).bind intval

/-- The text of an integer, with `0x` or without. -/
inductive Literal
  | hex (digits : List ℕ) (h : digits ≠ [] ∧ ∀ d ∈ digits, d < 16)
  | plain (digits : List ℕ) (h : digits ≠ [] ∧ ∀ d ∈ digits, d < 10)

/-- Octal notation.  The two rules for texts without `0x` both match the whole of such a text,
and the one for octal digits stands first; of other texts `{DEC}+` matches more. -/
def IsOct (digits : List ℕ) : Prop :=
  digits.head? = some 0 ∧ digits.tail ≠ [] ∧ ∀ d ∈ digits, d < 8

instance (digits : List ℕ) : Decidable (IsOct digits) := inferInstanceAs (Decidable (_ ∧ _))

def Literal.scan : Literal → Option Int64
  | hex digits _ => scanHex digits
  | plain digits _ => if IsOct digits then scanOct digits.tail else scanDec digits

/-! ### The grammar -/

/-- `ifOutOfRange`, which throws. -/
def ifOutOfRange (input : Int64) : Bool := decide (maxAbsInteger ≤ input.toUInt64.toNat)

/-- What becomes of a literal. -/
inductive Parsed
  | expression (e : Expression)
  | syntaxError
  /-- Signed overflow. -/
  | undefined

/-- `primary_expression`, on a literal with or without a minus. -/
def primaryExpression (minus : Bool) (l : Literal) : Parsed :=
  match l.scan with
  | none => .syntaxError
  | some input =>
    if minus then
      match Checked.neg input with
      | some negated => .expression (.primary (.int negated))
      | none => .undefined
    else if ifOutOfRange input then .syntaxError
    else .expression (.primary (.int input))

/-- The number that is written. -/
def Literal.value : Literal → ℕ
  | hex digits _ => Parser.value 16 digits
  | plain digits _ => Parser.value (if IsOct digits then 8 else 10) digits

/-- The expression holds the number if that is in the range of `int64_t`; otherwise there is a
syntax error. -/
def Means (result : Parsed) (number : ℤ) : Prop :=
  if Checked.Fits number then
    ∃ x : Int64, x.toInt = number ∧ result = .expression (.primary (.int x))
  else result = .syntaxError

/-! ### No number is lost -/

theorem value_cons (base d : ℕ) (digits : List ℕ) :
    value base (d :: digits) = value base digits + base ^ digits.length * d := by
  rw [value, reverse_cons, Nat.ofDigits_append, Nat.ofDigits_singleton, length_reverse, value]

/-- The number of digits and the first one bound the number. -/
theorem value_bounds (hbase : 1 < base) (h : ∀ d ∈ digits, d < base) :
    (significant digits = [] ∧ value base digits = 0) ∨
      ∃ d rest, significant digits = d :: rest ∧ 0 < d ∧ d < base ∧
        base ^ rest.length * d ≤ value base digits ∧
        value base digits < base ^ rest.length * (d + 1) := by
  induction digits with
  | nil => exact .inl ⟨rfl, rfl⟩
  | cons d digits ih =>
    have hrest : ∀ d ∈ digits, d < base := fun d hd => h d (mem_cons_of_mem _ hd)
    rw [value_cons]
    by_cases hd : d = 0
    · rw [hd, mul_zero, add_zero]
      exact ih hrest
    have hlt : value base digits < base ^ digits.length := by
      have hlt := Nat.ofDigits_lt_base_pow_length hbase fun d hd => hrest d (mem_reverse.mp hd)
      rwa [length_reverse] at hlt
    refine .inr ⟨d, digits, ?_, Nat.pos_of_ne_zero hd, h d mem_cons_self, Nat.le_add_left _ _, ?_⟩
    · simp [significant, hd]
    · rw [mul_add, mul_one, add_comm]
      exact Nat.add_lt_add_left hlt _

theorem intval_sscanf (h : value base digits < 2 ^ 64) :
    intval (sscanf base digits) = intval (value base digits) := by
  rw [sscanf, min_eq_left (Nat.le_sub_one_of_lt h)]

theorem none_eq_intval (h : 2 ^ 64 ≤ val) : none = intval val := by
  rw [intval, if_pos]
  exact lt_of_lt_of_le (by decide) h

theorem length_significant_le (digits : List ℕ) : (significant digits).length ≤ digits.length :=
  (dropWhile_sublist _).length_le

theorem scanHex_eq (h : ∀ d ∈ digits, d < 16) : scanHex digits = intval (value 16 digits) := by
  have hlen := length_significant_le digits
  rcases value_bounds (by decide) h with ⟨hnil, hzero⟩ | ⟨d, rest, heq, hpos, hd, hle, hlt⟩
  · rw [scanHex, hnil, if_neg (by simp), intval_sscanf (by rw [hzero]; decide)]
  rw [heq, length_cons] at hlen
  rw [scanHex, heq, length_cons]
  split_ifs with hlong
  · have hpow : 16 ^ 16 ≤ 16 ^ rest.length := Nat.pow_le_pow_right (by decide) (by omega)
    exact none_eq_intval ((hpow.trans (Nat.le_mul_of_pos_right _ hpos)).trans hle)
  · have hpow : 16 ^ rest.length ≤ 16 ^ 15 := Nat.pow_le_pow_right (by decide) (by omega)
    have hmul : 16 ^ rest.length * (d + 1) ≤ 16 ^ 15 * 16 := Nat.mul_le_mul hpow hd
    exact intval_sscanf (hlt.trans_le hmul)

theorem scanOct_eq (h : ∀ d ∈ digits, d < 8) : scanOct digits = intval (value 8 digits) := by
  have hlen := length_significant_le digits
  rcases value_bounds (by decide) h with ⟨hnil, hzero⟩ | ⟨d, rest, heq, hpos, hd, hle, hlt⟩
  · rw [scanOct, hnil, if_neg (by simp), intval_sscanf (by rw [hzero]; decide)]
  rw [heq, length_cons] at hlen
  rw [scanOct, heq, length_cons, head?_cons]
  split_ifs with hlong
  · refine none_eq_intval (le_trans ?_ hle)
    rcases hlong.2 with hmore | ⟨hsame, hne⟩
    · have hpow : 8 ^ 22 ≤ 8 ^ rest.length := Nat.pow_le_pow_right (by decide) (by omega)
      exact le_trans (by decide) (Nat.mul_le_mul hpow hpos)
    · obtain hsame : rest.length = 21 := by omega
      have htwo : 2 ≤ d := by grind
      rw [hsame]
      exact Nat.mul_le_mul_left (8 ^ 21) htwo
  · refine intval_sscanf (hlt.trans_le ?_)
    by_cases hsame : rest.length = 21
    · have htwo : d + 1 ≤ 2 := by grind
      rw [hsame]
      exact Nat.mul_le_mul_left (8 ^ 21) htwo
    · have hpow : 8 ^ rest.length ≤ 8 ^ 20 := Nat.pow_le_pow_right (by decide) (by omega)
      exact (Nat.mul_le_mul hpow hd).trans (by decide)

theorem scanDec_eq (digits : List ℕ) : scanDec digits = intval (value 10 digits) := by
  rw [scanDec, toUint64]
  split_ifs with h
  · rfl
  · exact none_eq_intval (not_lt.mp h)

theorem Literal.scan_eq (l : Literal) : l.scan = intval l.value := by
  cases l with
  | hex digits h => exact scanHex_eq h.2
  | plain digits h =>
    rw [scan, value]
    split_ifs with hoct
    · obtain ⟨hzero, -, hlt⟩ := hoct
      obtain ⟨rest, rfl⟩ := head?_eq_some_iff.mp hzero
      rw [value_cons, mul_zero, add_zero]
      exact scanOct_eq fun d hd => hlt d (mem_cons_of_mem _ hd)
    · exact scanDec_eq digits

/-- What the scanner has made of `2 ^ 63` cannot be negated. -/
theorem neg_ofNat (h : v ≤ 2 ^ 63) :
    Checked.neg (.ofNat v) = if v = 2 ^ 63 then none else some (.ofInt (-v)) := by
  split_ifs with hv
  · rw [hv]
    rfl
  · rw [Checked.neg, Int64.toInt_ofNat_of_lt (by omega)]
    exact Checked.exact_of_fits ⟨by omega, by omega⟩

/-- **A literal means its value, exactly if it is not that of the least integer.** -/
theorem means_primaryExpression_iff (minus : Bool) (l : Literal) :
    Means (primaryExpression minus l) (if minus then -l.value else l.value) ↔
      ¬(minus = true ∧ l.value = 2 ^ 63) := by
  rw [primaryExpression, l.scan_eq, intval]
  generalize l.value = v
  have hmax : maxAbsInteger = 2 ^ 63 := rfl
  by_cases hv : maxAbsInteger < v
  · rw [if_pos hv, Means, if_neg (by simp only [Checked.Fits]; split_ifs <;> omega)]
    exact iff_of_true rfl (by omega)
  rw [if_neg hv]
  cases minus with
  | true =>
    have hfits : Checked.Fits (-v) := ⟨by omega, by omega⟩
    simp only [Means, if_true, if_pos hfits, neg_ofNat (not_lt.mp hv), true_and]
    by_cases hleast : v = 2 ^ 63
    · simp [hleast]
    · rw [if_neg hleast]
      exact iff_of_true ⟨_, Checked.toInt_ofInt hfits, rfl⟩ hleast
  | false =>
    have hlt : v < UInt64.size := by
      have : UInt64.size = 2 ^ 64 := rfl
      omega
    refine iff_of_true ?_ (by simp)
    simp only [Bool.false_eq_true, if_false, ifOutOfRange, Int64.toUInt64_ofNat',
      UInt64.toNat_ofNat_of_lt' hlt]
    cases Nat.lt_or_ge v maxAbsInteger with
    | inl hlast =>
      rw [Means, if_pos ⟨by omega, by omega⟩, decide_eq_false (not_le.mpr hlast)]
      exact ⟨_, Int64.toInt_ofNat_of_lt hlast, rfl⟩
    | inr hlast =>
      rw [Means, if_neg (by simp only [Checked.Fits]; omega), decide_eq_true hlast]
      rfl

/-- `9223372036854775808`. -/
def leastDigits : Literal :=
  .plain [9, 2, 2, 3, 3, 7, 2, 0, 3, 6, 8, 5, 4, 7, 7, 5, 8, 0, 8] (by decide)

/-- **The least integer is undefined**: the scanner's number for its digits is negated. -/
theorem not_means : leastDigits.value = 2 ^ 63 ∧ primaryExpression true leastDigits = .undefined ∧
    ¬ Means (primaryExpression true leastDigits) (-2 ^ 63) := by
  have hundefined : primaryExpression true leastDigits = .undefined := rfl
  refine ⟨by decide, hundefined, ?_⟩
  rw [hundefined, Means, if_pos (by decide)]
  rintro ⟨x, -, hx⟩
  cases hx

end K2Graph.Parser
