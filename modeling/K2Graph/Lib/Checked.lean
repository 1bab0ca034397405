import Mathlib.Tactic.Linarith
import Mathlib.Tactic.Ring

/-!
# Signed 64-bit arithmetic with undefined results

An operation on signed integers has no result when the exact one does not fit, and a
division has none by zero.  `Checked.add` and the others return the result if there
is one.

## Main definitions

* `Checked.Fits` — the integers 64 bits hold.
* `Checked.exact` — a result that may not fit.
* `Checked.add`, `Checked.sub`, `Checked.mul`, `Checked.div`, `Checked.mod`,
  `Checked.neg`, `Checked.abs` — the operations.

## Main results

* `Checked.tdiv_lt_iff`, `Checked.lt_tdiv_iff` and the like — quotients compared by
  products.
* `Checked.fits_tdiv_iff`, `Checked.fits_tmod` — which quotients and remainders fit.
-/

namespace K2Graph.Checked

/-- The integers 64 bits hold. -/
def Fits (x : ℤ) : Prop := -2 ^ 63 ≤ x ∧ x < 2 ^ 63

instance (x : ℤ) : Decidable (Fits x) := inferInstanceAs (Decidable (_ ∧ _))

theorem fits_toInt (v : Int64) : Fits v.toInt := ⟨v.le_toInt, v.toInt_lt⟩

def exact (x : ℤ) : Option Int64 := if Fits x then some (Int64.ofInt x) else none

variable {x : ℤ}

theorem exact_of_fits (h : Fits x) : exact x = some (Int64.ofInt x) := if_pos h

theorem toInt_ofInt (h : Fits x) : (Int64.ofInt x).toInt = x :=
  Int64.toInt_ofInt_of_le h.1 h.2

/-! ### The operations -/

variable (a b : Int64)

/-- `a + b`. -/
def add : Option Int64 := exact (a.toInt + b.toInt)

/-- `a - b`. -/
def sub : Option Int64 := exact (a.toInt - b.toInt)

/-- `a * b`. -/
def mul : Option Int64 := exact (a.toInt * b.toInt)

/-- `-a`. -/
def neg : Option Int64 := exact (-a.toInt)

/-- `abs(a)`. -/
def abs : Option Int64 := exact |a.toInt|

/-- `a / b`: the quotient is truncated. -/
def div : Option Int64 := if b = 0 then none else exact (a.toInt.tdiv b.toInt)

/-- `a % b`: the remainder of the truncated quotient, which has to fit. -/
def mod : Option Int64 :=
  if b = 0 ∨ ¬ Fits (a.toInt.tdiv b.toInt) then none else exact (a.toInt.tmod b.toInt)

/-! ### Quotients -/

theorem tdiv_lt_iff (hx : 0 ≤ x) (hy : 0 < y) : x.tdiv y < z ↔ x < z * y := by
  rw [Int.tdiv_eq_ediv_of_nonneg hx]
  exact Int.ediv_lt_iff_lt_mul hy

theorem lt_tdiv_neg_iff (hx : 0 ≤ x) (hy : y < 0) : z < x.tdiv y ↔ x < z * y := by
  have hneg := tdiv_lt_iff (z := -z) hx (neg_pos_of_neg hy)
  rw [Int.tdiv_neg, neg_mul_neg] at hneg
  omega

theorem lt_neg_tdiv_iff (hx : 0 ≤ x) (hy : 0 < y) : z < (-x).tdiv y ↔ z * y < -x := by
  have hneg := tdiv_lt_iff (z := -z) hx hy
  rw [Int.neg_tdiv]
  rw [neg_mul] at hneg
  constructor
  · omega
  · omega

theorem neg_tdiv_neg_lt_iff (hx : 0 ≤ x) (hy : y < 0) : (-x).tdiv y < z ↔ z * y < -x := by
  have hneg := tdiv_lt_iff (z := z) hx (neg_pos_of_neg hy)
  rw [Int.tdiv_neg, ← Int.neg_tdiv] at hneg
  rw [hneg, mul_neg]
  omega

/-- **A quotient fits**, unless the dividend is the smallest integer and the divisor
is minus one. -/
theorem fits_tdiv_iff (hx : Fits x) (hy : y ≠ 0) :
    Fits (x.tdiv y) ↔ ¬ (x = -2 ^ 63 ∧ y = -1) := by
  constructor
  · rintro hfits ⟨rfl, rfl⟩
    exact absurd hfits (by decide)
  intro hnot
  obtain ⟨hlow, hhigh⟩ := hx
  have hle : (x.tdiv y).natAbs ≤ x.natAbs := Int.natAbs_tdiv_le_natAbs x y
  refine ⟨by omega, ?_⟩
  by_contra hbig
  have hmin : x = -2 ^ 63 := by omega
  rw [hmin] at hbig
  rcases lt_or_gt_of_ne hy with hneg | hpos
  · refine hbig ((neg_tdiv_neg_lt_iff (by norm_num) hneg).mpr ?_)
    omega
  · have hquot : 0 ≤ (2 ^ 63 : ℤ).tdiv y := Int.tdiv_nonneg (by norm_num) hpos.le
    rw [Int.neg_tdiv] at hbig
    omega

theorem fits_tmod (hx : Fits x) (y : ℤ) : Fits (x.tmod y) := by
  obtain ⟨hlow, hhigh⟩ := hx
  have hle : (x.tmod y).natAbs ≤ x.natAbs := by
    rw [Int.natAbs_tmod]
    exact Nat.mod_le _ _
  rcases le_or_gt 0 x with h | h
  · exact ⟨by omega, by omega⟩
  have : x.tmod y ≤ 0 := by
    have := Int.tmod_nonneg y (a := -x) (by omega)
    rw [Int.neg_tmod] at this
    omega
  exact ⟨by omega, by omega⟩

end K2Graph.Checked
