import K2Graph.Filter.Expression

/-!
# Integer arithmetic of expressions

The operators on two integers should return the exact result if it fits, and a `Status`
otherwise.  The tests that are to see to that compute with signed integers themselves.

Addition is right.  Negating the smallest integer overflows, in the test of a
subtraction, in `abs` of a divisor and in the unary minus.  The test of a multiplication
divides the smallest integer by a negative left operand, which traps when that is minus
one.  Dividing the smallest integer by minus one is not tested at all.

## Main results

* `exact_eval_iff` — the operands on which evaluation is exact.
* `not_exact_eval` — some on which it is not.
-/

namespace K2Graph.Filter

open Option Checked Expression

/-! ### The property -/

/-- The result is returned if there is one and it fits, and a `Status` otherwise. -/
def Exact (result : Option ℤ) (outcome : Outcome VariantType) : Prop :=
  match result with
  | some x => if Fits x then outcome = .ok (.int (Int64.ofInt x))
              else ∃ msg, outcome = .error (.status msg)
  | none => ∃ msg, outcome = .error (.status msg)

/-- The exact result; there is none for a division by zero.  `XOR` has no overflow. -/
def ArithmeticOp.result (op : ArithmeticOp) (l r : Int64) : Option ℤ :=
  match op with
  | .add => some (l.toInt + r.toInt)
  | .sub => some (l.toInt - r.toInt)
  | .mul => some (l.toInt * r.toInt)
  | .div => if r = 0 then none else some (l.toInt.tdiv r.toInt)
  | .mod => if r = 0 then none else some (l.toInt.tmod r.toInt)
  | .xor => some (l ^^^ r).toInt

/-- The operands on which evaluation is exact. -/
def ArithmeticOp.safe (op : ArithmeticOp) (l r : Int64) : Prop :=
  match op with
  | .add => True
  | .sub => ¬ (0 ≤ l ∧ r = minInt)
  | .mul => ¬ (l = -1 ∧ 0 < r)
  | .div => ¬ (r = minInt ∨ l = minInt ∧ r = -1)
  | .mod => ¬ (r = minInt ∨ l = minInt ∧ r = -1)
  | .xor => True

instance (op : ArithmeticOp) (l r : Int64) : Decidable (op.safe l r) :=
  match op with
  | .add | .xor => inferInstanceAs (Decidable True)
  | .sub | .mul => inferInstanceAs (Decidable (¬ (_ ∧ _)))
  | .div | .mod => inferInstanceAs (Decidable (¬ (_ ∨ _ ∧ _)))

/-! ### The tests -/

section Tests

variable (lv rv : Int64)

theorem toInt_maxInt : maxInt.toInt = 2 ^ 63 - 1 := Int64.toInt_maxValue

theorem toInt_minInt : minInt.toInt = -2 ^ 63 := Int64.toInt_minValue

variable {lv rv}

theorem eq_minInt_iff : lv = minInt ↔ lv.toInt = -2 ^ 63 := by
  rw [← toInt_minInt, Int64.toInt_inj]

theorem eq_minusOne_iff : lv = -1 ↔ lv.toInt = -1 := by
  rw [← Int64.toInt_inj]
  rfl

theorem eq_zero_iff : lv = 0 ↔ lv.toInt = 0 := by
  rw [← Int64.toInt_inj]
  rfl

theorem pos_iff : 0 < lv ↔ 0 < lv.toInt := Int64.lt_iff_toInt_lt

theorem neg_iff : lv < 0 ↔ lv.toInt < 0 := Int64.lt_iff_toInt_lt

theorem nonneg_iff : 0 ≤ lv ↔ 0 ≤ lv.toInt := Int64.le_iff_toInt_le

theorem exact_lt (h : Fits x) (v : Int64) :
    (do return decide ((← exact x) < v) : Option Bool) = some (decide (x < v.toInt)) := by
  rw [exact_of_fits h]
  simp [Int64.lt_iff_toInt_lt, toInt_ofInt h]

theorem exact_gt (h : Fits x) (v : Int64) :
    (do return decide ((← exact x) > v) : Option Bool) = some (decide (v.toInt < x)) := by
  rw [exact_of_fits h]
  simp [Int64.lt_iff_toInt_lt, toInt_ofInt h]

theorem some_decide_inj {p q : Prop} [Decidable p] [Decidable q] :
    some (decide p) = some (decide q) ↔ (p ↔ q) := by
  rw [some.injEq, decide_eq_decide]

theorem isAddOverflow_eq : isAddOverflow lv rv = some (decide (¬ Fits (lv.toInt + rv.toInt))) := by
  have hl := fits_toInt lv
  have hr := fits_toInt rv
  unfold Fits at hl hr
  unfold isAddOverflow
  split
  · rename_i hc
    rw [nonneg_iff] at hc
    rw [sub, toInt_maxInt, exact_lt ⟨by omega, by omega⟩]
    rw [some_decide_inj, Fits]
    omega
  rename_i hc
  rw [nonneg_iff, nonneg_iff] at hc
  split_ifs with hd
  · rw [neg_iff] at hd
    rw [sub, toInt_minInt, exact_gt ⟨by omega, by omega⟩]
    rw [some_decide_inj, Fits]
    omega
  · rw [neg_iff, neg_iff] at hd
    have hfits : Fits (lv.toInt + rv.toInt) := ⟨by omega, by omega⟩
    simp [hfits]

/-- So does the test of a subtraction, unless it or the subtraction itself overflows. -/
theorem isSubOverflow_eq (h : ¬ (0 ≤ lv ∧ rv = minInt)) :
    isSubOverflow lv rv = some (decide (¬ Fits (lv.toInt - rv.toInt))) := by
  have hl := fits_toInt lv
  have hr := fits_toInt rv
  rw [nonneg_iff, eq_minInt_iff] at h
  unfold Fits at hl hr
  unfold isSubOverflow
  split
  · rename_i hc
    rw [gt_iff_lt, pos_iff] at hc
    have hneg : Fits (-rv.toInt) := ⟨by omega, by omega⟩
    rw [sub, neg, toInt_maxInt, exact_of_fits hneg]
    refine (exact_lt ⟨by omega, by omega⟩ _).trans ?_
    rw [toInt_ofInt hneg, some_decide_inj, Fits]
    omega
  rename_i hc
  rw [gt_iff_lt, pos_iff, neg_iff] at hc
  split_ifs with hd
  · rw [gt_iff_lt, pos_iff, neg_iff] at hd
    have hneg : Fits (-rv.toInt) := ⟨by omega, by omega⟩
    rw [sub, neg, toInt_minInt, exact_of_fits hneg]
    refine (exact_gt ⟨by omega, by omega⟩ _).trans ?_
    rw [toInt_ofInt hneg, some_decide_inj, Fits]
    omega
  · rw [gt_iff_lt, pos_iff, neg_iff] at hd
    have hfits : Fits (lv.toInt - rv.toInt) := ⟨by omega, by omega⟩
    simp [hfits]

theorem div_eq_exact (v : Int64) (h : lv.toInt ≠ 0) (hv : ¬ (v.toInt = -2 ^ 63 ∧ lv.toInt = -1)) :
    div v lv = exact (v.toInt.tdiv lv.toInt) ∧ Fits (v.toInt.tdiv lv.toInt) :=
  ⟨if_neg (mt eq_zero_iff.mp h), (fits_tdiv_iff (fits_toInt v) h).mpr hv⟩

/-- The test of a multiplication says whether the product fits, unless it divides the
smallest integer by minus one. -/
theorem isMulOverflow_eq (h : ¬ (lv = -1 ∧ 0 < rv)) :
    isMulOverflow lv rv = some (decide (¬ Fits (lv.toInt * rv.toInt))) := by
  rw [eq_minusOne_iff, pos_iff] at h
  -- the sign of the product decides which bound it may exceed
  have hsame : 0 < lv.toInt * rv.toInt →
      (¬ Fits (lv.toInt * rv.toInt) ↔ 2 ^ 63 - 1 < rv.toInt * lv.toInt) := by
    rw [mul_comm rv.toInt, Fits]
    omega
  have hdiff : lv.toInt * rv.toInt < 0 →
      (¬ Fits (lv.toInt * rv.toInt) ↔ rv.toInt * lv.toInt < -2 ^ 63) := by
    rw [mul_comm rv.toInt, Fits]
    omega
  unfold isMulOverflow
  simp only [pos_iff, neg_iff]
  split
  · rename_i hc
    obtain ⟨hdiv, hfits⟩ := div_eq_exact maxInt hc.1.ne' (by rw [toInt_maxInt]; omega)
    rw [hdiv, exact_lt hfits, toInt_maxInt, some_decide_inj, tdiv_lt_iff (by norm_num) hc.1,
      hsame (mul_pos hc.1 hc.2)]
  split
  · rename_i hc
    obtain ⟨hdiv, hfits⟩ := div_eq_exact maxInt hc.1.ne (by rw [toInt_maxInt]; omega)
    rw [hdiv, exact_gt hfits, toInt_maxInt, some_decide_inj, lt_tdiv_neg_iff (by norm_num) hc.1,
      hsame (mul_pos_of_neg_of_neg hc.1 hc.2)]
  split
  · rename_i hc
    obtain ⟨hdiv, hfits⟩ := div_eq_exact minInt hc.1.ne' (by rw [toInt_minInt]; omega)
    rw [hdiv, exact_gt hfits, toInt_minInt, some_decide_inj, lt_neg_tdiv_iff (by norm_num) hc.1,
      hdiff (mul_neg_of_pos_of_neg hc.1 hc.2)]
  split_ifs with hc
  · obtain ⟨hdiv, hfits⟩ := div_eq_exact minInt hc.1.ne (by rw [toInt_minInt]; omega)
    rw [hdiv, exact_lt hfits, toInt_minInt, some_decide_inj, neg_tdiv_neg_lt_iff (by norm_num) hc.1,
      hdiff (mul_neg_of_neg_of_pos hc.1 hc.2)]
  -- one of the two is zero
  have hzero : lv.toInt * rv.toInt = 0 := by
    by_cases hl : lv.toInt = 0
    · rw [hl, zero_mul]
    · rw [show rv.toInt = 0 by omega, mul_zero]
  rw [hzero]
  rfl

end Tests

/-! ### The operators -/

section Operators

variable {lv rv : Int64}

theorem exact_tested (sign : String) (h : isOverflow lv rv = some (decide (¬ Fits x)))
    (hresult : result lv rv = exact x) : Exact (some x) (tested isOverflow result sign lv rv) := by
  unfold Exact tested
  rw [h, hresult]
  by_cases hfits : Fits x
  · simp only [hfits, exact_of_fits hfits]
    rfl
  · simp only [hfits]
    exact ⟨_, rfl⟩

theorem Exact.returned {result : Option ℤ} {x : Outcome VariantType} (h : Exact result x) :
    Returned x := by
  unfold Exact at h
  split at h
  · split at h
    · rw [h]
      trivial
    · obtain ⟨msg, rfl⟩ := h
      trivial
  · obtain ⟨msg, rfl⟩ := h
    trivial

/-- **The operators are undefined on the other operands.** -/
theorem evalInt_of_not_safe (h : ¬ op.safe lv rv) : evalInt lv rv op = .error .undefined := by
  cases op with
  | add | xor => exact absurd trivial h
  | sub =>
    obtain ⟨hle, rfl⟩ := not_not.mp h
    by_cases hpos : lv > 0
    · rw [evalInt, tested, isSubOverflow, if_pos ⟨hpos, by decide⟩]
      cases sub maxInt lv <;> rfl
    rw [gt_iff_lt, pos_iff] at hpos
    rw [nonneg_iff] at hle
    obtain rfl : lv = 0 := eq_zero_iff.mpr (by omega)
    rfl
  | mul =>
    obtain ⟨rfl, hpos⟩ := not_not.mp h
    have hneg : ¬ rv < 0 := by
      rw [pos_iff] at hpos
      rw [neg_iff]
      omega
    rw [evalInt, tested, isMulOverflow, if_neg (fun hc => absurd hc.1 (by decide)),
      if_neg (fun hc => hneg hc.2), if_neg (fun hc => hneg hc.2), if_pos ⟨by decide, hpos⟩]
    rfl
  | div | mod =>
    rcases not_not.mp h with rfl | ⟨rfl, rfl⟩
    · rfl
    · decide +kernel

/-- A divisor that `abs` is defined for is tested for zero. -/
theorem divided_eq (h : rv ≠ minInt) (result : Int64 → Int64 → Option Int64) :
    divided result lv rv = if rv = 0 then .error (.status "Division by zero")
      else (do return .int (← defined (result lv rv))) := by
  have hr := fits_toInt rv
  rw [Ne, eq_minInt_iff] at h
  have habs : Fits |rv.toInt| := by
    rcases abs_cases rv.toInt with ⟨heq, -⟩ | ⟨heq, -⟩
    · rw [heq]
      exact hr
    · unfold Fits at hr ⊢
      omega
  have hzero : Int64.ofInt |rv.toInt| = 0 ↔ rv = 0 := by
    rw [eq_zero_iff, eq_zero_iff, toInt_ofInt habs, abs_eq_zero]
  have hstep : divided result lv rv =
      if Int64.ofInt |rv.toInt| = 0 then .error (.status "Division by zero")
      else (do return .int (← defined (result lv rv))) := by
    rw [divided, Checked.abs, exact_of_fits habs]
    rfl
  rw [hstep]
  exact if_congr hzero rfl rfl

theorem exact_divided (h : rv ≠ minInt) (hresult : rv ≠ 0 → result lv rv = exact x ∧ Fits x) :
    Exact (if rv = 0 then none else some x) (divided result lv rv) := by
  rw [divided_eq h]
  by_cases h0 : rv = 0
  · rw [if_pos h0, if_pos h0]
    exact ⟨_, rfl⟩
  · obtain ⟨heq, hfits⟩ := hresult h0
    rw [if_neg h0, if_neg h0, heq, exact_of_fits hfits, Exact, if_pos hfits]
    rfl

theorem exact_evalInt (h : op.safe lv rv) : Exact (op.result lv rv) (evalInt lv rv op) := by
  -- the quotient fits
  have hdiv (h : ¬ (lv = minInt ∧ rv = -1)) (h0 : rv ≠ 0) :=
    div_eq_exact lv (mt eq_zero_iff.mpr h0) (by rwa [← eq_minInt_iff, ← eq_minusOne_iff])
  cases op with
  | add => exact exact_tested "+" isAddOverflow_eq rfl
  | sub => exact exact_tested "-" (isSubOverflow_eq h) rfl
  | mul => exact exact_tested "*" (isMulOverflow_eq h) rfl
  | div =>
    obtain ⟨hmin, hne⟩ := not_or.mp h
    exact exact_divided hmin (hdiv hne)
  | mod =>
    obtain ⟨hmin, hne⟩ := not_or.mp h
    refine exact_divided hmin fun h0 => ⟨if_neg ?_, fits_tmod (fits_toInt lv) _⟩
    exact not_or.mpr ⟨h0, not_not.mpr (hdiv hne h0).2⟩
  | xor =>
    rw [ArithmeticOp.result, Exact, if_pos (fits_toInt _), Int64.ofInt_toInt]
    rfl

theorem exact_evalInt_iff (op : ArithmeticOp) :
    Exact (op.result lv rv) (evalInt lv rv op) ↔ op.safe lv rv := by
  refine ⟨fun h => ?_, exact_evalInt⟩
  by_contra hnot
  rw [evalInt_of_not_safe hnot] at h
  exact h.returned

theorem exact_negate_iff (env : Env) :
    Exact (some (-lv.toInt)) (evalUnary env .negate (.int lv)) ↔ lv ≠ minInt := by
  have hl := fits_toInt lv
  rw [Ne, eq_minInt_iff, evalUnary, neg]
  by_cases h : lv.toInt = -2 ^ 63
  · rw [exact, if_neg (by rw [h]; decide)]
    exact iff_of_false Exact.returned (not_not.mpr h)
  have hfits : Fits (-lv.toInt) := by
    unfold Fits at hl ⊢
    omega
  rw [exact_of_fits hfits, Exact, if_pos hfits]
  exact iff_of_true rfl h

end Operators

/-! ### Expressions -/

/-- **Where evaluation is exact.**  For every operator and all operands that are
integers, evaluation is exact if and only if the operands are safe for the operator;
the unary minus is exact but for the smallest integer. -/
theorem exact_eval_iff (env : Env) :
    (∀ (op : ArithmeticOp) (left right : Expression) (l r : Int64),
      left.eval env = .ok (.int l) → right.eval env = .ok (.int r) →
      (Exact (op.result l r) ((arithmetic op left right).eval env) ↔ op.safe l r)) ∧
    ∀ (operand : Expression) (v : Int64), operand.eval env = .ok (.int v) →
      (Exact (some (-v.toInt)) ((unary .negate operand).eval env) ↔ v ≠ minInt) := by
  constructor
  · intro op left right l r hl hr
    rw [eval, hl, hr]
    exact exact_evalInt_iff op
  · intro operand v hv
    rw [eval, hv]
    exact exact_negate_iff env

/-- An environment without functions, doubles or properties. -/
def bareEnv : Env where
  getters := {}
  ops :=
    { ofInt := fun _ => Double.zero, truncate := fun _ => none, round := id,
      add := fun x _ => x, sub := fun x _ => x, mul := fun x _ => x, div := fun x _ => x,
      fmod := fun x _ => x, neg := id, lt := fun _ _ => false, isZero := fun _ => true,
      nearZero := fun _ => true, toText := fun _ => [], ofText := fun _ => none }
  intOfText := fun _ => none
  textOfInt := fun _ => []
  function := fun _ _ => .error (.status "")
  getUUID := fun _ => .error (.status "")

def literal (v : Int64) : Expression := .primary (.int v)

theorem exact_eval_sample :
    Exact (some (-6)) ((arithmetic .mul (literal 2) (literal (-3))).eval bareEnv) ∧
      Exact (some 7) ((unary .negate (literal (-7))).eval bareEnv) := by
  obtain ⟨harith, hneg⟩ := exact_eval_iff bareEnv
  exact ⟨(harith .mul (literal 2) (literal (-3)) 2 (-3) rfl rfl).mpr (by decide),
    (hneg (literal (-7)) (-7) rfl).mpr (by decide)⟩

/-- **Evaluation is not always exact**: `-1 * 2` traps in the overflow test, `0 - min` and
`-min` overflow, `min / -1` and `min % -1` trap, and `1 / min` overflows in `abs`. -/
theorem not_exact_eval :
    ¬ Exact (ArithmeticOp.mul.result (-1) 2)
        ((arithmetic .mul (literal (-1)) (literal 2)).eval bareEnv) ∧
      ¬ Exact (ArithmeticOp.sub.result 0 minInt)
        ((arithmetic .sub (literal 0) (literal minInt)).eval bareEnv) ∧
      ¬ Exact (ArithmeticOp.div.result minInt (-1))
        ((arithmetic .div (literal minInt) (literal (-1))).eval bareEnv) ∧
      ¬ Exact (ArithmeticOp.mod.result minInt (-1))
        ((arithmetic .mod (literal minInt) (literal (-1))).eval bareEnv) ∧
      ¬ Exact (ArithmeticOp.div.result 1 minInt)
        ((arithmetic .div (literal 1) (literal minInt)).eval bareEnv) ∧
      ¬ Exact (some (-minInt.toInt)) ((unary .negate (literal minInt)).eval bareEnv) := by
  have hundef : ∀ {e : Expression} {result : Option ℤ},
      e.eval bareEnv = .error .undefined → ¬ Exact result (e.eval bareEnv) := by
    intro e result he
    rw [he]
    exact Exact.returned
  refine ⟨hundef ?_, hundef ?_, hundef ?_, hundef ?_, hundef ?_, hundef ?_⟩ <;>
    decide +kernel

end K2Graph.Filter
