import K2Graph.Filter.Arithmetic
import K2Graph.Lib.Except

/-!
# Evaluation that returns

Evaluating a tree should return a value or a `Status`, and a `Status` if a part of it does.  It
does not, when

* the operand of a unary operator returns a `Status`: its value is read for the message;
* a text that is no number is cast to one, which throws;
* a double is cast, or rounded for a `^`, that no `int64_t` holds, or an operator on integers is
  undefined;
* a function or a getter does not return.

## Main results

* `answers_iff` — **evaluation answers if and only if no node does one of these.**
* `not_answers` — trees on which it does not.
-/

namespace K2Graph.Filter

open Relation Checked Expression

/-! ### The property and the condition -/

def Expression.parts : Expression → List Expression
  | .functionCall _ args => args
  | .unary _ operand | .typeCasting _ operand => [operand]
  | .arithmetic _ left right | .relational _ left right | .logical _ left right => [left, right]
  | .primary _ | .property .. | .uuid _ => []

/-- One tree is in another one. -/
def Within : Expression → Expression → Prop := ReflTransGen fun part e => part ∈ e.parts

/-- **Evaluation answers**: a value or a `Status` is returned, and a `Status` if a part returns
one. -/
def Answers (env : Env) (e : Expression) : Prop :=
  Returned (e.eval env) ∧ ∀ part, Within part e → ∀ msg, part.eval env = .error (.status msg) →
    ∃ msg', e.eval env = .error (.status msg')

/-- The value can be cast. -/
def ColumnType.castable (env : Env) (type : ColumnType) (v : VariantType) : Prop :=
  match type with
  | .int | .timestamp =>
      match v with
      | .string s => env.intOfText s ≠ none
      | .double d => env.ops.truncate d ≠ none
      | _ => True
  | .double =>
      match v with
      | .string s => env.ops.ofText s ≠ none
      | _ => True
  | .string | .bool => True

/-- The operator is defined on the values. -/
def ArithmeticOp.applicable (env : Env) (op : ArithmeticOp) (l r : VariantType) : Prop :=
  match l, r with
  | .int l, .int r => op.safe l r
  | l, r => op = .xor → ∀ x y, l.asDouble env = .ok x → r.asDouble env = .ok y →
      env.ops.truncate (env.ops.round x) ≠ none ∧ env.ops.truncate (env.ops.round y) ≠ none

mutual

/-- **Every node that is evaluated returns.** -/
def Expression.Safe (env : Env) : Expression → Prop
  | .primary _ => True
  | .functionCall name args =>
      safeArgs env args ∧ ∀ vs, evalArgs env args = .ok vs → Returned (env.function name vs)
  | .unary op operand =>
      operand.Safe env ∧ ∃ v, operand.eval env = .ok v ∧ ¬ (op = .negate ∧ v = .int minInt)
  | .typeCasting type operand =>
      operand.Safe env ∧ ∀ v, operand.eval env = .ok v → type.castable env v
  | .arithmetic op left right =>
      left.Safe env ∧ right.Safe env ∧
        ∀ l r, left.eval env = .ok l → right.eval env = .ok r → op.applicable env l r
  | .relational _ left right => left.Safe env ∧ right.Safe env
  | .logical _ left right => left.Safe env ∧ right.Safe env
  | .property kind _ alias_ prop => Returned (evalProperty env.getters kind alias_ prop)
  | .uuid field => Returned (env.getUUID field)

@[inherit_doc Expression.Safe]
def safeArgs (env : Env) : List Expression → Prop
  | [] => True
  | arg :: args => arg.Safe env ∧ ∀ v, arg.eval env = .ok v → safeArgs env args

end

/-! ### One node -/

variable {env : Env} {v : VariantType}

theorem returned_bind {x : Outcome α} {f : α → Outcome β} :
    Returned (x >>= f) ↔ Returned x ∧ ∀ a, x = .ok a → Returned (f a) := by
  cases x with
  | error e => cases e <;> simp [bind, Except.bind, Returned]
  | ok a => simp [Returned]

theorem returned_map {x : Outcome α} {f : α → β} : Returned (do return f (← x)) ↔ Returned x := by
  rw [returned_bind]
  exact and_iff_left fun _ _ => trivial

theorem returned_defined {x : Option α} : Returned (defined x) ↔ x ≠ none := by
  cases x <;> simp [defined, Returned]

theorem returned_bothOperands :
    Returned (bothOperands left right f) ↔ Returned left ∧ Returned right ∧
      ∀ l r, left = .ok l → right = .ok r → Returned (f l r) := by
  rcases left with (_ | _ | _) | l <;> rcases right with (_ | _ | _) | r <;>
    simp [bothOperands, Returned]

theorem returned_evalDouble : Returned (evalDouble env.ops x y op) ↔ (op = .xor →
      env.ops.truncate (env.ops.round x) ≠ none ∧ env.ops.truncate (env.ops.round y) ≠ none) := by
  cases op with
  | xor =>
    rw [evalDouble]
    cases env.ops.truncate (env.ops.round x) with
    | none => exact iff_of_false id fun h => (h rfl).1 rfl
    | some a => exact (returned_map.trans returned_defined).trans (by simp)
  | div | mod =>
    simp only [evalDouble]
    split <;> simp [Returned]
  | _ => simp [evalDouble, Returned]

theorem returned_evalArithmetic : Returned (evalArithmetic env op l r) ↔ op.applicable env l r := by
  cases l <;> cases r
  case int.int l r =>
    refine ⟨fun h => ?_, fun h => (exact_evalInt h).returned⟩
    by_contra hnot
    have hundef : evalArithmetic env op (.int l) (.int r) = .error .undefined :=
      evalInt_of_not_safe hnot
    rw [hundef] at h
    exact h
  case int.double | double.int | double.double =>
    refine returned_evalDouble.trans ?_
    simp [ArithmeticOp.applicable, VariantType.asDouble]
  all_goals
    -- two texts one behind the other, or a `Status`
    refine iff_of_true ?_ ?_
    · cases op <;> trivial
    · rintro - x y ⟨⟩ ⟨⟩

theorem returned_evalRelational (op : RelationalOp) : Returned (evalRelational env op l r) := by
  have hcompare (l r : VariantType) : Returned (compare env op l r) := by
    unfold compare
    split
    all_goals try trivial
    split <;> trivial
  unfold evalRelational
  split
  · exact hcompare l r
  · refine returned_bind.mpr ⟨?_, fun x _ => hcompare x.1 x.2⟩
    cases l <;> cases r <;> trivial

theorem returned_evalUnary :
    Returned (evalUnary env op v) ↔ ¬ (op = .negate ∧ v = .int minInt) := by
  cases op with
  | plus | not => simp [evalUnary, Returned]
  | negate =>
    cases v with
    | int n =>
      by_cases h : n = minInt
      · subst h
        simp [show evalUnary env .negate (.int minInt) = .error .undefined from rfl, Returned]
      · simp [((exact_negate_iff env).mpr h).returned, h]
    | _ => simp [evalUnary, Returned]

theorem returned_evalTypeCasting : Returned (evalTypeCasting env type v) ↔ type.castable env v := by
  have hint : Returned (do return VariantType.int (← v.toInt env)) ↔
      ColumnType.int.castable env v := by
    rw [returned_map]
    cases v with
    | double d => exact returned_defined
    | string s =>
      cases h : env.intOfText s <;> simp [VariantType.toInt, ColumnType.castable, Returned, h]
    | _ => exact iff_of_true trivial trivial
  cases type with
  | int | timestamp => exact hint
  | double =>
    rw [evalTypeCasting]
    cases v with
    | string s =>
      cases h : env.ops.ofText s <;> simp [VariantType.toDouble, ColumnType.castable, Returned, h]
    | _ => exact iff_of_true trivial trivial
  | string | bool => exact iff_of_true trivial trivial

/-! ### A tree -/

mutual

/-- **A tree returns if and only if every node that is evaluated does.** -/
theorem Expression.returned_eval : ∀ e : Expression, Returned (e.eval env) ↔ e.Safe env
  | .primary operand => iff_of_true trivial trivial
  | .functionCall name args => by rw [eval, returned_bind, returned_evalArgs, Safe]
  | .unary op operand => by
    rw [Safe, ← operand.returned_eval, eval]
    cases operand.eval env with
    | error e => cases e <;> simp [Returned]
    | ok v =>
      refine returned_evalUnary.trans ?_
      simp [Returned]
  | .typeCasting type operand => by
    rw [eval, returned_bind, operand.returned_eval, Safe]
    simp only [returned_evalTypeCasting]
  | .arithmetic op left right => by
    rw [eval, returned_bothOperands, left.returned_eval, right.returned_eval, Safe]
    simp only [returned_evalArithmetic]
  | .relational op left right => by
    rw [eval, returned_bothOperands, left.returned_eval, right.returned_eval, Safe]
    simp only [returned_evalRelational, implies_true, and_true]
  | .logical op left right => by
    rw [eval, returned_bothOperands, left.returned_eval, right.returned_eval, Safe]
    simp only [Returned, implies_true, and_true]
  | .property .. => by rw [eval, Safe]
  | .uuid field => by rw [eval, returned_map, Safe]

theorem returned_evalArgs : ∀ args, Returned (evalArgs env args) ↔ safeArgs env args
  | [] => iff_of_true trivial trivial
  | arg :: args => by
    rw [evalArgs, returned_bind, arg.returned_eval, safeArgs]
    simp only [returned_map, returned_evalArgs args]

end

theorem exists_of_evalArgs (h : evalArgs env args = .ok vs) :
    ∀ arg ∈ args, ∃ v, arg.eval env = .ok v := by
  induction args generalizing vs with
  | nil => exact fun arg harg => nomatch harg
  | cons arg args ih =>
    obtain ⟨v, hv, h⟩ := exists_of_bind_eq_ok h
    obtain ⟨vs', hvs, -⟩ := exists_of_bind_eq_ok h
    exact List.forall_mem_cons.mpr ⟨⟨v, hv⟩, ih hvs⟩

theorem exists_of_bothOperands (h : bothOperands left right f = .ok v) :
    (∃ l, left = .ok l) ∧ ∃ r, right = .ok r := by
  rcases left with (_ | _ | _) | l <;> rcases right with (_ | _ | _) | r <;>
    first | cases h | exact ⟨⟨l, rfl⟩, r, rfl⟩

/-- The parts of a tree that has a value have values. -/
theorem exists_of_part {e : Expression} (hpart : part ∈ e.parts) (h : e.eval env = .ok v) :
    ∃ w, part.eval env = .ok w := by
  cases e with
  | functionCall name args =>
    obtain ⟨vs, hvs, -⟩ := exists_of_bind_eq_ok h
    exact exists_of_evalArgs hvs part hpart
  | unary op operand =>
    obtain rfl := List.mem_singleton.mp hpart
    rw [Expression.eval] at h
    split at h
    · exact ⟨_, ‹_›⟩
    · cases h
    · cases h
  | typeCasting type operand =>
    obtain rfl := List.mem_singleton.mp hpart
    obtain ⟨w, hw, -⟩ := exists_of_bind_eq_ok h
    exact ⟨w, hw⟩
  | arithmetic op left right | relational op left right | logical op left right =>
    obtain ⟨hl, hr⟩ := exists_of_bothOperands h
    rcases List.mem_pair.mp hpart with rfl | rfl
    · exact hl
    · exact hr
  | primary | property | uuid => cases hpart

theorem exists_of_within (hpart : Within part e) (h : e.eval env = .ok v) :
    ∃ w, part.eval env = .ok w := by
  induction hpart using ReflTransGen.head_induction_on with
  | refl => exact ⟨v, h⟩
  | head hin _ ih =>
    obtain ⟨w, hw⟩ := ih
    exact exists_of_part hin hw

/-- **Evaluation answers if and only if every node that is evaluated returns**: no unary operator
has an operand that fails, every value that is cast can be cast, every operator is defined on its
operands, and functions and getters return. -/
theorem answers_iff (env : Env) (e : Expression) : Answers env e ↔ e.Safe env := by
  rw [Answers, e.returned_eval]
  refine and_iff_left_of_imp fun h part hpart msg hmsg => ?_
  cases heval : e.eval env with
  | ok v =>
    obtain ⟨w, hw⟩ := exists_of_within hpart heval
    rw [hmsg] at hw
    cases hw
  | error failure =>
    have hreturned := e.returned_eval.mpr h
    rw [heval] at hreturned
    cases failure with
    | status msg' => exact ⟨msg', rfl⟩
    | exception _ | undefined => cases hreturned

/-- **Evaluation does not always answer**: a property that is not there behind a `!`, the text `a`
cast to a number, and the smallest integer behind a `-`. -/
theorem not_answers :
    ¬ Answers bareEnv (.unary .not (.property .inputProp [] [] [97])) ∧
      ¬ Answers bareEnv (.typeCasting .int (.primary (.string [97]))) ∧
      ¬ Answers bareEnv (.unary .negate (literal minInt)) :=
  ⟨And.left, And.left, And.left⟩

end K2Graph.Filter
