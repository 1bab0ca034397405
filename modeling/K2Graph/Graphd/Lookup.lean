import Mathlib.Data.List.Forall2
import K2Graph.Filter.Expression

/-!
# The filter of LOOKUP

`checkFilter` walks the tree of a WHERE clause and lists in `filters_` what it compares.  A tree it
accepts should have only nodes that are supported, and `filters_` all its comparisons.  But the
walk drops the statuses of the operands of a logical operator, and it does not look into the
operands of a comparison and the arguments of a function.

## Main results

* `filterComplete_iff` — **the check is complete if and only if the walk lists nothing, or every
  condition that the tree combines is accepted and no other one is inside.**
* `not_filterComplete` — a tree with an XOR that is accepted.
-/

namespace K2Graph.Graphd

open Filter List

/-! ### The check -/

/-- What `checkFilter` returns instead of OK. -/
inductive LookupError
  /-- "Syntax error : %s". -/
  | syntaxError (expr : Expression)
  /-- "Edge or Tag name error : %s ". -/
  | nameError (alias_ : Bytes)
  /-- "Unsupported expression ：%s". -/
  | unsupportedExpression (expr : Expression)
  /-- "Unsupported function ： %s". -/
  | unsupportedFunction (name : Bytes)
  /-- "Where clause error . have not index matching". -/
  | noIndexMatching

/-- "udf_is_in". -/
def udfIsIn : Bytes := [117, 100, 102, 95, 105, 115, 95, 105, 110]

/-- The alias and the property of a `kAliasProp`. -/
def aliasProp? : Expression → Option (Bytes × Bytes)
  | .property .aliasProp _ alias_ prop => some (alias_, prop)
  | _ => none

variable (from_ : Bytes)

/-- `traversalExpr`: what it adds to `filters_`, and the status; `none` is OK. -/
def traversalExpr : Expression → List (Bytes × RelationalOp) × Option LookupError
  | .logical op left right =>
      if op = .xor then ([], some (.syntaxError (.logical op left right)))
      -- the statuses of the operands are dropped
      else ((traversalExpr left).1 ++ (traversalExpr right).1, none)
  | .relational op left right =>
      match aliasProp? left <|> aliasProp? right with
      | some (alias_, prop) =>
          if alias_ ≠ from_ then ([], some (.nameError alias_)) else ([(prop, op)], none)
      | none => ([], some (.unsupportedExpression (.relational op left right)))
  | .functionCall name _ => ([], if name = udfIsIn then some (.unsupportedFunction name) else none)
  | expr => ([], some (.syntaxError expr))

/-- `checkFilter`, with `filters_` if it returns OK. -/
def checkFilter (filter : Expression) : Except LookupError (List (Bytes × RelationalOp)) :=
  match traversalExpr from_ filter with
  | (_, some err) => .error err
  | (filters, none) => if filters = [] then .error .noIndexMatching else .ok filters

/-! ### The property -/

mutual

def nodes : Expression → List Expression
  | .functionCall name args => .functionCall name args :: argNodes args
  | .unary op operand => .unary op operand :: nodes operand
  | .typeCasting type operand => .typeCasting type operand :: nodes operand
  | .arithmetic op left right => .arithmetic op left right :: (nodes left ++ nodes right)
  | .relational op left right => .relational op left right :: (nodes left ++ nodes right)
  | .logical op left right => .logical op left right :: (nodes left ++ nodes right)
  | e => [e]

def argNodes : List Expression → List Expression
  | [] => []
  | arg :: args => nodes arg ++ argNodes args

end

/-- The node is neither an XOR nor a call of `udf_is_in`. -/
def Supported : Expression → Prop
  | .logical op _ _ => op ≠ .xor
  | .functionCall name _ => name ≠ udfIsIn
  | _ => True

/-- Logical operators combine nodes of the other two kinds that are supported. -/
def SupportedKinds : Expression → Prop
  | .logical _ left right => SupportedKinds left ∧ SupportedKinds right
  | .relational .. | .functionCall .. => True
  | _ => False

def isRelational : Expression → Bool
  | .relational .. => true
  | _ => false

/-- A comparison with a property of the tag or edge, and what is listed for it. -/
def Compares : Expression → Bytes × RelationalOp → Prop
  | .relational op left right, f => f.2 = op ∧
      (aliasProp? left = some (from_, f.1) ∨ aliasProp? right = some (from_, f.1))
  | _, _ => False

/-- **The check is complete**: no node of an accepted tree is unsupported, and `filters_` lists all
its comparisons, which are with properties. -/
def FilterComplete (e : Expression) : Prop :=
  ∀ filters, checkFilter from_ e = .ok filters → (∀ n ∈ nodes e, Supported n) ∧
    SupportedKinds e ∧ Forall₂ (Compares from_) ((nodes e).filter isRelational) filters

/-- There is something to list: logical operators other than XOR combine a comparison with a
property of the tag or edge. -/
def Lists : Expression → Prop
  | .logical op left right => op ≠ .xor ∧ (Lists left ∨ Lists right)
  | .relational _ left right => ∃ prop, (aliasProp? left <|> aliasProp? right) = some (from_, prop)
  | _ => False

/-- There is no condition among the nodes. -/
def Plain (inside : List Expression) : Prop := ∀ n ∈ inside, Supported n ∧ isRelational n = false

/-- Every condition is accepted, and no other one is inside. -/
def Valid : Expression → Prop
  | .logical op left right => op ≠ .xor ∧ Valid left ∧ Valid right
  | .relational _ left right =>
      (∃ prop, (aliasProp? left <|> aliasProp? right) = some (from_, prop)) ∧
        Plain (nodes left ++ nodes right)
  | .functionCall name args => name ≠ udfIsIn ∧ Plain (argNodes args)
  | _ => False

/-! ### One node after the other -/

theorem plain_iff : Plain inside ↔
    (∀ n ∈ inside, Supported n) ∧ inside.filter isRelational = [] := by
  simp only [Plain, filter_eq_nil_iff, forall_and, Bool.not_eq_true]

/-- At most one entry is listed for a comparison. -/
theorem length_traversalExpr_le : ∀ e : Expression,
    (traversalExpr from_ e).1.length ≤ ((nodes e).filter isRelational).length
  | .logical op left right => by
    have hl := length_traversalExpr_le left
    have hr := length_traversalExpr_le right
    rw [nodes, filter_cons_of_neg Bool.false_ne_true, filter_append, length_append, traversalExpr]
    split_ifs
    · exact Nat.zero_le _
    · rw [length_append]
      exact Nat.add_le_add hl hr
  | .relational op left right => by
    rw [nodes, filter_cons_of_pos rfl, length_cons, traversalExpr]
    split
    · split_ifs <;> simp
    · simp
  | .functionCall .. | .primary _ | .unary .. | .typeCasting .. | .arithmetic .. | .property ..
  | .uuid _ => Nat.zero_le _

theorem forall₂_append_iff {α β : Type} {R : α → β → Prop} {as as' : List α} {bs bs' : List β}
    (h : bs.length ≤ as.length) (h' : bs'.length ≤ as'.length) :
    Forall₂ R (as ++ as') (bs ++ bs') ↔ Forall₂ R as bs ∧ Forall₂ R as' bs' := by
  refine ⟨fun hall => ?_, fun hall => rel_append hall.1 hall.2⟩
  have hlen := hall.length_eq
  rw [length_append, length_append] at hlen
  have hlen : as.length = bs.length := by omega
  have htake := forall₂_take_append _ _ _ hall
  have hdrop := forall₂_drop_append _ _ _ hall
  rw [← hlen, take_left] at htake
  rw [← hlen, drop_left] at hdrop
  exact ⟨htake, hdrop⟩

theorem valid_iff : ∀ e : Expression, Valid from_ e ↔ (∀ n ∈ nodes e, Supported n) ∧
    SupportedKinds e ∧ Forall₂ (Compares from_) ((nodes e).filter isRelational)
      (traversalExpr from_ e).1
  | .logical op left right => by
    have hl := length_traversalExpr_le from_ left
    have hr := length_traversalExpr_le from_ right
    rw [Valid, valid_iff left, valid_iff right, nodes, forall_mem_cons, forall_mem_append,
      filter_cons_of_neg Bool.false_ne_true, filter_append, traversalExpr, SupportedKinds,
        Supported]
    by_cases hop : op = .xor
    · simp [hop]
    · rw [if_neg hop, forall₂_append_iff hl hr]
      tauto
  | .relational op left right => by
    rw [Valid, plain_iff, nodes, traversalExpr, filter_cons_of_pos rfl]
    cases hprop : (aliasProp? left <|> aliasProp? right) with
    | none => simp
    | some x =>
      obtain ⟨alias_, prop⟩ := x
      by_cases hfrom : alias_ = from_
      · subst hfrom
        have hcompares : Compares alias_ (.relational op left right) (prop, op) := by
          refine ⟨rfl, ?_⟩
          cases hleft : aliasProp? left <;> simp_all
        simp [hcompares, Supported, SupportedKinds]
      · simp [hfrom]
  | .functionCall name args => by
    rw [Valid, plain_iff, nodes, traversalExpr]
    simp [Supported, SupportedKinds, isRelational, and_assoc]
  | .primary _ | .unary .. | .typeCasting .. | .arithmetic .. | .property .. | .uuid _ => by
    simp [Valid, SupportedKinds]

theorem traversalExpr_ne_nil_iff : ∀ e : Expression,
    (traversalExpr from_ e).1 ≠ [] ↔ Lists from_ e
  | .logical op left right => by
    rw [Lists, ← traversalExpr_ne_nil_iff left, ← traversalExpr_ne_nil_iff right, traversalExpr]
    by_cases hop : op = .xor
    · simp [hop]
    · rw [if_neg hop, ne_eq, append_eq_nil_iff]
      tauto
  | .relational op left right => by
    rw [Lists, traversalExpr]
    cases aliasProp? left <|> aliasProp? right with
    | none => simp
    | some x => by_cases hfrom : x.1 = from_ <;> simp [hfrom, Prod.ext_iff]
  | .functionCall .. | .primary _ | .unary .. | .typeCasting .. | .arithmetic .. | .property ..
  | .uuid _ => by simp [Lists, traversalExpr]

/-- What is listed is listed without an error. -/
theorem traversalExpr_snd (h : (traversalExpr from_ e).1 ≠ []) :
    (traversalExpr from_ e).2 = none := by
  cases e with
  | logical op left right =>
    rw [traversalExpr] at h ⊢
    split_ifs at h ⊢
    · exact absurd rfl h
    · rfl
  | relational op left right =>
    rw [traversalExpr] at h ⊢
    split at h
    · split_ifs at h ⊢
      · exact absurd rfl h
      · rfl
    · exact absurd rfl h
  | _ => exact absurd rfl h

theorem checkFilter_eq_ok_iff : checkFilter from_ e = .ok filters ↔
    Lists from_ e ∧ (traversalExpr from_ e).1 = filters := by
  have hsnd := traversalExpr_snd from_ (e := e)
  rw [← traversalExpr_ne_nil_iff, checkFilter]
  generalize traversalExpr from_ e = result at hsnd ⊢
  obtain ⟨listed, _ | err⟩ := result
  · by_cases hnone : listed = [] <;> simp [hnone]
  · have hnone : listed = [] := by
      by_contra hne
      cases hsnd hne
    simp [hnone]

/-- **The check is complete if and only if there is nothing to list, or every condition that the
tree combines is accepted and no other one is inside.** -/
theorem filterComplete_iff (from_ : Bytes) (e : Expression) :
    FilterComplete from_ e ↔ ¬ Lists from_ e ∨ Valid from_ e := by
  simp only [FilterComplete, checkFilter_eq_ok_iff, valid_iff, and_imp, ← imp_iff_not_or]
  exact ⟨fun h hlists => h _ hlists rfl, fun h filters hlists heq => heq ▸ h hlists⟩

/-- **The check is not complete**: `t.a == 1 && (true XOR true)` is accepted. -/
theorem not_filterComplete : ¬ FilterComplete [116] (.logical .and
    (.relational .eq (.property .aliasProp [] [116] [97]) (.primary (.int 1)))
    (.logical .xor (.primary (.bool true)) (.primary (.bool true)))) := by
  intro h
  obtain ⟨hnodes, -⟩ := h _ rfl
  exact hnodes (.logical .xor (.primary (.bool true)) (.primary (.bool true))) (by simp [nodes]) rfl

end K2Graph.Graphd
