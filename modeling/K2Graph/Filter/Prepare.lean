import K2Graph.Filter.Expression
import K2Graph.Lib.Except

/-!
# Preparing a tree

`prepare()` binds the functions that a tree calls and notes in the context the properties it
refers to.  When it returns OK that should be done for every node of the tree, but
`LogicalExpression::prepare` drops the status of its right operand.

## Main results

* `prepareComplete_iff` — **`prepare()` is complete if and only if every function can be bound, or
  one cannot that is in no right operand of a logical operator.**
* `not_prepareComplete` — a tree that is prepared with a function that is not defined.
-/

namespace K2Graph.Filter

open List

/-! ### What is changed -/

/-- `FunctionManager::FunctionAttributes`. -/
structure FunctionAttributes (F : Type) where
  minArity : ℕ
  maxArity : ℕ
  body : F

/-- What `prepare()` returns instead of OK. -/
inductive PrepareError
  /-- "Function `%s' not defined". -/
  | notDefined (func : Bytes)
  /-- "Arity not match for function `%s': provided %lu but %lu-%lu expected." -/
  | arityNotMatch (func : Bytes) (arity minArity maxArity : ℕ)

/-- A change `prepare()` makes.  The sets of the context are added to only. -/
inductive Change (F : Type)
  /-- `function_` of a call. -/
  | bind (f : F)
  | addSrcTagProp (alias_ prop : Bytes)
  | addDstTagProp (alias_ prop : Bytes)
  | addAliasProp (alias_ prop : Bytes)
  | addVariableProp (var prop : Bytes)
  | addInputProp (prop : Bytes)

/-- The changes, in order, and the status; `none` is OK. -/
abbrev Preparation (F : Type) := List (Change F) × Option PrepareError

variable {F : Type}

/-- What comes next is done if the status is OK. -/
def Preparation.andThen (x y : Preparation F) : Preparation F :=
  if x.2.isNone then (x.1 ++ y.1, y.2) else x

/-! ### Preparing -/

/-- Where the property of a kind is noted. -/
def PropertyKind.noted (alias_ prop : Bytes) : PropertyKind → Change F
  | .sourceProp => .addSrcTagProp alias_ prop
  | .destProp => .addDstTagProp alias_ prop
  | .variableProp => .addVariableProp alias_ prop
  | .inputProp => .addInputProp prop
  | .edgeRank | .edgeDstId | .edgeSrcId | .edgeType | .aliasProp => .addAliasProp alias_ prop

variable (functions : Bytes → Option (FunctionAttributes F))

/-- `FunctionManager::get`. -/
def getFunction (func : Bytes) (arity : ℕ) : Except PrepareError F :=
  match functions func with
  | none => .error (.notDefined func)
  | some a =>
      if arity < a.minArity ∨ a.maxArity < arity then
        .error (.arityNotMatch func arity a.minArity a.maxArity)
      else .ok a.body

mutual

def prepare : Expression → Preparation F
  | .primary _ | .uuid _ => ([], none)
  | .property kind _ alias_ prop => ([kind.noted alias_ prop], none)
  | .functionCall name args =>
      match getFunction functions name args.length with
      | .error e => ([], some e)
      | .ok f => Preparation.andThen ([.bind f], none) (prepareArgs args)
  | .unary _ operand | .typeCasting _ operand => prepare operand
  | .arithmetic _ left right | .relational _ left right => (prepare left).andThen (prepare right)
  | .logical _ left right => (prepare left).andThen ((prepare right).1, none)

/-- The arguments of a function call. -/
def prepareArgs : List Expression → Preparation F
  | [] => ([], none)
  | arg :: args => (prepare arg).andThen (prepareArgs args)

end

/-! ### The property -/

mutual

/-- The function calls and the properties of a tree in the order they are prepared, with or
without those in right operands of logical operators. -/
def Expression.refs (all : Bool) : Expression → List Expression
  | .primary _ | .uuid _ => []
  | .property kind ref alias_ prop => [.property kind ref alias_ prop]
  | .functionCall name args => .functionCall name args :: argRefs all args
  | .unary _ operand | .typeCasting _ operand => operand.refs all
  | .arithmetic _ left right | .relational _ left right => left.refs all ++ right.refs all
  | .logical _ left right => left.refs all ++ if all then right.refs all else []

@[inherit_doc Expression.refs]
def argRefs (all : Bool) : List Expression → List Expression
  | [] => []
  | arg :: args => arg.refs all ++ argRefs all args

end

/-- A function that is called is registered and takes this number of arguments. -/
def Expression.Bindable : Expression → Prop
  | .functionCall name args => ∃ f, getFunction functions name args.length = .ok f
  | _ => True

def Prepares : Expression → Change F → Prop
  | .functionCall name args, c => ∃ a, functions name = some a ∧ a.minArity ≤ args.length ∧
      args.length ≤ a.maxArity ∧ c = .bind a.body
  | .property kind _ alias_ prop, c => c = kind.noted alias_ prop
  | _, _ => False

/-- **`prepare()` is complete**: if it returns OK, it has prepared every function call and every
property of the tree. -/
def PrepareComplete (e : Expression) : Prop :=
  (prepare functions e).2 = none →
    Forall₂ (Prepares functions) (e.refs true) (prepare functions e).1

/-! ### One node after the other -/

/-- What a preparation depends on, and what is prepared if all functions can be bound. -/
structure Preparation.Spec (x : Preparation F) (strict all : List Expression) : Prop where
  ok_iff : x.2 = none ↔ ∀ n ∈ strict, n.Bindable functions
  all : (∀ n ∈ all, n.Bindable functions) → x.2 = none ∧ Forall₂ (Prepares functions) all x.1

variable {functions} {x : Preparation F} {all : List Expression}

theorem Preparation.Spec.andThen (hx : x.Spec functions strict all)
    (hy : y.Spec functions strict' all') :
    (x.andThen y).Spec functions (strict ++ strict') (all ++ all') := by
  constructor
  · rw [Preparation.andThen, forall_mem_append, ← hx.ok_iff, ← hy.ok_iff]
    split <;> simp_all
  intro hall
  obtain ⟨hok, hx⟩ := hx.all fun n hn => hall n (mem_append_left _ hn)
  obtain ⟨hok', hy⟩ := hy.all fun n hn => hall n (mem_append_right _ hn)
  rw [Preparation.andThen, hok]
  exact ⟨hok', rel_append hx hy⟩

theorem prepares_bind_iff : Prepares functions (.functionCall name args) (.bind f) ↔
      getFunction functions name args.length = .ok f := by
  rw [Prepares, getFunction]
  cases functions name with
  | none => simp
  | some a =>
    simp only [Option.some.injEq, exists_eq_left', Change.bind.injEq]
    split
    · exact iff_of_false (by omega) nofun
    · rw [Except.ok.injEq, eq_comm]
      exact ⟨fun h => h.2.2, fun h => ⟨by omega, by omega, h⟩⟩

mutual

theorem spec_prepare : ∀ e : Expression,
    (prepare functions e).Spec functions (e.refs false) (e.refs true)
  | .primary _ | .uuid _ => ⟨by simp [prepare, Expression.refs], fun _ => ⟨rfl, .nil⟩⟩
  | .property .. =>
    ⟨by simp [prepare, Expression.refs, Expression.Bindable], fun _ => ⟨rfl, .cons rfl .nil⟩⟩
  | .functionCall name args => by
    rw [prepare, Expression.refs, Expression.refs]
    cases hget : getFunction functions name args.length with
    | error e =>
      have hnot : ¬ (Expression.functionCall name args).Bindable functions := by
        simp [Expression.Bindable, hget]
      exact ⟨by simp [hnot], fun h => absurd (h _ mem_cons_self) hnot⟩
    | ok f =>
      have hnode : Preparation.Spec functions ([.bind f], none) [.functionCall name args]
          [.functionCall name args] :=
        ⟨by simp [Expression.Bindable, hget],
          fun _ => ⟨rfl, .cons (prepares_bind_iff.mpr hget) .nil⟩⟩
      exact hnode.andThen (spec_prepareArgs args)
  | .unary _ operand | .typeCasting _ operand => by
    rw [prepare, Expression.refs, Expression.refs]
    exact spec_prepare operand
  | .arithmetic _ left right | .relational _ left right => by
    rw [prepare, Expression.refs, Expression.refs]
    exact (spec_prepare left).andThen (spec_prepare right)
  | .logical _ left right => by
    rw [prepare, Expression.refs, Expression.refs]
    have hright : Preparation.Spec functions ((prepare functions right).1, none) []
        (right.refs true) := ⟨by simp, fun h => ⟨rfl, ((spec_prepare right).all h).2⟩⟩
    exact (spec_prepare left).andThen hright

theorem spec_prepareArgs : ∀ args : List Expression,
    (prepareArgs functions args).Spec functions (argRefs false args) (argRefs true args)
  | [] => ⟨by simp [prepareArgs, argRefs], fun _ => ⟨rfl, .nil⟩⟩
  | arg :: args => by
    rw [prepareArgs, argRefs, argRefs]
    exact (spec_prepare arg).andThen (spec_prepareArgs args)

end

theorem bindable_of_forall₂ (h : Forall₂ (Prepares functions) all cs) :
    ∀ n ∈ all, n.Bindable functions := by
  induction h with
  | nil => simp
  | @cons n c all cs hn _ ih =>
    refine forall_mem_cons.mpr ⟨?_, ih⟩
    cases n with
    | functionCall name args =>
      obtain ⟨a, -, -, -, rfl⟩ := id hn
      exact ⟨a.body, prepares_bind_iff.mp hn⟩
    | _ => trivial

/-- **`prepare()` is complete if and only if every function called can be bound, or one cannot
that is in no right operand of a logical operator**, so that preparing fails. -/
theorem prepareComplete_iff (functions : Bytes → Option (FunctionAttributes F)) (e : Expression) :
    PrepareComplete functions e ↔ (∀ n ∈ e.refs true, n.Bindable functions) ∨
      ∃ n ∈ e.refs false, ¬ n.Bindable functions := by
  have hspec : Preparation.Spec functions _ _ _ := spec_prepare e
  constructor
  · intro h
    by_cases hok : (prepare functions e).2 = none
    · exact .inl (bindable_of_forall₂ (h hok))
    · rw [hspec.ok_iff] at hok
      push Not at hok
      exact .inr hok
  · rintro (hall | ⟨n, hn, hnot⟩) hok
    · exact (hspec.all hall).2
    · exact absurd (hspec.ok_iff.mp hok n hn) hnot

/-- **`prepare()` is not complete**: `true || f()` is prepared though there is no `f`. -/
theorem not_prepareComplete : ¬ PrepareComplete (F := Unit) (fun _ => none)
    (.logical .or (.primary (.bool true)) (.functionCall [102] [])) := by
  intro h
  exact absurd (h rfl) (by simp [Expression.refs, argRefs, prepare, getFunction,
    Preparation.andThen])

end K2Graph.Filter
