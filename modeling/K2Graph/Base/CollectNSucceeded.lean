import Mathlib.Data.List.Infix

/-!
# The first `n` futures that succeed

`collectNSucceeded` gives every future a callback that counts, and that fulfils the promise of
what is returned.  Each result that is a value is evaluated.

## Main results

* `collectNSucceeded_eq` — **the promise is fulfilled once, as soon as `n` results satisfy the
  predicate or all futures are complete, with the values there are.**
-/

namespace K2Graph.Base

open List

structure Context (T : Type) where
  results : List (ℕ × T) := []
  numCompleted : ℕ := 0
  nSucceeded : ℕ := 0
  /-- What `promise` has been fulfilled with, one after the other. -/
  promise : List (List (ℕ × T)) := []

variable {T : Type} (nTotal n : ℕ) (eval : ℕ → T → Bool)

/-- The callback of a future that is complete; `none` is an exception. -/
def callback (ctx : Context T) : ℕ × Option T → Context T
  | (index, t) =>
      if ctx.promise ≠ [] then ctx
      else
        let ctx := match t with
          | none => ctx
          | some value =>
              { ctx with nSucceeded := ctx.nSucceeded + if eval index value then 1 else 0,
                         results := ctx.results ++ [(index, value)] }
        let ctx := { ctx with numCompleted := ctx.numCompleted + 1 }
        if ctx.numCompleted = nTotal ∨ ctx.nSucceeded = n then
          -- the results are moved
          { ctx with promise := ctx.promise ++ [ctx.results], results := [] }
        else ctx

/-- What the future that `collectNSucceeded` returns has been fulfilled with after these
completions; `none` is the exception "Not enough futures". -/
def collectNSucceeded (completed : List (ℕ × Option T)) : List (Option (List (ℕ × T))) :=
  if n = 0 then [some []]
  else if nTotal < n then [none]
  else (completed.foldl (callback nTotal n eval) {}).promise.map some

/-! ### The first moment -/

def values (completed : List (ℕ × Option T)) : List (ℕ × T) :=
  completed.filterMap fun (index, t) => t.map (index, ·)

/-- Enough results satisfy the predicate, or all futures are complete. -/
def enough (completed : List (ℕ × Option T)) : Bool :=
  completed.length = nTotal ∨ (values completed).countP (fun x => eval x.1 x.2) = n

/-- What is counted as long as there is not enough. -/
def counted (completed : List (ℕ × Option T)) : Context T where
  results := values completed
  numCompleted := completed.length
  nSucceeded := (values completed).countP fun x => eval x.1 x.2

variable {nTotal n eval}

theorem callback_counted (completed : List (ℕ × Option T)) (x : ℕ × Option T) :
    callback nTotal n eval (counted eval completed) x =
      if enough nTotal n eval (completed ++ [x]) then
        { counted eval (completed ++ [x]) with
          promise := [values (completed ++ [x])], results := [] }
      else counted eval (completed ++ [x]) := by
  obtain ⟨index, _ | value⟩ := x <;>
    simp [callback, counted, enough, values, countP_append, countP_singleton]

theorem foldl_callback (hn : 1 ≤ n) (hle : n ≤ nTotal) (completed : List (ℕ × Option T)) :
    completed.inits.find? (enough nTotal n eval) = none ∧
        completed.foldl (callback nTotal n eval) {} = counted eval completed ∨
      ∃ first, completed.inits.find? (enough nTotal n eval) = some first ∧
        (completed.foldl (callback nTotal n eval) {}).promise = [values first] := by
  induction completed using reverseRecOn with
  | nil =>
    left
    simp [enough, values, counted]
    omega
  | append_singleton completed x ih =>
    have hinits : (completed ++ [x]).inits = completed.inits ++ [completed ++ [x]] := by
      simp [inits_append]
    rw [foldl_append, foldl_cons, foldl_nil, hinits, find?_append]
    rcases ih with ⟨hfind, hfold⟩ | ⟨first, hfind, hpromise⟩
    · rw [hfind, hfold, callback_counted]
      by_cases henough : enough nTotal n eval (completed ++ [x])
      · exact .inr ⟨completed ++ [x], by simp [henough]⟩
      · exact .inl (by simp [henough])
    · -- the callback finds the promise fulfilled
      exact .inr ⟨first, by simp [hfind, callback, hpromise]⟩

/-- **The promise is fulfilled once, as soon as `n` results satisfy the predicate or all futures
are complete, with the values there are.** -/
theorem collectNSucceeded_eq (hn : 1 ≤ n) (hle : n ≤ nTotal) (eval : ℕ → T → Bool)
    (completed : List (ℕ × Option T)) :
    collectNSucceeded nTotal n eval completed =
        ((completed.inits.find? (enough nTotal n eval)).map fun first =>
          some (values first)).toList ∧
      (completed.length = nTotal → (collectNSucceeded nTotal n eval completed).length = 1) := by
  rw [collectNSucceeded, if_neg (by omega), if_neg (by omega)]
  rcases foldl_callback hn hle completed with ⟨hfind, hfold⟩ | ⟨first, hfind, hpromise⟩
  · refine ⟨by rw [hfind, hfold]; rfl, fun hlen => ?_⟩
    have hall : enough nTotal n eval completed = true := decide_eq_true (.inl hlen)
    exact absurd hall (find?_eq_none.mp hfind completed (by simp))
  · simp [hfind, hpromise]

theorem collectNSucceeded_one_of_two :
    collectNSucceeded 2 1 (fun _ v => decide (0 < v)) [(1, some 0), (0, none)] = [some [(1, 0)]] :=
  (collectNSucceeded_eq (Nat.le_refl 1) (Nat.le_succ 1) (fun _ v => decide (0 < v)) _).1

end K2Graph.Base
