import Mathlib.Data.List.Basic

/-!
# Groups in a scan

A scan in key order meets the elements of a group one after another, and a loop that
remembers the group of the element it took last takes the first element of every group.

## Main definitions

* `heads` — what such a loop takes.
* `Grouped` — the elements of a group stand together.

## Main results

* `mem_heads` — the elements taken are the first of their groups.
-/

namespace K2Graph

open List

variable {α γ : Type}

/-- The elements that a loop takes which skips those of the group it has taken last. -/
def heads [DecidableEq γ] (g : α → γ) : γ → List α → List α
  | _, [] => []
  | last, x :: xs => if g x = last then heads g last xs else x :: heads g (g x) xs

/-- The elements of a group stand together. -/
def Grouped (g : α → γ) (xs : List α) : Prop :=
  ∀ ⦃a b c : α⦄, [a, b, c].Sublist xs → g a = g c → g b = g a

theorem Grouped.tail {g : α → γ} {xs : List α} (h : Grouped g (x :: xs)) : Grouped g xs :=
  fun _ _ _ hs => h (hs.cons x)

variable {g : α → γ}

theorem Grouped.sublist (h : Grouped g ys) (hs : xs.Sublist ys) : Grouped g xs :=
  fun _ _ _ habc => h (habc.trans hs)

theorem Grouped.congr {g' : α → δ} (h : Grouped g xs)
    (heq : ∀ x ∈ xs, ∀ y ∈ xs, g x = g y ↔ g' x = g' y) : Grouped g' xs := by
  intro a b c hsub hac
  have hmem : ∀ x ∈ [a, b, c], x ∈ xs := fun x hx => hsub.subset hx
  have ha := hmem a (by simp)
  have hb := hmem b (by simp)
  have hc := hmem c (by simp)
  exact (heq b hb a ha).mp (h hsub ((heq a ha c hc).mpr hac))

theorem Grouped.ne_of_ne (h : Grouped g (x :: y :: xs)) (hne : g y ≠ g x) :
    ∀ z ∈ y :: xs, g z ≠ g x := by
  refine forall_mem_cons.mpr ⟨hne, fun z hz heq => ?_⟩
  have hsub : [x, y, z].Sublist (x :: y :: xs) :=
    ((singleton_sublist.mpr hz).cons_cons y).cons_cons x
  exact hne (h hsub heq.symm)

variable [DecidableEq γ]

theorem mem_heads_cons (h : Grouped g (x :: xs)) :
    y ∈ heads g (g x) xs ↔ xs.find? (fun z => g z = g y) = some y ∧ g y ≠ g x := by
  induction xs generalizing x with
  | nil => simp [heads]
  | cons z zs ih =>
    rw [heads]
    by_cases hz : g z = g x
    · have hgroup : Grouped g (x :: zs) := h.sublist ((sublist_cons_self z zs).cons_cons x)
      rw [if_pos hz, ih hgroup]
      by_cases hy : g y = g x
      · simp [hy]
      · have hzy : ¬ g z = g y := fun heq => hy (heq.symm.trans hz)
        simp [hzy]
    rw [if_neg hz, mem_cons, ih h.tail, find?_cons]
    by_cases hy : g z = g y
    · have hyx : g y ≠ g x := fun heq => hz (hy.trans heq)
      simp [hy, hyx, eq_comm]
    have hne : y ≠ z := fun heq => hy (by rw [heq])
    have hyz : g y ≠ g z := fun heq => hy heq.symm
    simp only [hne, hy, hyz, false_or, ne_eq, not_false_eq_true, and_true]
    refine (and_iff_left_of_imp fun hfind => ?_).symm
    exact h.ne_of_ne hz y (mem_cons_of_mem z (mem_of_find?_eq_some hfind))

/-- **The elements taken are the first of their groups**, but for the group the loop
pretends to have taken last, when it comes first. -/
theorem mem_heads (h : Grouped g xs) :
    y ∈ heads g last xs ↔
      xs.find? (fun z => g z = g y) = some y ∧ ¬ (g y = last ∧ xs.head?.map g = some last) := by
  cases xs with
  | nil => simp [heads]
  | cons x xs =>
    rw [heads]
    by_cases hx : g x = last
    · rw [if_pos hx, ← hx, mem_heads_cons h]
      by_cases hy : g x = g y
      · simp [hy]
      · simp [hy]
    rw [if_neg hx, mem_cons, mem_heads_cons h]
    by_cases hy : g x = g y
    · have hyl : ¬ g y = last := fun heq => hx (hy.trans heq)
      simp [hy, hyl, eq_comm]
    · have hne : y ≠ x := fun heq => hy (by rw [heq])
      have hyx : ¬ g y = g x := fun heq => hy heq.symm
      simp [hne, hy, hyx, hx]

theorem mem_heads_of_forall_ne (h : Grouped g xs) (hlast : ∀ x ∈ xs, g x ≠ last) :
    y ∈ heads g last xs ↔ xs.find? (fun z => g z = g y) = some y := by
  rw [mem_heads h]
  refine and_iff_left_of_imp fun hfind hand => ?_
  exact hlast y (mem_of_find?_eq_some hfind) hand.1

theorem find?_heads (hlast : last ≠ p) (xs : List α) :
    (heads g last xs).find? (fun x => g x = p) = xs.find? fun x => g x = p := by
  induction xs generalizing last with
  | nil => rfl
  | cons x xs ih =>
    rw [heads]
    by_cases hx : g x = last
    · rw [if_pos hx, find?_cons_of_neg (by simpa [hx] using hlast)]
      exact ih hlast
    rw [if_neg hx, find?_cons, find?_cons]
    by_cases hp : g x = p
    · rw [decide_eq_true hp]
    · rw [decide_eq_false hp]
      exact ih hp

theorem heads_sublist (g : α → γ) (last : γ) (xs : List α) : (heads g last xs).Sublist xs := by
  induction xs generalizing last with
  | nil => exact .slnil
  | cons x xs ih =>
    rw [heads]
    split
    · exact (ih last).cons x
    · exact (ih (g x)).cons_cons x

end K2Graph
