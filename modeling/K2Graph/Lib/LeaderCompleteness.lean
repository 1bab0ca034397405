import K2Graph.Lib.TermLog
import Mathlib.Data.Finset.Card

/-!
# Leader completeness

The setting is that of `TermLog`: `L t` is the log of the author of term `t`.  A
voter that once held the author's log may have lost it to a later author, but
only where the two authors' logs conflict.  `Kept` says so, and it is this weak
form that every step of a protocol can be seen to keep.

If a majority held the log of term `t` up to an entry of that term, every later
author starts from it.  This is proved by induction on the later term: the
conflicts `Kept` allows for are with authors of terms in between, which start
from the entry and so do not conflict with it.

## Main definitions

* `Conflict` — two logs have entries of different terms at one position.
* `Kept` — a log goes on with what was held, or was overwritten by a later
  author.
* `UpToDate` — the test of a voter.

## Main results

* `leader_completeness` — every later author starts from what was chosen.
* `exists_mem_of_majorities` — two majorities have a common member.
-/

namespace K2Graph.TermLog

open List

variable {ε : Type} {term : ε → ℕ} {L : ℕ → List ε} {X Y : List ε} {e f : ε} {m t t' T : ℕ}

/-! ### Conflicts -/

/-- The logs have entries of different terms at a position before `m`. -/
def Conflict (term : ε → ℕ) (X Y : List ε) (m : ℕ) : Prop :=
  ∃ i < m, ∃ e f, X[i]? = some e ∧ Y[i]? = some f ∧ term e ≠ term f

theorem Conflict.mono (h : Conflict term X Y m) (hX : X <+: X') (hY : Y <+: Z) :
    Conflict term X' Z m := by
  obtain ⟨i, hi, e, f, he, hf, hne⟩ := h
  exact ⟨i, hi, e, f, getElem?_of_isPrefix hX he, getElem?_of_isPrefix hY hf, hne⟩

theorem not_conflict_of_take_isPrefix (h : X.take m <+: Y) : ¬ Conflict term X Y m := by
  rintro ⟨i, hi, e, f, he, hf, hne⟩
  have hmem : (X.take m)[i]? = some e := (getElem?_take_of_lt hi).trans he
  have hYe : Y[i]? = some e := getElem?_of_isPrefix h hmem
  rw [hf, Option.some.injEq] at hYe
  exact hne (congrArg term hYe.symm)

/-! ### What a voter keeps -/

/-- The log goes on with the first `m` entries of the author of `t`, or they
conflict with those of an author of a later term, before `T`. -/
def Kept (term : ε → ℕ) (L : ℕ → List ε) (X : List ε) (t m T : ℕ) : Prop :=
  (L t).take m <+: X ∨ ∃ t', t < t' ∧ t' < T ∧ Conflict term (L t) (L t') m

theorem Kept.mono (h : Kept term L X t m T) (hX : X <+: X') (hT : T ≤ T') :
    Kept term L X' t m T' := by
  rcases h with h | ⟨t', hlt, hlt', hc⟩
  · exact .inl (h.trans hX)
  · exact .inr ⟨t', hlt, hlt'.trans_le hT, hc⟩

theorem Kept.grow (h : Kept term L X t m T) (hL : ∀ t, L t <+: L' t) (hm : m ≤ (L t).length) :
    Kept term L' X t m T := by
  rcases h with h | ⟨t', hlt, hlt', hc⟩
  · left
    rw [take_eq_of_isPrefix (hL t) hm]
    exact h
  · exact .inr ⟨t', hlt, hlt', hc.mono (hL t) (hL t')⟩

/-- A log may be cut where it conflicts with the author of `T`. -/
theorem Kept.cut (h : Kept term L X t m T) (htT : t ≤ T) (hX : X[c]? = some e)
    (hY : (L T)[c]? = some f) (hne : term e ≠ term f) :
    Kept term L (X.take c) t m (T + 1) := by
  rcases h with h | ⟨t', hlt, hlt', hc⟩
  · by_cases hc : ((L t).take m).length ≤ c
    · exact .inl (prefix_take_iff.mpr ⟨h, hc⟩)
    -- the author of `t` has the entry that is cut off
    rw [not_le] at hc
    have hcm : c < m := hc.trans_le (length_take_le m _)
    have he : (L t)[c]? = some e := by
      rw [← getElem?_take_of_lt hcm, ← getElem?_of_isPrefix_of_lt h hc]
      exact hX
    have hlt : t < T := by
      refine lt_of_le_of_ne htT ?_
      rintro rfl
      rw [he, Option.some.injEq] at hY
      exact hne (congrArg term hY)
    exact .inr ⟨T, hlt, Nat.lt_succ_self T, c, hcm, e, f, he, hY, hne⟩
  · exact .inr ⟨t', hlt, hlt'.trans (Nat.lt_succ_self T), hc⟩

/-! ### The test of a voter -/

/-- The candidate's log `Y` is at least as up to date as the voter's log `X`. -/
def UpToDate (term : ε → ℕ) (X Y : List ε) : Prop :=
  X = [] ∨ lastTerm term X < lastTerm term Y ∨
    lastTerm term X = lastTerm term Y ∧ X.length ≤ Y.length

theorem exists_lastTerm (term : ε → ℕ) (h : X ≠ []) :
    ∃ e, X[X.length - 1]? = some e ∧ term e = lastTerm term X := by
  have hpos : 0 < X.length := length_pos_iff.mpr h
  have hlt : X.length - 1 < X.length := by omega
  refine ⟨X[X.length - 1], getElem?_eq_getElem hlt, ?_⟩
  exact (lastTerm_eq (getElem?_eq_getElem hlt) (by omega)).symm

theorem Built.isPrefix_lastTerm (h : Built term L X) (hne : X ≠ []) :
    X <+: L (lastTerm term X) := by
  obtain ⟨e, he, hterm⟩ := exists_lastTerm term hne
  have hpos : 0 < X.length := length_pos_iff.mpr hne
  rw [← hterm]
  exact h.prefix_of_last he (by omega)

variable {W : ℕ → List ε → Prop}

/-- **An up-to-date candidate has what its voter has.**  `W` tells which log each
author started from; those of terms after `t` start from `Z`. -/
theorem isPrefix_of_upToDate (hX : Built term L X) (hY : Built term L Y)
    (hL : ∀ t, ∀ e ∈ L t, term e ≤ t) (hwon : ∀ t, L t ≠ [] → ∃ Y, W t Y)
    (hW : ∀ t Y, W t Y → Y <+: L t ∧ ∀ e ∈ Y, term e < t) (hYT : ∀ e ∈ Y, term e < T)
    (hup : UpToDate term X Y) (hZX : Z <+: X) (hlast : Z = [] ∨ ∃ e ∈ Z, term e = t)
    (hlater : ∀ t' Y', t < t' → t' < T → W t' Y' → Z <+: Y') : Z <+: Y := by
  rcases hlast with rfl | ⟨e, heZ, het⟩
  · exact nil_prefix
  have hXne : X ≠ [] := ne_nil_of_mem (hZX.subset heZ)
  have htX : t ≤ lastTerm term X := by
    rw [← het]
    exact hL _ e ((hX.isPrefix_lastTerm hXne).subset (hZX.subset heZ))
  rcases hup with hnil | hlt | ⟨heq, hlen⟩
  · exact absurd hnil hXne
  · -- the candidate's last entry is of a later author, who started from `Z`
    have hYne : Y ≠ [] := by
      rintro rfl
      rw [lastTerm_nil] at hlt
      omega
    obtain ⟨f, hf, hft⟩ := exists_lastTerm term hYne
    have hYL : Y <+: L (lastTerm term Y) := hY.isPrefix_lastTerm hYne
    have hLne : L (lastTerm term Y) ≠ [] := by
      intro h0
      rw [h0, prefix_nil] at hYL
      exact hYne hYL
    obtain ⟨Y', hY'⟩ := hwon _ hLne
    obtain ⟨hY'L, hY'term⟩ := hW _ _ hY'
    have hlastT : lastTerm term Y < T := by
      rw [← hft]
      exact hYT f (mem_of_getElem? hf)
    have hZY' : Z <+: Y' := hlater _ _ (by omega) hlastT hY'
    have hlen : Y'.length ≤ Y.length := by
      by_contra hgt
      -- then the last entry of `Y` would be one the author started from
      have hYY' : Y <+: Y' := prefix_of_prefix_length_le hYL hY'L (by omega)
      have hfY' : f ∈ Y' := hYY'.subset (mem_of_getElem? hf)
      have := hY'term f hfY'
      omega
    exact hZY'.trans (prefix_of_prefix_length_le hY'L hYL hlen)
  · have hYne : Y ≠ [] := by
      rintro rfl
      have : X.length = 0 := Nat.le_zero.mp hlen
      exact hXne (length_eq_zero_iff.mp this)
    have hXL : X <+: L (lastTerm term X) := hX.isPrefix_lastTerm hXne
    have hYL : Y <+: L (lastTerm term X) := by
      rw [heq]
      exact hY.isPrefix_lastTerm hYne
    exact hZX.trans (prefix_of_prefix_length_le hXL hYL hlen)

/-! ### Leader completeness -/

/-- **Leader completeness.**  Let every author of a term after `t` have a voter
that kept the first `n` entries of the author of `t`, of which the last is of
term `t`, up to its vote.  Then every author of a later term starts from
them. -/
theorem leader_completeness (hL : ∀ t, ∀ e ∈ L t, term e ≤ t) (hwon : ∀ t, L t ≠ [] → ∃ Y, W t Y)
    (hW : ∀ t Y, W t Y → Built term L Y ∧ Y <+: L t ∧ ∀ e ∈ Y, term e < t)
    (hlast : (L t).take n = [] ∨ ∃ e ∈ (L t).take n, term e = t)
    (hvoter : ∀ t' Y, W t' Y → t < t' → ∃ X, Built term L X ∧ Kept term L X t n t' ∧
      UpToDate term X Y) :
    ∀ t' Y, W t' Y → t < t' → (L t).take n <+: Y := by
  intro t'
  induction t' using Nat.strong_induction_on with
  | _ t' ih =>
    intro Y hWY htt'
    obtain ⟨X, hXbuilt, hkept, hup⟩ := hvoter t' Y hWY htt'
    obtain ⟨hYbuilt, -, hYterm⟩ := hW t' Y hWY
    have hX : (L t).take n <+: X := by
      rcases hkept with hX | ⟨t₁, hlt, hlt', hconf⟩
      · exact hX
      -- an author in between starts from the entries, so it does not conflict
      have hne : L t₁ ≠ [] := by
        obtain ⟨i, -, -, f, -, hf, -⟩ := hconf
        exact ne_nil_of_mem (mem_of_getElem? hf)
      obtain ⟨Y₁, hY₁⟩ := hwon t₁ hne
      have hpre : (L t).take n <+: L t₁ := (ih t₁ hlt' Y₁ hY₁ hlt).trans (hW t₁ Y₁ hY₁).2.1
      exact absurd hconf (not_conflict_of_take_isPrefix hpre)
    exact isPrefix_of_upToDate hXbuilt hYbuilt hL hwon (fun t Y h => (hW t Y h).2) hYterm hup hX
      hlast (fun t₁ Y₁ hlt hlt' hY₁ => ih t₁ hlt' Y₁ hY₁ hlt)

theorem exists_mem_of_majorities {ν : Type} [DecidableEq ν] {members : List ν}
    {Q Q' : Finset ν} (hQ : Q ⊆ members.toFinset) (hQ' : Q' ⊆ members.toFinset)
    (hcard : members.length < 2 * Q.card) (hcard' : members.length < 2 * Q'.card) :
    ∃ v ∈ Q, v ∈ Q' := by
  have hle : members.toFinset.card ≤ members.length := toFinset_card_le members
  have hlt : members.toFinset.card < Q.card + Q'.card := by omega
  obtain ⟨v, hv⟩ := Finset.inter_nonempty_of_card_lt_card_add_card hQ hQ' hlt
  rw [Finset.mem_inter] at hv
  exact ⟨v, hv.1, hv.2⟩

end K2Graph.TermLog
