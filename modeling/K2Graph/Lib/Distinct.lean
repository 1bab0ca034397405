import Mathlib.Data.List.Destutter
import Mathlib.Order.Lattice

/-!
# Sorting and merging neighbours

`std::sort` followed by `std::unique` is a way to keep one element of each kind.  Sorting asks
for a strict weak order of the elements at hand and promises nothing otherwise; merging drops
an element that equals the last one kept.  The two go together where the order and the equality
are those of a key in a linear order.

## Main definitions

* `StrictWeakOn`, `StdSort` — what sorting asks for, and what it promises.
* `unique`, `distinct` — merging neighbours, and sorting before.
* `ComparedBy` — the comparisons are those of a key.

## Main results

* `ComparedBy.countP_distinct` — each element is there once.
-/

namespace K2Graph

open List hiding not_lt

variable {α β : Type*}

/-- `lt` is a strict weak order of the elements of a list. -/
structure StrictWeakOn (lt : α → α → Bool) (l : List α) : Prop where
  irrefl : ∀ a ∈ l, lt a a = false
  trans : ∀ a ∈ l, ∀ b ∈ l, ∀ c ∈ l, lt a b = true → lt b c = true → lt a c = true
  incomparable : ∀ a ∈ l, ∀ b ∈ l, ∀ c ∈ l, lt a b = false → lt b a = false →
    lt b c = false → lt c b = false → lt a c = false ∧ lt c a = false

/-- `std::sort` with the comparison `lt`. -/
structure StdSort (lt : α → α → Bool) where
  sort : List α → List α
  perm : ∀ l, StrictWeakOn lt l → (sort l).Perm l
  sorted : ∀ l, StrictWeakOn lt l → (sort l).Pairwise fun a b => lt b a = false

variable (eqv : α → α → Bool)

/-- `std::unique`. -/
def unique (l : List α) : List α :=
  l.destutter fun a b => eqv a b = false

def distinct {lt : α → α → Bool} (sort : StdSort lt) (eqv : α → α → Bool) (l : List α) : List α :=
  unique eqv (sort.sort l)

theorem unique_sublist (l : List α) : (unique eqv l).Sublist l :=
  destutter_sublist _ l

theorem exists_mem_unique {eqv : α → α → Bool} (hrefl : ∀ a ∈ l, eqv a a = true) :
    ∀ a ∈ l, ∃ b ∈ unique eqv l, eqv b a = true := by
  -- the last element kept so far is the head of the list that is left
  have key (l : List α) : ∀ kept : α, (∀ a ∈ kept :: l, eqv a a = true) → ∀ a ∈ kept :: l,
      ∃ b ∈ l.destutter' (fun a b => eqv a b = false) kept, eqv b a = true := by
    induction l with
    | nil =>
      intro kept hrefl
      simpa using hrefl kept mem_cons_self
    | cons x l ih =>
      intro kept hrefl
      obtain ⟨hkept, hrest⟩ := forall_mem_cons.mp hrefl
      rw [destutter'_cons]
      split_ifs with hx
      · refine forall_mem_cons.mpr ⟨⟨kept, mem_cons_self, hkept⟩, fun a ha => ?_⟩
        obtain ⟨b, hb, heqv⟩ := ih x hrest a ha
        exact ⟨b, mem_cons_of_mem _ hb, heqv⟩
      · have hl := (forall_mem_cons.mp hrest).2
        obtain ⟨hfirst, hall⟩ := forall_mem_cons.mp (ih kept (forall_mem_cons.mpr ⟨hkept, hl⟩))
        refine forall_mem_cons.mpr ⟨hfirst, forall_mem_cons.mpr ⟨?_, hall⟩⟩
        exact ⟨kept, mem_destutter' _ _ _, by simpa using hx⟩
  cases l with
  | nil =>
    intro a ha
    cases ha
  | cons x l => exact key l x hrefl

/-- The comparisons of the elements of a list are those of a key. -/
structure ComparedBy [LinearOrder β] (lt eqv : α → α → Bool) (key : α → β) (l : List α) :
    Prop where
  lt_iff : ∀ a ∈ l, ∀ b ∈ l, lt a b = true ↔ key a < key b
  eqv_iff : ∀ a ∈ l, ∀ b ∈ l, eqv a b = true ↔ key a = key b

namespace ComparedBy

variable [LinearOrder β] {lt eqv : α → α → Bool} {key : α → β} {l : List α}

section

variable (h : ComparedBy lt eqv key l)
include h

theorem not_lt_iff (ha : a ∈ l) (hb : b ∈ l) : lt a b = false ↔ key b ≤ key a := by
  rw [← not_lt, ← h.lt_iff a ha b hb, Bool.not_eq_true]

theorem strictWeakOn : StrictWeakOn lt l where
  irrefl a ha := (h.not_lt_iff ha ha).mpr le_rfl
  trans a ha b hb c hc hab hbc :=
    (h.lt_iff a ha c hc).mpr
      (((h.lt_iff a ha b hb).mp hab).trans ((h.lt_iff b hb c hc).mp hbc))
  incomparable a ha b hb c hc hab hba hbc hcb := by
    rw [h.not_lt_iff ha hb] at hab
    rw [h.not_lt_iff hb ha] at hba
    rw [h.not_lt_iff hb hc] at hbc
    rw [h.not_lt_iff hc hb] at hcb
    exact ⟨(h.not_lt_iff ha hc).mpr (hbc.trans hab), (h.not_lt_iff hc ha).mpr (hba.trans hcb)⟩

theorem pairwise_unique (hsorted : l.Pairwise fun a b => lt b a = false) :
    (unique eqv l).Pairwise fun a b => key a < key b := by
  have hmem : ∀ a ∈ unique eqv l, a ∈ l := fun a ha => (unique_sublist eqv l).subset ha
  have hle : ((unique eqv l).map key).IsChain (· ≤ ·) := by
    refine (List.Pairwise.isChain ?_)
    rw [pairwise_map]
    refine (hsorted.sublist (unique_sublist eqv l)).imp_of_mem ?_
    intro a b ha hb hba
    exact (h.not_lt_iff (hmem b hb) (hmem a ha)).mp hba
  have hne : ((unique eqv l).map key).IsChain (· ≠ ·) := by
    rw [isChain_map]
    have hchain := isChain_destutter (R := fun a b => eqv a b = false) l
    refine List.IsChain.imp_of_mem_imp ?_ hchain
    intro a b ha hb hab heq
    rw [← h.eqv_iff a (hmem a ha) b (hmem b hb)] at heq
    simp [heq] at hab
  have hlt : ((unique eqv l).map key).IsChain (· < ·) := by
    rw [isChain_iff_getElem] at hle hne ⊢
    intro i hi
    exact lt_of_le_of_ne (hle i hi) (hne i hi)
  rw [isChain_iff_pairwise, pairwise_map] at hlt
  exact hlt

theorem of_perm (hp : l'.Perm l) : ComparedBy lt eqv key l' :=
  ⟨fun a ha b hb => h.lt_iff a (hp.subset ha) b (hp.subset hb),
    fun a ha b hb => h.eqv_iff a (hp.subset ha) b (hp.subset hb)⟩

theorem mem_of_mem_distinct (sort : StdSort lt) (ha : a ∈ distinct sort eqv l) : a ∈ l :=
  (sort.perm l h.strictWeakOn).subset ((unique_sublist _ _).subset ha)

theorem countP_distinct (sort : StdSort lt) (ha : a ∈ l) :
    (distinct sort eqv l).countP (fun b => eqv b a) = 1 := by
  have hperm := sort.perm l h.strictWeakOn
  have hs : ComparedBy lt eqv key (sort.sort l) := h.of_perm hperm
  have hmem : ∀ b ∈ distinct sort eqv l, b ∈ l := fun b hb => h.mem_of_mem_distinct sort hb
  have hpair := hs.pairwise_unique (sort.sorted l h.strictWeakOn)
  have hnodup : ((distinct sort eqv l).map key).Nodup :=
    pairwise_map.mpr (hpair.imp fun hlt => hlt.ne)
  obtain ⟨b, hb, hba⟩ := exists_mem_unique
    (fun c hc => (hs.eqv_iff c hc c hc).mpr rfl) a (hperm.symm.subset ha)
  have hkey : key b = key a := (h.eqv_iff b (hmem b hb) a ha).mp hba
  -- the elements that count as equal are those with the key
  have hcount : (distinct sort eqv l).countP (fun b => eqv b a) =
      ((distinct sort eqv l).map key).count (key a) := by
    rw [count, countP_map]
    refine countP_congr fun c hc => ?_
    simp [h.eqv_iff c (hmem c hc) a ha]
  rw [hcount]
  exact count_eq_one_of_mem hnodup (mem_map.mpr ⟨b, hb, hkey⟩)

end

end ComparedBy

/-- Sorting by merging, as an instance of `StdSort`. -/
def StdSort.merge (lt : α → α → Bool) : StdSort lt where
  sort l := (l.attach.mergeSort fun a b => !lt b.1 a.1).map Subtype.val
  perm l _ := by
    have h := (mergeSort_perm l.attach fun a b => !lt b.1 a.1).map Subtype.val
    rwa [attach_map_subtype_val] at h
  sorted l h := by
    have htrans : ∀ a b c : {x // x ∈ l}, (!lt b.1 a.1) = true → (!lt c.1 b.1) = true →
        (!lt c.1 a.1) = true := by
      intro a b c hab hbc
      simp only [Bool.not_eq_eq_eq_not, Bool.not_true] at hab hbc ⊢
      by_contra hca
      rw [Bool.not_eq_false] at hca
      cases hlt : lt a.1 b.1 with
      | true => simp [h.trans c.1 c.2 a.1 a.2 b.1 b.2 hca hlt] at hbc
      | false =>
        cases hcb : lt b.1 c.1 with
        | true => simp [h.trans b.1 b.2 c.1 c.2 a.1 a.2 hcb hca] at hab
        | false =>
          have := h.incomparable a.1 a.2 b.1 b.2 c.1 c.2 hlt hab hcb hbc
          simp [this.2] at hca
    have htotal : ∀ a b : {x // x ∈ l}, ((!lt b.1 a.1) || !lt a.1 b.1) = true := by
      intro a b
      simp only [Bool.or_eq_true, Bool.not_eq_eq_eq_not, Bool.not_true]
      by_contra hboth
      simp only [not_or, Bool.not_eq_false] at hboth
      have := h.trans a.1 a.2 b.1 b.2 a.1 a.2 hboth.2 hboth.1
      simp [h.irrefl a.1 a.2] at this
    rw [pairwise_map]
    refine (pairwise_mergeSort htrans htotal l.attach).imp ?_
    intro a b hab
    simpa using hab

end K2Graph
