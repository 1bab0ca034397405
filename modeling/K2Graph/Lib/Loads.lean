import Mathlib.Algebra.Group.Action.Defs
import Mathlib.Algebra.Order.BigOperators.Group.List
import Mathlib.Data.List.AList
import Mathlib.Tactic.Ring

/-!
# Loads and their average

A weight of the values of a map is summed over its entries.  Among numbers with a given sum,
the greatest is not below the average and the least is not above it; if one of them is not
even the average rounded up or down, they are at least two apart.

## Main definitions

* `weight` — the sum of a weight over the values of a map.
* `floorAvg`, `ceilAvg` — the average, rounded.

## Main results

* `weight_insert` — what replacing a value does to a weight.
* `gap_of_unbalanced` — unbalanced loads are two apart.
-/

namespace K2Graph

open List hiding not_lt

/-! ### Weights -/

section Weight

variable {κ ν : Type} [DecidableEq κ] (f : ν → ℕ)

/-- The sum of a weight over the values of a map. -/
def weight (m : AList fun _ : κ => ν) : ℕ := (m.entries.map fun x => f x.2).sum

theorem weight_insert {m : AList fun _ : κ => ν} (h : m.lookup k = some v) (v' : ν) :
    weight f (m.insert k v') + f v = weight f m + f v' := by
  have hmem : (⟨k, v⟩ : Σ _ : κ, ν) ∈ m.entries := AList.mem_lookup_iff.mp h
  obtain ⟨w, l₁, l₂, -, hl, hkerase⟩ :=
    exists_of_kerase (mem_keys_of_mem hmem)
  -- the entry that goes is the one that was found
  have hw : w = v := by
    have hw : (⟨k, w⟩ : Σ _ : κ, ν) ∈ m.entries := by rw [hl]; simp
    exact Option.some.inj ((AList.mem_lookup_iff.mpr hw).symm.trans h)
  subst hw
  rw [weight, weight, AList.entries_insert, hkerase, hl]
  simp only [map_cons, map_append, sum_cons, sum_append]
  omega

theorem weight_congr {m : AList fun _ : κ => ν} (h : ∀ k, m.lookup k = m'.lookup k) :
    weight f m = weight f m' := by
  have hperm : m.entries.Perm m'.entries := by
    refine lookup_ext m.nodupKeys m'.nodupKeys fun k v => ?_
    show v ∈ m.lookup k ↔ v ∈ m'.lookup k
    rw [h k]
  exact (hperm.map _).sum_eq

end Weight

/-! ### Bounds on a sum -/

variable {l : List ℕ}

theorem le_sum_of_forall_le (h : ∀ y ∈ l, lo ≤ y) (hx : x ∈ l) :
    l.length * lo + (x - lo) ≤ l.sum := by
  have hsum := card_nsmul_le_sum (l.erase x) lo fun y hy => h y (mem_of_mem_erase hy)
  have hlo := h x hx
  rw [smul_eq_mul] at hsum
  rw [← length_erase_add_one hx, ← sum_erase hx, Nat.succ_mul]
  omega

theorem sum_le_of_forall_le (h : ∀ y ∈ l, y ≤ hi) (hx : x ∈ l) :
    l.sum + (hi - x) ≤ l.length * hi := by
  have hsum := sum_le_card_nsmul (l.erase x) hi fun y hy => h y (mem_of_mem_erase hy)
  have hhi := h x hx
  rw [smul_eq_mul] at hsum
  rw [← length_erase_add_one hx, ← sum_erase hx, Nat.succ_mul]
  omega

/-! ### The average -/

/-- The average, rounded down. -/
def floorAvg (total n : ℕ) : ℕ := total / n

/-- The average, rounded up. -/
def ceilAvg (total n : ℕ) : ℕ := (total + n - 1) / n

section Average

variable (total : ℕ)

theorem le_mul_ceilAvg (hn : 0 < n) : total ≤ n * ceilAvg total n := by
  have hmod := Nat.div_add_mod (total + n - 1) n
  have hlt := Nat.mod_lt (total + n - 1) hn
  rw [ceilAvg]
  omega

end Average

/-- **If the greatest load is above the average rounded up, or the least below the average
rounded down, they are at least two apart**, and a load can move without passing the
average. -/
theorem gap_of_unbalanced (hlo : ∀ y ∈ l, lo ≤ y) (hhi : ∀ y ∈ l, y ≤ hi) (hlo' : lo ∈ l)
    (hhi' : hi ∈ l) (h : ceilAvg l.sum l.length < hi ∨ lo < floorAvg l.sum l.length) :
    lo + 2 ≤ hi ∧ floorAvg l.sum l.length < hi ∧ lo < ceilAvg l.sum l.length := by
  have hn : 0 < l.length := length_pos_of_mem hlo'
  have hbelow := le_sum_of_forall_le hlo hhi'
  have habove := sum_le_of_forall_le hhi hlo'
  have hfloor : l.length * floorAvg l.sum l.length ≤ l.sum := Nat.mul_div_le _ _
  have hceil := le_mul_ceilAvg l.sum hn
  have hle : lo ≤ hi := hhi lo hlo'
  generalize floorAvg l.sum l.length = q at *
  generalize ceilAvg l.sum l.length = c at *
  -- if all loads were the same, they would be the average
  have hne : lo ≠ hi := by
    rintro rfl
    have hmul := h.imp (Nat.mul_lt_mul_of_pos_left · hn) (Nat.mul_lt_mul_of_pos_left · hn)
    omega
  have hq : q < hi := lt_of_mul_lt_mul_left' (a := l.length) (by omega)
  have hc : lo < c := lt_of_mul_lt_mul_left' (a := l.length) (by omega)
  exact ⟨by omega, hq, hc⟩

end K2Graph
