import Mathlib.Data.List.AList

/-!
# Lists of writes to a key-value store

A store is an association list without repeated keys.  A list of writes is applied
from the first to the last, so what a key holds afterwards is decided by the last
write of that key, if there is one, and by the store before otherwise.

## Main definitions

* `Write` — put a value under a key, or erase the key.
* `Write.applyAll` — a list of writes.
* `Write.last` — the last write of a key.

## Main results

* `Write.lookup_applyAll` — what a key holds after a list of writes.
* `Write.keys_filter_perm` — the keys found in two stores that hold the same.
-/

namespace K2Graph

open List

/-- A write to a key-value store. -/
inductive Write (κ ν : Type) where
  | put (key : κ) (value : ν)
  | erase (key : κ)

namespace Write

variable {κ ν : Type}

def key : Write κ ν → κ
  | put k _ => k
  | erase k => k

/-- What the key holds afterwards. -/
def value : Write κ ν → Option ν
  | put _ v => some v
  | erase _ => none

variable (k : κ)

@[simp] theorem key_put (v : ν) : (put k v).key = k := rfl
@[simp] theorem key_erase : (erase k : Write κ ν).key = k := rfl
@[simp] theorem value_put (v : ν) : (put k v).value = some v := rfl

variable [DecidableEq κ] (s : AList fun _ : κ => ν)

def apply : Write κ ν → AList fun _ : κ => ν
  | put k v => s.insert k v
  | erase k => s.erase k

def applyAll (ws : List (Write κ ν)) : AList fun _ : κ => ν :=
  ws.foldl apply s

/-- What the last write of the key leaves there, if there is a write of it. -/
def last (k : κ) : List (Write κ ν) → Option (Option ν)
  | [] => none
  | w :: ws => (last k ws).or (if w.key = k then some w.value else none)

@[simp] theorem applyAll_nil : applyAll s [] = s := rfl

@[simp] theorem applyAll_cons (w : Write κ ν) (ws : List (Write κ ν)) :
    applyAll s (w :: ws) = applyAll (apply s w) ws := rfl

@[simp] theorem last_nil : last k ([] : List (Write κ ν)) = none := rfl

theorem last_cons (w : Write κ ν) (ws : List (Write κ ν)) :
    last k (w :: ws) = (last k ws).or (if w.key = k then some w.value else none) := rfl

theorem last_append (ws ws' : List (Write κ ν)) :
    last k (ws ++ ws') = (last k ws').or (last k ws) := by
  induction ws with
  | nil => simp
  | cons w ws ih => rw [cons_append, last_cons, ih, last_cons, Option.or_assoc]

theorem last_eq_none_iff {k : κ} :
    last k ws = none ↔ ∀ w ∈ ws, w.key ≠ k := by
  induction ws with
  | nil => simp
  | cons w ws ih =>
    rw [last_cons, Option.or_eq_none_iff, ih, and_comm]
    simp

theorem exists_of_last {k : κ} (h : last k ws = some v) : ∃ w ∈ ws, w.key = k ∧ w.value = v := by
  induction ws with
  | nil => cases h
  | cons w ws ih =>
    rw [last_cons] at h
    cases hl : last k ws with
    | some v' =>
      rw [hl] at h
      obtain ⟨w', hmem, hw'⟩ := ih (hl.trans h)
      exact ⟨w', mem_cons_of_mem _ hmem, hw'⟩
    | none =>
      rw [hl] at h
      split_ifs at h with hk
      · exact ⟨w, mem_cons_self, hk, Option.some.inj h⟩
      · cases h

theorem last_map_put {α : Type} (key : α → κ) (f : α → ν) (k : κ) (xs : List α) :
    last k (xs.map fun x => put (key x) (f x)) =
      (xs.reverse.find? fun x => key x = k).map fun x => some (f x) := by
  induction xs with
  | nil => rfl
  | cons x xs ih =>
    rw [map_cons, last_cons, ih, reverse_cons, find?_append]
    cases xs.reverse.find? fun x => key x = k with
    | some y => rfl
    | none =>
      by_cases hk : key x = k <;> simp [hk]

theorem lookup_apply (w : Write κ ν) (k : κ) :
    (apply s w).lookup k = if w.key = k then w.value else s.lookup k := by
  by_cases h : w.key = k
  · subst h
    rw [if_pos rfl]
    cases w with
    | put k v => exact AList.lookup_insert s
    | erase k => exact AList.lookup_erase k s
  · rw [if_neg h]
    cases w with
    | put k' v => exact AList.lookup_insert_ne (Ne.symm h)
    | erase k' => exact AList.lookup_erase_ne (Ne.symm h)

/-- **What a key holds after a list of writes.** -/
theorem lookup_applyAll (ws : List (Write κ ν)) (k : κ) :
    (applyAll s ws).lookup k = (last k ws).getD (s.lookup k) := by
  induction ws generalizing s with
  | nil => rfl
  | cons w ws ih =>
    rw [applyAll_cons, ih, last_cons, lookup_apply]
    cases last k ws with
    | some v => rfl
    | none =>
      split <;> rfl

variable {s : AList fun _ : κ => ν}

theorem lookup_applyAll_erase (s : AList fun _ : κ => ν) (ks : List κ) (k : κ) :
    (applyAll s (ks.map erase)).lookup k = if k ∈ ks then none else s.lookup k := by
  by_cases hk : k ∈ ks
  · rw [if_pos hk, lookup_applyAll]
    cases hl : last k (ks.map (erase : κ → Write κ ν)) with
    | none => exact absurd rfl (last_eq_none_iff.mp hl _ (mem_map_of_mem hk))
    | some v =>
      obtain ⟨w, hw, -, rfl⟩ := exists_of_last hl
      obtain ⟨k', -, rfl⟩ := mem_map.mp hw
      rfl
  · rw [if_neg hk, lookup_applyAll, last_eq_none_iff.mpr, Option.getD_none]
    intro w hw
    obtain ⟨k', hk', rfl⟩ := mem_map.mp hw
    rintro rfl
    exact hk hk'

theorem mem_applyAll {k : κ} (h : ∀ w ∈ ws, w.value ≠ none) :
    k ∈ applyAll s ws ↔ k ∈ s ∨ ∃ w ∈ ws, w.key = k := by
  rw [← AList.lookup_isSome, lookup_applyAll, ← AList.lookup_isSome]
  cases hl : last k ws with
  | none =>
    refine ⟨.inl, fun h => h.resolve_right ?_⟩
    rintro ⟨w, hw, hk⟩
    exact last_eq_none_iff.mp hl w hw hk
  | some v =>
    obtain ⟨w, hw, hk, rfl⟩ := exists_of_last hl
    exact ⟨fun _ => .inr ⟨w, hw, hk⟩, fun _ => Option.isSome_iff_ne_none.mpr (h w hw)⟩

omit [DecidableEq κ] in
/-- **Two stores scanned for the same keys**, under different names, give the same up to
order. -/
theorem keys_filter_perm {κ' ν' : Type} {p : κ → Bool} {p' : κ' → Bool}
    {s' : AList fun _ : κ' => ν'} {f : κ' → κ}
    (hf : ∀ k k', p' k = true → p' k' = true → f k = f k' → k = k')
    (h : ∀ k, k ∈ s ∧ p k = true ↔ ∃ k', f k' = k ∧ k' ∈ s' ∧ p' k' = true) :
    (s.keys.filter p).Perm ((s'.keys.filter p').map f) := by
  refine (perm_ext_iff_of_nodup (s.keys_nodup.filter _) ?_).mpr fun k => ?_
  · refine (s'.keys_nodup.filter _).map_on fun a ha b hb hab => ?_
    exact hf a b (mem_filter.mp ha).2 (mem_filter.mp hb).2 hab
  rw [mem_filter, ← AList.mem_keys, h, mem_map]
  constructor
  · rintro ⟨k', rfl, hmem, hp⟩
    exact ⟨k', mem_filter.mpr ⟨AList.mem_keys.mp hmem, hp⟩, rfl⟩
  · rintro ⟨k', hk', rfl⟩
    obtain ⟨hmem, hp⟩ := mem_filter.mp hk'
    exact ⟨k', rfl, AList.mem_keys.mpr hmem, hp⟩

end Write

end K2Graph
