import K2Graph.Kvstore.Engine
import Mathlib.Data.List.Sort

/-!
# Scans of an engine

`RocksEngine::prefix` and `RocksEngine::range` give the pairs whose keys have a prefix, or
lie in a range, in the order of the keys.

## Main results

* `Engine.mem_scan`, `Engine.mem_rangeScan` — what is met.
* `Engine.pairwise_scan` — in which order.
* `Engine.filter_scan` — a scan with a longer prefix is a part of the scan.
* `prefix_of_between` — between two keys with a prefix all keys have it.
-/

namespace K2Graph.Kvstore

open List

/-! ### Keys between two keys -/

variable {a : Bytes}

/-- **Between two keys with a prefix all keys have it.** -/
theorem prefix_of_between {c : Bytes} (ha : p <+: a) (hc : p <+: c) (hab : a ≤ b) (hbc : b ≤ c) :
    p <+: b := by
  induction p generalizing a b c with
  | nil => exact nil_prefix
  | cons x p ih =>
    obtain ⟨a', rfl⟩ := ha
    obtain ⟨c', rfl⟩ := hc
    cases b with
    | nil =>
      have hnil := List.le_antisymm hab (nil_le _)
      cases hnil
    | cons y b =>
      rw [cons_append, cons_le_cons_iff] at hab hbc
      have hxy : x = y := by
        rcases hab with hlt | ⟨heq, _⟩
        · rcases hbc with hlt' | ⟨heq, _⟩
          · exact absurd hlt' (UInt8.lt_asymm hlt)
          · exact heq.symm
        · exact heq
      subst hxy
      have hab' := hab.resolve_left (UInt8.lt_irrefl x)
      have hbc' := hbc.resolve_left (UInt8.lt_irrefl x)
      have hrest : p <+: b := ih ⟨a', rfl⟩ ⟨c', rfl⟩ hab'.2 hbc'.2
      exact (cons_prefix_cons).mpr ⟨rfl, hrest⟩

theorem append_lt_append_iff : p ++ a < p ++ b ↔ a < b := by
  induction p with
  | nil => rfl
  | cons x p ih => rw [cons_append, cons_append, cons_lt_cons_iff, ih,
      and_iff_right rfl, or_iff_right (UInt8.lt_irrefl x)]

theorem append_le_append_iff : p ++ a ≤ p ++ b ↔ a ≤ b := by
  rw [← List.not_lt, ← List.not_lt, append_lt_append_iff]

theorem replicate_zero_le (h : n ≤ a.length) : List.replicate n 0 ≤ a := by
  induction n generalizing a with
  | zero => exact nil_le a
  | succ n ih =>
    cases a with
    | nil => exact absurd h (by simp)
    | cons x a =>
      have hrest : replicate n 0 ≤ a := ih (Nat.le_of_succ_le_succ h)
      rw [replicate_succ, cons_le_cons_iff]
      rcases eq_zero_or_pos x.toNat with hx | hx
      · exact .inr ⟨(UInt8.toNat_inj.mp hx).symm, hrest⟩
      · exact .inl (UInt8.lt_iff_toNat_lt.mpr hx)

/-! ### The scans -/

/-- The pairs whose keys have the prefix, in the order of the keys. -/
def Engine.scan (e : Engine) (start : Bytes) : List (Bytes × Bytes) :=
  ((e.entries.filter fun x => start.isPrefixOf x.1).map fun x => (x.1, x.2)).insertionSort
    fun x y => x.1 ≤ y.1

/-- The pairs whose keys lie in the range, in the order of the keys. -/
def Engine.rangeScan (e : Engine) (start stop : Bytes) : List (Bytes × Bytes) :=
  ((e.entries.filter fun x => inRange start stop x.1).map fun x => (x.1, x.2)).insertionSort
    fun x y => x.1 ≤ y.1

namespace Engine

variable {e : Engine}

theorem mem_filterSort {f : Bytes → Bool} :
    kv ∈ ((e.entries.filter fun x => f x.1).map fun x => (x.1, x.2)).insertionSort
      (fun x y : Bytes × Bytes => x.1 ≤ y.1) ↔ e.lookup kv.1 = some kv.2 ∧ f kv.1 = true := by
  rw [mem_insertionSort, mem_map]
  constructor
  · rintro ⟨x, hx, rfl⟩
    obtain ⟨hmem, hf⟩ := mem_filter.mp hx
    exact ⟨AList.mem_lookup_iff.mpr hmem, hf⟩
  · rintro ⟨hlookup, hf⟩
    exact ⟨⟨kv.1, kv.2⟩, mem_filter.mpr ⟨AList.mem_lookup_iff.mp hlookup, hf⟩, rfl⟩

theorem mem_scan : kv ∈ e.scan start ↔ e.lookup kv.1 = some kv.2 ∧ start <+: kv.1 := by
  rw [scan, mem_filterSort, isPrefixOf_iff_prefix]

theorem mem_rangeScan : kv ∈ e.rangeScan start stop ↔
      e.lookup kv.1 = some kv.2 ∧ inRange start stop kv.1 = true := by
  rw [rangeScan, mem_filterSort]

theorem mem_of_mem_scan (h : kv ∈ e.scan start) : kv.1 ∈ e :=
  AList.lookup_isSome.mp (by rw [(mem_scan.mp h).1]; rfl)

theorem exists_mem_scan_iff {key : Bytes} :
    (∃ kv ∈ e.scan start, key = kv.1) ↔ key ∈ e ∧ start <+: key := by
  constructor
  · rintro ⟨kv, hkv, rfl⟩
    exact ⟨mem_of_mem_scan hkv, (mem_scan.mp hkv).2⟩
  · rintro ⟨hkey, hstart⟩
    obtain ⟨val, hval⟩ := Option.isSome_iff_exists.mp (AList.lookup_isSome.mpr hkey)
    exact ⟨(key, val), mem_scan.mpr ⟨hval, hstart⟩, rfl⟩

theorem pairwise_scan (e : Engine) (start : Bytes) :
    (e.scan start).Pairwise fun x y => x.1 < y.1 := by
  have hle : (e.scan start).Pairwise fun x y => x.1 ≤ y.1 := by
    exact pairwise_insertionSort _ _
  have hkeys : (e.scan start).Pairwise fun x y => x.1 ≠ y.1 := by
    have hperm := perm_insertionSort (fun x y : Bytes × Bytes => x.1 ≤ y.1)
      ((e.entries.filter fun x => start.isPrefixOf x.1).map fun x => (x.1, x.2))
    refine (hperm.pairwise_iff fun h => h.symm).mpr ?_
    rw [pairwise_map]
    have hnodup := e.nodupKeys
    rw [nodupKeys_iff_pairwise] at hnodup
    exact hnodup.sublist filter_sublist
  refine (hle.and hkeys).imp fun {x y} h => ?_
  rcases List.le_iff_lt_or_eq.mp h.1 with hlt | heq
  · exact hlt
  · exact absurd heq h.2

theorem eq_of_pairwise {xs : List (Bytes × Bytes)} (hxs : xs.Pairwise fun x y => x.1 < y.1)
    (hys : ys.Pairwise fun x y => x.1 < y.1) (h : ∀ kv, kv ∈ xs ↔ kv ∈ ys) : xs = ys := by
  have hne {zs : List (Bytes × Bytes)} (hzs : zs.Pairwise fun x y => x.1 < y.1) : zs.Nodup := by
    refine hzs.imp fun {x y} hlt heq => ?_
    rw [heq] at hlt
    exact List.lt_irrefl _ hlt
  have hperm : xs.Perm ys := (perm_ext_iff_of_nodup (hne hxs) (hne hys)).mpr h
  refine hperm.eq_of_pairwise (fun x y _ _ hxy hyx => ?_) hxs hys
  exact absurd hyx (List.lt_asymm hxy)

/-- **A scan with a longer prefix is a part of the scan.** -/
theorem filter_scan (e : Engine) {q : Bytes} (h : p <+: q) :
    (e.scan p).filter (fun kv => q.isPrefixOf kv.1) = e.scan q := by
  refine eq_of_pairwise ((e.pairwise_scan p).sublist filter_sublist) (e.pairwise_scan q) ?_
  intro kv
  rw [mem_filter, mem_scan, mem_scan, isPrefixOf_iff_prefix]
  constructor
  · rintro ⟨⟨hlookup, -⟩, hq⟩
    exact ⟨hlookup, hq⟩
  · rintro ⟨hlookup, hq⟩
    exact ⟨⟨hlookup, h.trans hq⟩, hq⟩

end Engine

end K2Graph.Kvstore
