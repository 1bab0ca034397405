import Mathlib.Data.Int.CardIntervalMod
import K2Graph.Metad.Balancer

/-!
# The hosts of the parts of a new space

`CreateSpaceProcessor` gives a part the hosts from the position of its id on, modulo the
number of hosts.  The ids and the positions are `int32_t`s that are counted up, the last time
behind the last one that is used.

What comes before in `process`, whether the name is taken and the id of the space, is left out.

## Main results

* `placed_iff` — the hosts of a part are distinct, and no host gets many more parts than
  another, exactly if nothing overflows.
* `not_placed` — the largest number of parts.
-/

namespace K2Graph.Metad.CreateSpace

open List

/-- `CreateSpaceProcessor::pickHosts`, with the replicas that are left to pick; signed overflow
is `none`. -/
def pickHosts (hosts : List HostAddr) : (left startIndex : ℕ) → Option (List HostAddr)
  | 0, _ => some []
  | left + 1, startIndex =>
    if 2 ^ 31 ≤ startIndex + 1 then none
    else (pickHosts hosts left (startIndex + 1)).map
      ((hosts[startIndex % hosts.length]?).toList ++ ·)

/-- The loop over the parts, with those that are left. -/
def partHosts (hosts : List HostAddr) (replicaFactor : ℕ) :
    (left partId : ℕ) → Option (List (List HostAddr))
  | 0, _ => some []
  | left + 1, partId => do
    let picked ← pickHosts hosts replicaFactor partId
    if 2 ^ 31 ≤ partId + 1 then none
    else (partHosts hosts replicaFactor left (partId + 1)).map (picked :: ·)

/-- The flags of `CreateSpaceProcessor.cpp`. -/
structure Flags where
  defaultPartsNum : ℤ := 100
  defaultReplicaFactor : ℤ := 1

inductive Result
  | placed (parts : List (List HostAddr))
  | eNoHosts
  | eInvalidPartitionNum
  | eInvalidReplicaFactor
  | eUnsupported
  | undefined

/-- A number of the request, where 0 stands for the default. -/
def orDefault (number default_ : ℤ) : ℤ := if number = 0 then default_ else number

/-- `CreateSpaceProcessor::process`, from the active hosts on. -/
def process (flags : Flags) (hosts : List HostAddr) (partitionNum replicaFactor : ℤ) : Result :=
  let parts := orDefault partitionNum flags.defaultPartsNum
  let replicas := orDefault replicaFactor flags.defaultReplicaFactor
  if hosts = [] then .eNoHosts
  else if partitionNum = 0 ∧ parts ≤ 0 then .eInvalidPartitionNum
  else if replicaFactor = 0 ∧ replicas ≤ 0 then .eInvalidReplicaFactor
  else if (hosts.length : ℤ).bmod (2 ^ 32) < replicas then .eUnsupported
  else
    match partHosts hosts replicas.toNat parts.toNat 1 with
    | some placed => .placed placed
    | none => .undefined

/-! ### The loops -/

/-- The hosts from a position on. -/
def window (start : ℕ) (hosts : List HostAddr) (replicaFactor : ℕ) : List HostAddr :=
  (range replicaFactor).filterMap fun i => hosts[(start + i) % hosts.length]?

def windows (partitionNum : ℕ) (hosts : List HostAddr) (replicaFactor : ℕ) :
    List (List HostAddr) :=
  (range partitionNum).map fun i => window (i + 1) hosts replicaFactor

theorem pickHosts_eq (hosts : List HostAddr) (left start : ℕ) :
    pickHosts hosts left start =
      if left = 0 ∨ start + left < 2 ^ 31 then some (window start hosts left) else none := by
  induction left generalizing start with
  | zero => rfl
  | succ left ih =>
    have hwindow : window start hosts (left + 1) =
        (hosts[start % hosts.length]?).toList ++ window (start + 1) hosts left := by
      simp only [window, range_succ_eq_map, filterMap_cons, filterMap_map, add_zero]
      cases hosts[start % hosts.length]? <;> simp [add_assoc, add_comm 1]
    rw [pickHosts, ih, hwindow]
    by_cases h : start + (left + 1) < 2 ^ 31
    · rw [if_neg (by omega), if_pos (by omega), if_pos (.inr h)]
      rfl
    by_cases hnext : 2 ^ 31 ≤ start + 1
    · rw [if_pos hnext, if_neg (by omega)]
    · rw [if_neg hnext, if_neg (by omega), if_neg (by omega)]
      rfl

theorem partHosts_eq (hosts : List HostAddr) (hr : 0 < r) (left id : ℕ) :
    partHosts hosts r left id = if left = 0 ∨ id + left + r ≤ 2 ^ 31 then
      some ((range left).map fun i => window (id + i) hosts r) else none := by
  induction left generalizing id with
  | zero => rfl
  | succ left ih =>
    rw [partHosts, pickHosts_eq, range_succ_eq_map, map_cons, map_map]
    by_cases hfirst : id + r < 2 ^ 31
    · rw [if_pos (.inr hfirst)]
      simp only [Option.bind_eq_bind, Option.bind_some]
      rw [if_neg (by omega), ih]
      by_cases h : id + (left + 1) + r ≤ 2 ^ 31
      · rw [if_pos (by omega), if_pos (.inr h)]
        simp [Function.comp_def, add_assoc, add_comm 1]
      · rw [if_neg (by omega), if_neg (by omega)]
        rfl
    · rw [if_neg (by omega), if_neg (by omega)]
      rfl

/-- The number of replicas on a host. -/
def load (parts : List (List HostAddr)) (host : HostAddr) : ℕ := parts.flatten.count host

/-- How many of `m` consecutive numbers have a remainder. -/
theorem count_mod (hj : j < n) (a m : ℕ) :
    floorAvg m n ≤ m.count (fun i => (a + i) % n = j) ∧
      m.count (fun i => (a + i) % n = j) ≤ ceilAvg m n := by
  have hn : 0 < n := Nat.zero_lt_of_lt hj
  have hiff : ∀ i, (a + i) % n = j ↔ i ≡ j + (n - 1) * a [MOD n] := by
    intro i
    have hself : a + (n - 1) * a = n * a := by
      rw [Nat.sub_mul, one_mul, Nat.add_sub_cancel' (Nat.le_mul_of_pos_left a hn)]
    rw [← Nat.ModEq.add_iff_left (Nat.ModEq.refl a), ← add_assoc, add_comm a j, add_assoc, hself,
      Nat.ModEq, Nat.add_mul_mod_self_left, Nat.mod_eq_of_lt hj]
  have hdiv := Nat.div_add_mod' m n
  simp only [hiff, Nat.count_modEq_card m hn]
  refine ⟨Nat.le_add_right _ _, (Nat.le_div_iff_mul_le hn).mpr ?_⟩
  split_ifs with hlt
  · rw [add_mul]
    omega
  · rw [add_zero]
    omega

section Distinct

variable {hosts : List HostAddr} {j : ℕ} (hnodup : hosts.Nodup) (hj : hosts[j]? = some host)

theorem length_window (hr : r ≤ hosts.length) (partId : ℕ) :
    (window partId hosts r).length = r := by
  rw [window, length_filterMap_eq_countP, countP_eq_length.mpr, length_range]
  intro i hi
  have hlt : i < r := mem_range.mp hi
  simp [Nat.mod_lt _ (by omega : 0 < hosts.length)]

include hnodup hj

theorem count_window (partId r : ℕ) :
    (window partId hosts r).count host = r.count fun i => (partId + i) % hosts.length = j := by
  obtain ⟨hlt, heq⟩ := List.getElem?_eq_some_iff.mp hj
  induction r with
  | zero => rfl
  | succ r ih =>
    have hmod : (partId + r) % hosts.length < hosts.length := Nat.mod_lt _ (Nat.zero_lt_of_lt hlt)
    have hpick : window partId hosts (r + 1) =
        window partId hosts r ++ [hosts[(partId + r) % hosts.length]] := by
      simp [window, range_succ, filterMap_append, hmod]
    rw [hpick, count_append, ih, Nat.count_succ]
    simp [count_singleton, ← heq, hnodup.getElem_inj_iff]

/-- One replica more for each part. -/
theorem load_succ (P r : ℕ) :
    load (windows P hosts (r + 1)) host =
      load (windows P hosts r) host + P.count fun i => (r + 1 + i) % hosts.length = j := by
  induction P with
  | zero => rfl
  | succ P ih =>
    have hnext : ∀ r, load (windows (P + 1) hosts r) host =
        load (windows P hosts r) host + (window (P + 1) hosts r).count host := by
      simp [load, windows, range_succ]
    rw [hnext, hnext, ih, count_window hnodup hj, count_window hnodup hj, Nat.count_succ,
      Nat.count_succ, show P + 1 + r = r + 1 + P by omega]
    omega

theorem load_bounds (P r : ℕ) :
    r * floorAvg P hosts.length ≤ load (windows P hosts r) host ∧
      load (windows P hosts r) host ≤ r * ceilAvg P hosts.length := by
  induction r with
  | zero => simp [load, windows, window]
  | succ r ih =>
    have hlt := (List.getElem?_eq_some_iff.mp hj).1
    have hcount := count_mod hlt (r + 1) P
    rw [load_succ hnodup hj, add_mul, add_mul, one_mul, one_mul]
    exact ⟨Nat.add_le_add ih.1 hcount.1, Nat.add_le_add ih.2 hcount.2⟩

omit hj

theorem nodup_window (hr : r ≤ hosts.length) (partId : ℕ) :
    (window partId hosts r).Nodup := by
  refine nodup_iff_count_le_one.mpr fun host => ?_
  by_cases hmem : host ∈ window partId hosts r
  · obtain ⟨i, -, hi⟩ := mem_filterMap.mp hmem
    obtain ⟨hlt, -⟩ := List.getElem?_eq_some_iff.mp hi
    rw [count_window hnodup hi]
    refine (count_mod hlt partId r).2.trans (Nat.lt_succ_iff.mp ((Nat.div_lt_iff_lt_mul ?_).mpr ?_))
    · exact Nat.zero_lt_of_lt hlt
    · omega
  · rw [count_eq_zero_of_not_mem hmem]
    exact Nat.zero_le _

end Distinct

/-- **Every part gets as many distinct hosts as it has replicas, and the loads of any two hosts
differ by no more than that number.** -/
structure Balanced (hosts : List HostAddr) (P r : ℕ) (parts : List (List HostAddr)) : Prop where
  length : parts.length = P
  distinct : ∀ part ∈ parts, part.length = r ∧ part.Nodup ∧ part ⊆ hosts
  loads : ∀ host ∈ hosts, r * floorAvg P hosts.length ≤ load parts host ∧
    load parts host ≤ r * ceilAvg P hosts.length
  even : ∀ host ∈ hosts, ∀ host' ∈ hosts, load parts host ≤ load parts host' + r

theorem balanced_windows (hnodup : hosts.Nodup) (hr : r ≤ hosts.length) (P : ℕ) :
    Balanced hosts P r (windows P hosts r) := by
  have hload := fun host (hmem : host ∈ hosts) =>
    (mem_iff_getElem?.mp hmem).elim fun _ hj => load_bounds hnodup hj P r
  refine ⟨by simp [windows], ?_, hload, ?_⟩
  · intro part hpart
    obtain ⟨i, -, rfl⟩ := mem_map.mp hpart
    refine ⟨length_window hr _, nodup_window hnodup hr _, fun host hmem => ?_⟩
    obtain ⟨k, -, hk⟩ := mem_filterMap.mp hmem
    exact mem_of_getElem? hk
  · intro host hmem host' hmem'
    have hn : 0 < hosts.length := length_pos_of_mem hmem
    have hceil : ceilAvg P hosts.length ≤ floorAvg P hosts.length + 1 := by
      rw [floorAvg, ← Nat.add_div_right _ hn]
      exact Nat.div_le_div_right (Nat.sub_le _ _)
    have hmul := Nat.mul_le_mul_left r hceil
    rw [Nat.mul_succ] at hmul
    exact (hload host hmem).2.trans (hmul.trans (Nat.add_le_add_right (hload host' hmem').1 _))

theorem process_eq {partitionNum replicaFactor : ℤ} (hlen : hosts.length < 2 ^ 31)
    (hP : orDefault partitionNum flags.defaultPartsNum = (P : ℕ)) (hpos : 0 < P)
    (hR : orDefault replicaFactor flags.defaultReplicaFactor = (r : ℕ)) (hr : 0 < r)
    (hle : r ≤ hosts.length) :
    process flags hosts partitionNum replicaFactor =
      if P + r < 2 ^ 31 then .placed (windows P hosts r) else .undefined := by
  have hne : hosts ≠ [] := ne_nil_of_length_pos (by omega)
  have hcast : (hosts.length : ℤ).bmod (2 ^ 32) = hosts.length :=
    Int.bmod_eq_of_le (by omega) (by omega)
  simp only [process, if_neg hne, hP, hR, hcast]
  rw [if_neg (by omega), if_neg (by omega), if_neg (by omega), Int.toNat_natCast, Int.toNat_natCast,
    partHosts_eq hosts hr]
  simp only [windows, add_comm 1]
  split_ifs <;> first | omega | rfl

/-- **The parts are placed as they should be, exactly if no id and no position overflows.** -/
theorem placed_iff (flags : Flags) (hosts : List HostAddr) (hnodup : hosts.Nodup)
    (hlen : hosts.length < 2 ^ 31) (partitionNum replicaFactor : ℤ) (P r : ℕ)
    (hP : orDefault partitionNum flags.defaultPartsNum = P) (hpos : 0 < P)
    (hR : orDefault replicaFactor flags.defaultReplicaFactor = r) (hr : 0 < r)
    (hle : r ≤ hosts.length) :
    (∃ parts, process flags hosts partitionNum replicaFactor = .placed parts ∧
      Balanced hosts P r parts) ↔ P + r < 2 ^ 31 := by
  rw [process_eq hlen hP hpos hR hr hle]
  split_ifs with hfits
  · exact iff_of_true ⟨_, rfl, balanced_windows hnodup hle P⟩ hfits
  · refine iff_of_false ?_ hfits
    rintro ⟨parts, h, -⟩
    cases h

theorem placed_three : ∃ parts, process {} [⟨1, 1⟩, ⟨2, 1⟩, ⟨3, 1⟩] 7 0 = .placed parts ∧
    Balanced [⟨1, 1⟩, ⟨2, 1⟩, ⟨3, 1⟩] 7 1 parts :=
  (placed_iff {} _ (by decide) (by decide) 7 0 7 1 rfl (by decide) rfl (by decide)
    (by decide)).mpr (by decide)

/-- `2 ^ 31 - 1` parts are accepted, and the position behind the last one overflows. -/
theorem not_placed : process {} [⟨1, 1⟩] (2 ^ 31 - 1) 1 = .undefined := by
  rw [process_eq (P := 2 ^ 31 - 1) (r := 1) (by decide) rfl (by decide) rfl (by decide) (by decide)]
  exact if_neg (by decide)

end K2Graph.Metad.CreateSpace
