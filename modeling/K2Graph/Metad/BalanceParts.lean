import K2Graph.Metad.Balancer

/-!
# Making the loads even

The loop of `balanceParts` ends, no `CHECK` fails, and the loads differ from the average by
less than one.  As long as a load is off, the host with the most parts holds at least two
more than the host with the fewest, so there is a part to move; and with each part that moves,
the sum of the squares of the loads falls.

## Main results

* `balanceRound_spec` — one round.
* `exists_balanceLoop` — the loop, by induction on the sum of the squares.
* `balanceParts_converges` — **`balanceParts` makes the loads even.**
-/

namespace K2Graph.Metad

open List hiding not_lt
open AList

/-! ### Sorting and taking apart -/

theorem sortParts_perm (parts : List Int32) : (sortParts parts).Perm parts :=
  perm_insertionSort _ parts

theorem sortParts_strict (h : parts.Nodup) : (sortParts parts).Pairwise (· < ·) := by
  have hnodup := (sortParts_perm parts).nodup_iff.mpr h
  refine ((pairwise_insertionSort _ _).and hnodup).imp fun {x y} hxy => ?_
  exact Int32.lt_of_le_of_ne hxy.1 hxy.2

theorem setDifference_cons_cons (x y : Int32) (xs ys : List Int32) :
    setDifference (x :: xs) (y :: ys) =
      if x < y then x :: setDifference xs (y :: ys)
      else if y < x then setDifference (x :: xs) ys
      else setDifference xs ys := rfl

theorem notMem_of_lt {x y : Int32} (h : x < y) (hys : (y :: ys).Pairwise (· < ·)) :
    x ∉ y :: ys := by
  rw [mem_cons, not_or]
  exact ⟨Int32.ne_of_lt h, fun hmem => Int32.lt_asymm h ((pairwise_cons.mp hys).1 x hmem)⟩

/-- **The difference is what is in one range and not in the other.** -/
theorem setDifference_eq (hxs : xs.Pairwise (· < ·)) (hys : ys.Pairwise (· < ·)) :
    setDifference xs ys = xs.filter (· ∉ ys) := by
  induction xs generalizing ys with
  | nil => rfl
  | cons x xs ih =>
    obtain ⟨hx, hxs'⟩ := pairwise_cons.mp hxs
    induction ys with
    | nil => simp [setDifference, differenceStep]
    | cons y ys ih' =>
      have hys' := (pairwise_cons.mp hys).2
      rw [setDifference_cons_cons]
      split_ifs with h h'
      · rw [ih hxs' hys]
        exact (filter_cons_of_pos (by simpa using notMem_of_lt h hys)).symm
      · rw [ih' hys']
        refine filter_congr fun p hp => ?_
        have hne : p ≠ y := ne_of_mem_of_not_mem hp (notMem_of_lt h' hxs)
        simp [hne]
      · obtain rfl : x = y := Int32.le_antisymm (Int32.not_lt.mp h') (Int32.not_lt.mp h)
        rw [ih hxs' hys', filter_cons_of_neg (by simp)]
        refine filter_congr fun p hp => ?_
        have hne : p ≠ x := (Int32.ne_of_lt (hx p hp)).symm
        simp [hne]

/-! ### Moving parts -/

/-- No `CHECK` of the loop fails, and a first few of the parts move. -/
theorem exists_moveParts (minLoad maxLoad : ℕ) (hdiff : diff.Nodup)
    (hfrom : ∀ p ∈ diff, p ∈ partsFrom)
    (hto : ∀ p ∈ diff, p ∉ partsTo) :
    ∃ moved, moved <+: diff ∧ moveParts minLoad maxLoad diff partsFrom partsTo =
      some (partsFrom.diff moved, partsTo ++ moved, moved) := by
  induction diff generalizing partsFrom partsTo with
  | nil => exact ⟨[], nil_prefix, by rw [moveParts, diff_nil, append_nil]⟩
  | cons p diff ih =>
    obtain ⟨hp, hdiff⟩ := nodup_cons.mp hdiff
    rw [moveParts]
    split
    · exact ⟨[], nil_prefix, by rw [diff_nil, append_nil]⟩
    rw [if_pos ⟨hfrom p mem_cons_self, hto p mem_cons_self⟩]
    have hfrom' : ∀ q ∈ diff, q ∈ partsFrom.erase p := by
      intro q hq
      exact (mem_erase_of_ne (ne_of_mem_of_not_mem hq hp)).mpr (hfrom q (mem_cons_of_mem _ hq))
    have hto' : ∀ q ∈ diff, q ∉ partsTo ++ [p] := by
      intro q hq
      rw [mem_append, mem_singleton, not_or]
      exact ⟨hto q (mem_cons_of_mem _ hq), ne_of_mem_of_not_mem hq hp⟩
    obtain ⟨moved, hpre, heq⟩ := ih hdiff hfrom' hto'
    refine ⟨p :: moved, (prefix_cons_inj p).mpr hpre, ?_⟩
    rw [heq, Option.map_some, diff_cons, append_assoc, singleton_append]

theorem length_of_moveParts
    (h : moveParts minLoad maxLoad diff partsFrom partsTo = some (partsFrom', partsTo', moved))
    (hmoved : moved ≠ []) : partsTo.length + 2 * moved.length ≤ partsFrom.length := by
  induction diff generalizing partsFrom partsTo partsFrom' partsTo' moved with
  | nil =>
    cases h
    exact absurd rfl hmoved
  | cons p diff ih =>
    rw [moveParts] at h
    split at h
    · cases h
      exact absurd rfl hmoved
    split at h
    · rename_i hmem
      obtain ⟨⟨r, r', moved'⟩, hr, heq⟩ := Option.map_eq_some_iff.mp h
      obtain rfl : p :: moved' = moved := congrArg (·.2.2) heq
      have hlen : (partsFrom.erase p).length = partsFrom.length - 1 :=
        length_erase_of_mem hmem.1
      rw [length_cons]
      by_cases hnil : moved' = []
      · subst hnil
        simp only [length_nil]
        omega
      · have := ih hr hnil
        rw [length_append, length_singleton] at this
        omega
    · cases h

/-! ### One round -/

def HostParts.of (hostParts : HostParts) (host : HostAddr) : List Int32 :=
  (hostParts.lookup host).getD []

variable {hostParts : HostParts}

theorem HostParts.of_eq (h : hostParts.lookup host = some parts) : hostParts.of host = parts := by
  rw [of, h, Option.getD_some]

/-- No host holds a part twice. -/
def NoneTwice (hostParts : HostParts) : Prop :=
  ∀ host parts, hostParts.lookup host = some parts → parts.Nodup

/-- What a round does: some parts that one host holds and the other does not go from the
one to the other. -/
structure Moves (hostParts : HostParts) (src dst : HostAddr) (hostParts' : HostParts)
    (moved : List Int32) : Prop where
  nodup : moved.Nodup
  held : ∀ p ∈ moved, p ∈ hostParts.of src
  free : ∀ p ∈ moved, p ∉ hostParts.of dst
  taken : ∃ parts, hostParts'.lookup src = some parts ∧
    parts.Perm ((hostParts.of src).diff moved)
  given : ∃ parts, hostParts'.lookup dst = some parts ∧ parts.Perm (hostParts.of dst ++ moved)
  other : ∀ host, host ≠ src → host ≠ dst → hostParts'.lookup host = hostParts.lookup host

theorem balanceRound_spec (minLoad maxLoad : ℕ) (hnone : NoneTwice hostParts)
    (hsrc : src ∈ hostParts) (hdst : dst ∈ hostParts) (hne : src ≠ dst) :
    ∃ hostParts' moved, balanceRound minLoad maxLoad hostParts src dst = some (hostParts', moved) ∧
      Moves hostParts src dst hostParts' moved ∧
      (moved ≠ [] → (hostParts.of dst).length + 2 * moved.length ≤ (hostParts.of src).length) ∧
      ((hostParts.of dst).length + 2 ≤ (hostParts.of src).length →
        minLoad < (hostParts.of src).length → (hostParts.of dst).length < maxLoad →
          moved ≠ []) := by
  obtain ⟨partsFrom, hfrom⟩ := Option.isSome_iff_exists.mp (lookup_isSome.mpr hsrc)
  obtain ⟨partsTo, hto⟩ := Option.isSome_iff_exists.mp (lookup_isSome.mpr hdst)
  have hnodup := hnone _ _ hfrom
  have hnodup' := hnone _ _ hto
  rw [HostParts.of_eq hfrom, HostParts.of_eq hto]
  have hpermF := sortParts_perm partsFrom
  have hpermT := sortParts_perm partsTo
  have heq := setDifference_eq (sortParts_strict hnodup) (sortParts_strict hnodup')
  have hmem (p : Int32) : p ∈ setDifference (sortParts partsFrom) (sortParts partsTo) ↔
      p ∈ sortParts partsFrom ∧ p ∉ sortParts partsTo := by
    rw [heq, mem_filter, decide_eq_true_iff]
  have hdiff : (setDifference (sortParts partsFrom) (sortParts partsTo)).Nodup :=
    heq ▸ (hpermF.nodup_iff.mpr hnodup).filter _
  obtain ⟨moved, hpre, hmove⟩ := exists_moveParts minLoad maxLoad hdiff
    (fun p hp => ((hmem p).mp hp).1) (fun p hp => ((hmem p).mp hp).2)
  have hround : balanceRound minLoad maxLoad hostParts src dst =
      some ((hostParts.insert src ((sortParts partsFrom).diff moved)).insert dst
        (sortParts partsTo ++ moved), moved) := by
    rw [balanceRound]
    simp [hfrom, hto, hmove]
  refine ⟨_, moved, hround, ?_, ?_, ?_⟩
  · constructor
    · exact hdiff.sublist hpre.sublist
    · intro p hp
      rw [HostParts.of_eq hfrom]
      exact hpermF.mem_iff.mp ((hmem p).mp (hpre.subset hp)).1
    · intro p hp
      rw [HostParts.of_eq hto]
      exact fun h => ((hmem p).mp (hpre.subset hp)).2 (hpermT.mem_iff.mpr h)
    · refine ⟨_, (lookup_insert_ne hne).trans (lookup_insert _), ?_⟩
      rw [HostParts.of_eq hfrom]
      exact hpermF.diff_right moved
    · refine ⟨_, lookup_insert _, ?_⟩
      rw [HostParts.of_eq hto]
      exact hpermT.append_right moved
    · intro host h h'
      rw [lookup_insert_ne h', lookup_insert_ne h]
  · intro hmoved
    have := length_of_moveParts hmove hmoved
    rwa [hpermF.length_eq, hpermT.length_eq] at this
  · intro hgap hmin hmax
    rw [← hpermF.length_eq, ← hpermT.length_eq] at hgap
    rw [← hpermF.length_eq] at hmin
    rw [← hpermT.length_eq] at hmax
    cases hd : setDifference (sortParts partsFrom) (sortParts partsTo) with
    | nil =>
      -- if all parts were held by both, one could not hold more
      have hsub : sortParts partsFrom ⊆ sortParts partsTo := by
        intro p hp
        by_contra hnot
        have := (hmem p).mpr ⟨hp, hnot⟩
        rw [hd] at this
        cases this
      have := (subperm_of_subset (hpermF.nodup_iff.mpr hnodup) hsub).length_le
      omega
    | cons p diff =>
      rintro rfl
      rw [hd, moveParts, if_neg (by omega)] at hmove
      split at hmove
      · obtain ⟨r, -, heq⟩ := Option.map_eq_some_iff.mp hmove
        cases congrArg (·.2.2) heq
      · cases hmove

theorem HostParts.lookup_of (h : host ∈ hostParts) :
    hostParts.lookup host = some (hostParts.of host) := by
  obtain ⟨parts, hparts⟩ := Option.isSome_iff_exists.mp (lookup_isSome.mpr h)
  rw [of_eq hparts, hparts]

section

variable (h : Moves hostParts src dst hostParts' moved)
include h

theorem Moves.weight_eq (hsrc : src ∈ hostParts) (hdst : dst ∈ hostParts) (hne : src ≠ dst)
    (hf : ∀ {l l' : List Int32}, l.Perm l' → f l = f l') :
    weight f hostParts' + f (hostParts.of src) + f (hostParts.of dst) =
      weight f hostParts + f ((hostParts.of src).diff moved) + f (hostParts.of dst ++ moved) := by
  obtain ⟨partsFrom, hfrom, hpermF⟩ := h.taken
  obtain ⟨partsTo, hto, hpermT⟩ := h.given
  have hcongr : weight f hostParts' =
      weight f ((hostParts.insert src partsFrom).insert dst partsTo) := by
    refine weight_congr f fun host => ?_
    by_cases hd : host = dst
    · subst hd
      rw [hto, lookup_insert]
    rw [lookup_insert_ne hd]
    by_cases hs : host = src
    · subst hs
      rw [hfrom, lookup_insert]
    · rw [lookup_insert_ne hs, h.other host hs hd]
  have hfirst := weight_insert f (HostParts.lookup_of hsrc) partsFrom
  have hlookup : (hostParts.insert src partsFrom).lookup dst = some (hostParts.of dst) :=
    (lookup_insert_ne hne.symm).trans (HostParts.lookup_of hdst)
  have hsecond := weight_insert f hlookup partsTo
  rw [← hf hpermF, ← hf hpermT]
  omega

theorem Moves.mem_iff (hsrc : src ∈ hostParts) (hdst : dst ∈ hostParts) (host : HostAddr) :
    host ∈ hostParts' ↔ host ∈ hostParts := by
  rw [← lookup_isSome, ← lookup_isSome]
  by_cases hd : host = dst
  · subst hd
    obtain ⟨parts, hparts, -⟩ := h.given
    rw [hparts, HostParts.lookup_of hdst, Option.isSome_some, Option.isSome_some]
  by_cases hs : host = src
  · subst hs
    obtain ⟨parts, hparts, -⟩ := h.taken
    rw [hparts, HostParts.lookup_of hsrc, Option.isSome_some, Option.isSome_some]
  · rw [h.other host hs hd]

/-- What a host holds after the round. -/
theorem Moves.cases (hparts : hostParts'.lookup host = some parts) :
    parts.Perm (hostParts.of dst ++ moved) ∨ parts.Perm ((hostParts.of src).diff moved) ∨
      hostParts.lookup host = some parts := by
  by_cases hd : host = dst
  · subst hd
    obtain ⟨parts', hparts', hperm⟩ := h.given
    obtain rfl := Option.some.inj (hparts'.symm.trans hparts)
    exact .inl hperm
  by_cases hs : host = src
  · subst hs
    obtain ⟨parts', hparts', hperm⟩ := h.taken
    obtain rfl := Option.some.inj (hparts'.symm.trans hparts)
    exact .inr (.inl hperm)
  · exact .inr (.inr ((h.other host hs hd).symm.trans hparts))

theorem Moves.noneTwice (hnone : NoneTwice hostParts) (hsrc : src ∈ hostParts)
    (hdst : dst ∈ hostParts) : NoneTwice hostParts' := by
  intro host parts hparts
  rcases h.cases hparts with hperm | hperm | hparts
  · refine hperm.nodup_iff.mpr (nodup_append.mpr ⟨hnone _ _ (HostParts.lookup_of hdst), h.nodup,
      ?_⟩)
    rintro p hp q hq rfl
    exact h.free p hq hp
  · exact hperm.nodup_iff.mpr ((hnone _ _ (HostParts.lookup_of hsrc)).diff)
  · exact hnone host parts hparts

theorem Moves.perm_append :
    (moved ++ (hostParts.of src).diff moved).Perm (hostParts.of src) :=
  subperm_append_diff_self_of_count_le fun p hp => by
    rw [count_eq_one_of_mem h.nodup hp]
    exact count_pos_iff.mpr (h.held p hp)

end

/-! ### The hosts with the most and the fewest parts -/

/-- One host has the most and another one the fewest parts. -/
structure Ends (hostParts : HostParts) (ends : (HostAddr × ℕ) × (HostAddr × ℕ)) : Prop where
  max_mem : ends.1.1 ∈ hostParts
  min_mem : ends.2.1 ∈ hostParts
  ne : ends.1.1 ≠ ends.2.1
  max_eq : (hostParts.of ends.1.1).length = ends.1.2
  min_eq : (hostParts.of ends.2.1).length = ends.2.2
  le_max : ∀ host ∈ hostParts, (hostParts.of host).length ≤ ends.1.2
  min_le : ∀ host ∈ hostParts, ends.2.2 ≤ (hostParts.of host).length

theorem mem_map_entries (f : HostAddr → List Int32 → α) :
    a ∈ hostParts.entries.map (fun x => f x.1 x.2) ↔
      ∃ host ∈ hostParts, f host (hostParts.of host) = a := by
  rw [mem_map]
  constructor
  · rintro ⟨⟨host, parts⟩, hmem, rfl⟩
    have hparts : hostParts.lookup host = some parts := mem_lookup_iff.mpr hmem
    exact ⟨host, lookup_isSome.mp (by rw [hparts]; rfl), by rw [HostParts.of_eq hparts]⟩
  · rintro ⟨host, hmem, rfl⟩
    exact ⟨⟨host, hostParts.of host⟩, mem_lookup_iff.mp (HostParts.lookup_of hmem), rfl⟩

theorem mem_sortedHostsByParts : x ∈ sortedHostsByParts order hostParts ↔
      ∃ host ∈ hostParts, (host, (hostParts.of host).length) = x :=
  (order.perm _).mem_iff.trans (mem_map_entries fun host parts => (host, parts.length))

theorem length_sortedHostsByParts (order : HostOrder) (hostParts : HostParts) :
    (sortedHostsByParts order hostParts).length = hostParts.keys.length := by
  rw [sortedHostsByParts, (order.perm _).length_eq, length_map, AList.keys, List.keys, length_map]

theorem exists_extremes (order : HostOrder) (h : 2 ≤ hostParts.keys.length) :
    ∃ ends, extremes (sortedHostsByParts order hostParts) = some ends ∧ Ends hostParts ends := by
  have hlen := length_sortedHostsByParts order hostParts
  have hsorted := order.sorted (hostParts.entries.map fun x => (x.1, x.2.length))
  have hnodup : ((sortedHostsByParts order hostParts).map Prod.fst).Nodup := by
    refine ((order.perm _).map Prod.fst).nodup_iff.mpr ?_
    rw [map_map]
    exact hostParts.keys_nodup
  have hmem (x : HostAddr × ℕ) :
    x ∈ sortedHostsByParts order hostParts ↔ _ := mem_sortedHostsByParts
  rw [← sortedHostsByParts] at hsorted
  generalize sortedHostsByParts order hostParts = hosts at *
  -- at least two hosts: a first one and a last one
  obtain ⟨first, mid, last, rfl⟩ : ∃ first mid last, hosts = first :: (mid ++ [last]) := by
    match hosts with
    | [] | [_] => simp at hlen; omega
    | x :: y :: rest =>
      exact ⟨x, (y :: rest).dropLast, (y :: rest).getLast (by simp),
        by rw [dropLast_append_getLast]⟩
  obtain ⟨hfirst, hrest⟩ := pairwise_cons.mp hsorted
  have hlast : ∀ x ∈ mid, x.2 ≤ last.2 := fun x hx =>
    (pairwise_append.mp hrest).2.2 x hx last (mem_singleton.mpr rfl)
  have hfl : first.2 ≤ last.2 := hfirst last (by simp)
  have hall : ∀ x ∈ first :: (mid ++ [last]), first.2 ≤ x.2 ∧ x.2 ≤ last.2 := by
    rw [forall_mem_cons, forall_mem_append, forall_mem_singleton]
    exact ⟨⟨le_rfl, hfl⟩, fun x hx => ⟨hfirst x (mem_append_left _ hx), hlast x hx⟩, hfl, le_rfl⟩
  obtain ⟨_, hmax, rfl⟩ := (hmem last).mp (by simp)
  obtain ⟨_, hmin, rfl⟩ := (hmem first).mp (by simp)
  refine ⟨(_, _), ?_, ⟨hmax, hmin, ?_, rfl, rfl,
    fun host hhost => (hall _ ((hmem _).mpr ⟨host, hhost, rfl⟩)).2,
    fun host hhost => (hall _ ((hmem _).mpr ⟨host, hhost, rfl⟩)).1⟩⟩
  · rw [extremes, head?_cons, ← cons_append, getLast?_concat]
  · rw [map_cons, nodup_cons] at hnodup
    intro heq
    refine hnodup.1 (mem_map.mpr ⟨_, by simp, heq⟩)

/-! ### The loop -/

/-- What the loop keeps: the hosts, the number of replicas of each part, and that no host
holds a part twice. -/
structure Keeps (hostParts hostParts' : HostParts) : Prop where
  hosts : ∀ host, host ∈ hostParts' ↔ host ∈ hostParts
  noneTwice : NoneTwice hostParts'
  replicas : ∀ p, weight (List.count p) hostParts' = weight (List.count p) hostParts
  total : weight List.length hostParts' = weight List.length hostParts

/-- The loads are even. -/
def Even (hostParts : HostParts) (totalParts : ℕ) : Prop :=
  ∀ host parts, hostParts.lookup host = some parts →
    floorAvg totalParts hostParts.keys.length ≤ parts.length ∧
      parts.length ≤ ceilAvg totalParts hostParts.keys.length

theorem length_keys_of_mem_iff {hostParts' : HostParts}
    (h : ∀ host, host ∈ hostParts' ↔ host ∈ hostParts) :
    hostParts'.keys.length = hostParts.keys.length := by
  refine ((perm_ext_iff_of_nodup hostParts'.keys_nodup hostParts.keys_nodup).mpr ?_).length_eq
  intro host
  rw [← AList.mem_keys, ← AList.mem_keys, h]

theorem Ends.even (h : Ends hostParts ends)
    (hmax : ends.1.2 ≤ ceilAvg totalParts hostParts.keys.length)
    (hmin : floorAvg totalParts hostParts.keys.length ≤ ends.2.2) : Even hostParts totalParts := by
  intro host parts hparts
  have hmem : host ∈ hostParts := lookup_isSome.mp (by rw [hparts]; rfl)
  have hle := h.le_max host hmem
  have hge := h.min_le host hmem
  rw [HostParts.of_eq hparts] at hle hge
  exact ⟨hmin.trans hge, hle.trans hmax⟩

section Loads

variable {hostParts : HostParts}

def loads (hostParts : HostParts) : List ℕ := hostParts.entries.map fun x => x.2.length

theorem length_loads (hostParts : HostParts) :
    (loads hostParts).length = hostParts.keys.length := by
  rw [loads, length_map, AList.keys, List.keys, length_map]

theorem mem_loads : n ∈ loads hostParts ↔ ∃ host ∈ hostParts, (hostParts.of host).length = n :=
  mem_map_entries fun _ parts => parts.length

variable (h : Ends hostParts ends)
include h

theorem Ends.max_mem_loads : ends.1.2 ∈ loads hostParts :=
  mem_loads.mpr ⟨_, h.max_mem, h.max_eq⟩

theorem Ends.le_of_mem_loads (hn : n ∈ loads hostParts) : n ≤ ends.1.2 := by
  obtain ⟨host, hhost, rfl⟩ := mem_loads.mp hn
  exact h.le_max host hhost

theorem Ends.ge_of_mem_loads (hn : n ∈ loads hostParts) : ends.2.2 ≤ n := by
  obtain ⟨host, hhost, rfl⟩ := mem_loads.mp hn
  exact h.min_le host hhost

theorem Ends.checks : weight List.length hostParts ≤ ends.1.2 * hostParts.keys.length ∧
      ends.2.2 * hostParts.keys.length ≤ weight List.length hostParts := by
  have habove := sum_le_of_forall_le (fun n => h.le_of_mem_loads) h.max_mem_loads
  have hbelow := le_sum_of_forall_le (fun n => h.ge_of_mem_loads) h.max_mem_loads
  rw [length_loads] at habove hbelow
  rw [mul_comm, mul_comm ends.2.2]
  exact ⟨(Nat.le_add_right _ _).trans habove, (Nat.le_add_right _ _).trans hbelow⟩

/-- While the loads are not even, there is something to move. -/
theorem Ends.gap (hoff : ceilAvg (weight List.length hostParts) hostParts.keys.length < ends.1.2 ∨
      ends.2.2 < floorAvg (weight List.length hostParts) hostParts.keys.length) :
    ends.2.2 + 2 ≤ ends.1.2 ∧
      floorAvg (weight List.length hostParts) hostParts.keys.length < ends.1.2 ∧
      ends.2.2 < ceilAvg (weight List.length hostParts) hostParts.keys.length := by
  rw [← length_loads] at hoff ⊢
  exact gap_of_unbalanced (fun n => h.ge_of_mem_loads) (fun n => h.le_of_mem_loads)
    (mem_loads.mpr ⟨_, h.min_mem, h.min_eq⟩) h.max_mem_loads hoff

end Loads

def squares (hostParts : HostParts) : ℕ := weight (fun parts => parts.length ^ 2) hostParts

section

variable (h : Moves hostParts src dst hostParts' moved)
include h

theorem Moves.length_diff :
    moved.length + ((hostParts.of src).diff moved).length = (hostParts.of src).length := by
  rw [← length_append, h.perm_append.length_eq]

theorem Moves.keeps (hnone : NoneTwice hostParts) (hsrc : src ∈ hostParts) (hdst : dst ∈ hostParts)
    (hne : src ≠ dst) :
    Keeps hostParts hostParts' where
  hosts := h.mem_iff hsrc hdst
  noneTwice := h.noneTwice hnone hsrc hdst
  replicas p := by
    have hweight := h.weight_eq hsrc hdst hne fun hperm => hperm.count_eq p
    have hcount := h.perm_append.count_eq p
    rw [count_append] at hweight hcount
    omega
  total := by
    have hweight := h.weight_eq hsrc hdst hne fun hperm => hperm.length_eq
    have hlen := h.length_diff
    rw [length_append] at hweight
    omega

theorem Moves.squares_lt (hsrc : src ∈ hostParts) (hdst : dst ∈ hostParts) (hne : src ≠ dst)
    (hmoved : moved ≠ [])
    (hlen : (hostParts.of dst).length + 2 * moved.length ≤ (hostParts.of src).length) :
    squares hostParts' < squares hostParts := by
  have hweight := h.weight_eq hsrc hdst hne (f := fun parts => parts.length ^ 2)
    fun hperm => by rw [hperm.length_eq]
  have hdiff := h.length_diff
  have hpos : 0 < moved.length := length_pos_iff.mpr hmoved
  rw [length_append] at hweight
  rw [squares, squares]
  generalize ((hostParts.of src).diff moved).length = a at *
  obtain ⟨c, hc⟩ := Nat.exists_eq_add_of_le hlen
  rw [← hdiff] at hc hweight
  generalize (hostParts.of dst).length = t at *
  generalize moved.length = m at *
  obtain rfl : a = t + m + c := by omega
  have hsquares : (m + (t + m + c)) ^ 2 + t ^ 2 =
      (t + m + c) ^ 2 + (t + m) ^ 2 + 2 * (m * (m + c)) := by ring
  have hfall : 0 < m * (m + c) := mul_pos hpos (by omega)
  omega

end

theorem Moves.even_of_nil (h : Moves hostParts src dst hostParts' [])
    (hkeeps : Keeps hostParts hostParts') (hsrc : src ∈ hostParts) (hdst : dst ∈ hostParts)
    (heven : Even hostParts totalParts) : Even hostParts' totalParts := by
  intro host parts hparts
  rw [length_keys_of_mem_iff hkeeps.hosts]
  rcases h.cases hparts with hperm | hperm | hparts
  · rw [hperm.length_eq, append_nil]
    exact heven _ _ (HostParts.lookup_of hdst)
  · rw [hperm.length_eq]
    exact heven _ _ (HostParts.lookup_of hsrc)
  · exact heven host parts hparts

theorem Keeps.trans (h : Keeps hostParts hostParts') (h' : Keeps hostParts' hostParts'') :
    Keeps hostParts hostParts'' where
  hosts host := (h'.hosts host).trans (h.hosts host)
  noneTwice := h'.noneTwice
  replicas p := (h'.replicas p).trans (h.replicas p)
  total := h'.total.trans h.total

/-- **The loop ends with even loads**, whatever the order of hosts with the same load. -/
theorem exists_balanceLoop (order : ℕ → HostOrder)
    (task : Int32 → HostAddr → HostAddr → BalanceTask) (hn : 2 ≤ n) :
    ∀ {hostParts : HostParts} (tasks : List BalanceTask) (lastDelta : ℕ)
      {ends : (HostAddr × ℕ) × (HostAddr × ℕ)},
      Ends hostParts ends → NoneTwice hostParts → hostParts.keys.length = n →
      weight List.length hostParts = total →
      ∃ hostParts' tasks', Keeps hostParts hostParts' ∧ Even hostParts' total ∧
        ∀ fuel, squares hostParts < fuel →
          balanceLoop order task total (floorAvg total n)
            (ceilAvg total n) fuel hostParts tasks ends
            lastDelta = .ok (hostParts', tasks') := by
  intro hostParts
  induction hsq : squares hostParts using Nat.strong_induction_on generalizing hostParts with
  | _ m ih =>
  intro tasks lastDelta ends hends hnone hkeys htotal
  obtain ⟨hostParts', moved, hround, hmoves, hlen, hact⟩ := balanceRound_spec
    (floorAvg total n) (ceilAvg total n) hnone hends.max_mem hends.min_mem hends.ne
  have hkeeps := hmoves.keeps hnone hends.max_mem hends.min_mem hends.ne
  rw [hends.max_eq, hends.min_eq] at hlen hact
  have hchecks := hends.checks
  rw [htotal] at hchecks
  -- one round of the loop, as soon as there is fuel
  have hloop (fuel : ℕ) (hfuel : m < fuel) : ∃ fuel', fuel = fuel' + 1 := ⟨fuel - 1, by omega⟩
  by_cases hcond : ceilAvg total n < ends.1.2 ∨ ends.2.2 < floorAvg total n ∨
      ends.1.2 - ends.2.2 < lastDelta
  · by_cases hnil : moved = []
    · -- nothing moves, so nothing is off
      subst hnil
      have hbal : ¬ (ceilAvg total n < ends.1.2 ∨ ends.2.2 < floorAvg total n) := by
        intro hoff
        have hgap := hends.gap (by rwa [htotal, hkeys])
        rw [htotal, hkeys] at hgap
        exact hact hgap.1 hgap.2.1 hgap.2.2 rfl
      have heven : Even hostParts total := by
        refine hends.even ?_ ?_ <;> rw [hkeys] <;> omega
      refine ⟨hostParts', tasks, hkeeps,
        hmoves.even_of_nil hkeeps hends.max_mem hends.min_mem heven, fun fuel hfuel => ?_⟩
      obtain ⟨fuel, rfl⟩ := hloop fuel hfuel
      rw [balanceLoop, if_pos hcond, if_pos hchecks, hround]
    · have hkeys' := (length_keys_of_mem_iff hkeeps.hosts).trans hkeys
      have hlt := hmoves.squares_lt hends.max_mem hends.min_mem hends.ne hnil
        (by rw [hends.max_eq, hends.min_eq]; exact hlen hnil)
      obtain ⟨ends', hextremes, hends'⟩ := exists_extremes
        (order (tasks ++ moved.map (task · ends.1.1 ends.2.1)).length) (hkeys'.symm ▸ hn)
      obtain ⟨hostParts'', tasks'', hkeeps', heven, hrun⟩ := ih _ (hsq ▸ hlt) rfl
        (tasks ++ moved.map (task · ends.1.1 ends.2.1))
          (ends.1.2 - ends.2.2) hends' hkeeps.noneTwice hkeys' (hkeeps.total.trans htotal)
      refine ⟨hostParts'', tasks'', hkeeps.trans hkeeps', heven, fun fuel hfuel => ?_⟩
      obtain ⟨fuel, rfl⟩ := hloop fuel hfuel
      rw [balanceLoop, if_pos hcond, if_pos hchecks, hround]
      simp only [hextremes]
      exact hrun fuel (by omega)
  · simp only [not_or, not_lt] at hcond
    refine ⟨hostParts, tasks, ⟨fun _ => Iff.rfl, hnone, fun _ => rfl, rfl⟩,
      hends.even (by rw [hkeys]; exact hcond.1) (by rw [hkeys]; exact hcond.2.1),
        fun fuel hfuel => ?_⟩
    obtain ⟨fuel, rfl⟩ := hloop fuel hfuel
    rw [balanceLoop, if_neg]
    omega

/-! ### Convergence -/

/-- **`balanceParts` ends and no `CHECK` fails.  The loads are even afterwards, each part
has as many replicas as before, and no host holds a part twice.** -/
theorem balanceParts_converges (choices : Choices) (balanceId : Int64) (spaceId : Int32)
    {hostParts : HostParts} {totalParts : ℕ} (tasks : List BalanceTask)
    (hhosts : 2 ≤ hostParts.keys.length) (hnone : NoneTwice hostParts)
    (htotal : weight List.length hostParts = totalParts) :
    ∃ fuel hostParts' tasks', (∀ fuel' ≥ fuel,
        balanceParts choices balanceId spaceId fuel' hostParts totalParts tasks =
          .ok (hostParts', tasks')) ∧
      (∀ host, host ∈ hostParts' ↔ host ∈ hostParts) ∧
      Even hostParts' totalParts ∧ NoneTwice hostParts' ∧
      ∀ p, weight (List.count p) hostParts' = weight (List.count p) hostParts := by
  obtain ⟨ends, hextremes, hends⟩ := exists_extremes (choices.order tasks.length) hhosts
  obtain ⟨hostParts', tasks', hkeeps, heven, hrun⟩ := exists_balanceLoop choices.order
    (.mk balanceId spaceId) hhosts tasks (ends.1.2 - ends.2.2 + 1) hends hnone rfl htotal
  refine ⟨squares hostParts + 1, hostParts', choices.shuffle tasks', fun fuel hfuel => ?_,
    hkeeps.hosts, heven, hkeeps.noneTwice, hkeeps.replicas⟩
  have hlen : ¬ (sortedHostsByParts (choices.order tasks.length) hostParts).length ≤ 1 := by
    rw [length_sortedHostsByParts]
    omega
  rw [balanceParts]
  simp only [if_neg hlen, hextremes, hrun fuel hfuel]
  rfl

/-- Hosts with the same load stay in their order, and nothing is shuffled. -/
def Choices.stable : Choices where
  order _ :=
    { sort := fun hosts => hosts.insertionSort fun l r => l.2 ≤ r.2
      perm := fun hosts => perm_insertionSort _ hosts
      sorted := fun hosts => by
        have htotal : Std.Total fun l r :
          HostAddr × ℕ => l.2 ≤ r.2 := ⟨fun l r => Nat.le_total l.2 r.2⟩
        have htrans : IsTrans (HostAddr × ℕ) fun l r => l.2 ≤ r.2 := ⟨fun _ _ _ => Nat.le_trans⟩
        exact pairwise_insertionSort _ hosts }
  shuffle := id
  shuffle_perm _ := List.Perm.refl _

/-- Three parts on one host, and two hosts that have none. -/
def oneLoaded : HostParts := [⟨⟨1, 1⟩, [1, 2, 3]⟩, ⟨⟨2, 1⟩, []⟩, ⟨⟨3, 1⟩, []⟩].toAList

theorem oneLoaded_converges :
    ∃ fuel hostParts' tasks', (∀ fuel' ≥ fuel,
        balanceParts .stable 1 1 fuel' oneLoaded 3 [] = .ok (hostParts', tasks')) ∧
      (∀ host, host ∈ hostParts' ↔ host ∈ oneLoaded) ∧
      Even hostParts' 3 ∧ NoneTwice hostParts' ∧
      ∀ p, weight (List.count p) hostParts' = weight (List.count p) oneLoaded := by
  have hnodup : ∀ x ∈ oneLoaded.entries, x.2.Nodup := by decide
  exact balanceParts_converges .stable 1 1 [] (by decide)
    (fun _ _ hparts => hnodup _ (mem_lookup_iff.mp hparts)) rfl

end K2Graph.Metad
