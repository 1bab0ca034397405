import Mathlib.Algebra.Order.Ring.Nat
import Mathlib.Data.List.Basic

/-!
# Buckets of vertices

`QueryBaseProcessor::genBuckets` spreads the vertices of a request over buckets.  With fewer
than `2 ^ 31` vertices all its numbers are exact.

## Main results

* `genBuckets_spec` — every vertex is in one bucket, and the buckets are of about one size.
-/

namespace K2Graph.Storaged

open List

def getBucketsNum (verticesNum minVerticesPerBucket handlerNum : ℕ) : ℕ :=
  min (max 1 (verticesNum / minVerticesPerBucket)) handlerNum

/-- A vertex with its part. -/
abbrev PartVertex := Int32 × Int64

/-- The local variables of `genBuckets`. -/
structure Buckets where
  buckets : List (List PartVertex)
  bucketIndex : ℤ
  thresHold : ℕ

/-- The threshold of a bucket. -/
def room (vNumPerBucket leftVertices bucketIndex : ℕ) : ℕ :=
  if bucketIndex < leftVertices then vNumPerBucket + 1 else vNumPerBucket

namespace Buckets

/-- Goes on to the next bucket, if the one in use is full. -/
def advance (vNumPerBucket leftVertices : ℕ) (s : Buckets) : Buckets :=
  if s.bucketIndex < 0 ∨ s.thresHold ≤ (s.buckets[s.bucketIndex.toNat]?.getD []).length then
    ⟨s.buckets, s.bucketIndex + 1, room vNumPerBucket leftVertices (s.bucketIndex + 1).toNat⟩
  else s

/-- The rest of the loop, with `none` for a failed `CHECK_LT(bucketIndex, bucketsNum)`. -/
def emplace (v : PartVertex) (s : Buckets) : Option Buckets :=
  s.buckets[s.bucketIndex.toNat]?.map fun bucket =>
    { s with buckets := s.buckets.set s.bucketIndex.toNat (bucket ++ [v]) }

/-- The loop over the vertices. -/
def fill (vNumPerBucket leftVertices : ℕ) (s : Buckets) (vs : List PartVertex) : Option Buckets :=
  vs.foldlM (fun s v => (s.advance vNumPerBucket leftVertices).emplace v) s

end Buckets

/-- The vertices of a request, in the order of the loops. -/
def partVertices (parts : List (Int32 × List Int64)) : List PartVertex :=
  parts.flatMap fun pv => pv.2.map (pv.1, ·)

def genBuckets (minVerticesPerBucket maxHandlersPerReq : ℕ) (parts : List (Int32 × List Int64)) :
    Option (List (List PartVertex)) :=
  let verticesNum := (parts.map fun pv => pv.2.length).sum
  let bucketsNum := getBucketsNum verticesNum minVerticesPerBucket maxHandlersPerReq
  let vNumPerBucket := verticesNum / bucketsNum
  (Buckets.fill vNumPerBucket (verticesNum % bucketsNum)
    ⟨replicate bucketsNum [], -1, vNumPerBucket⟩ (partVertices parts)).map (·.buckets)

/-! ### How the buckets are filled -/

theorem room_bounds (per left n : ℕ) : per ≤ room per left n ∧ room per left n ≤ per + 1 := by
  rw [room]
  split_ifs <;> omega

/-- The room of the first buckets. -/
theorem sum_room (per left n : ℕ) :
    ((range n).map (room per left)).sum = n * per + min n left := by
  induction n with
  | zero => simp
  | succ n ih =>
    rw [range_succ, map_append, sum_append, ih, add_mul, map_singleton, sum_singleton, room]
    split_ifs <;> omega

namespace Buckets

variable {per left free n : ℕ} {full : List (List PartVertex)} {last vs : List PartVertex}

/-- The buckets before the last one in use are full, and those behind it are empty. -/
def filled (per left : ℕ) (full : List (List PartVertex)) (last : List PartVertex) (free : ℕ) :
    Buckets :=
  ⟨full ++ last :: replicate free [], full.length, room per left full.length⟩

theorem fill_cons (s : Buckets) (v : PartVertex) :
    s.fill per left (v :: vs) =
      ((s.advance per left).emplace v).bind fun s => s.fill per left vs := rfl

theorem emplace_filled (v : PartVertex) :
    (filled per left full last free).emplace v =
      some (filled per left full (last ++ [v]) free) := by
  simp [emplace, filled]

theorem advance_of_lt (h : last.length < room per left full.length) :
    (filled per left full last free).advance per left = filled per left full last free := by
  rw [advance, if_neg]
  simp [filled, h]

theorem advance_of_le (h : room per left full.length ≤ last.length) :
    (filled per left full last (free + 1)).advance per left =
      filled per left (full ++ [last]) [] free := by
  rw [advance, if_pos]
  · simp [filled, replicate_succ]
  · simp [filled, h]

theorem advance_start (per left free : ℕ) :
    advance per left ⟨replicate (free + 1) [], -1, per⟩ = filled per left [] [] free := by
  simp [advance, filled, replicate_succ]

/-- All buckets are full in the end, if there are as many vertices as there is room. -/
theorem fill_filled (hper : 0 < per)
    (hfull : full.map length = (range full.length).map (room per left))
    (hlast : last.length ≤ room per left full.length) (hn : n = full.length + 1 + free)
    (hsum : full.flatten.length + last.length + vs.length = n * per + min n left) :
    ∃ s, (filled per left full last free).fill per left vs = some s ∧
      s.buckets.flatten = full.flatten ++ last ++ vs ∧
      s.buckets.map length = (range n).map (room per left) := by
  induction vs generalizing full last free with
  | nil =>
    have hroom := sum_room per left (full.length + 1)
    have hfree := Nat.le_mul_of_pos_right free hper
    rw [range_succ, map_append, sum_append, ← hfull, ← length_flatten, map_singleton,
      sum_singleton] at hroom
    rw [hn, add_mul, length_nil] at hsum
    obtain rfl : free = 0 := by omega
    have hall : last.length = room per left full.length := by omega
    exact ⟨_, rfl, by simp [filled], by simp [filled, hn, hfull, hall, range_succ]⟩
  | cons v vs ih =>
    rw [length_cons] at hsum
    rw [fill_cons]
    rcases Nat.lt_or_ge last.length (room per left full.length) with hlt | hge
    · rw [advance_of_lt hlt, emplace_filled, Option.bind_some]
      have hmore : (last ++ [v]).length = last.length + 1 := length_append
      simpa using ih hfull (hmore.trans_le hlt) hn (by omega)
    · have hall : (full ++ [last]).map length =
          (range (full ++ [last]).length).map (room per left) := by
        simp [hfull, le_antisymm hlast hge, range_succ]
      have hlen : (full ++ [last]).flatten.length = full.flatten.length + last.length := by simp
      have hnext : (full ++ [last]).length = full.length + 1 := length_append
      cases free with
      | zero =>
        -- there is no room for another vertex
        rw [← hlen, length_flatten, hall, sum_room, hnext, ← hn] at hsum
        omega
      | succ free =>
        rw [advance_of_le hge, emplace_filled, Option.bind_some]
        have hsum' : (full ++ [last]).flatten.length + [v].length + vs.length =
            n * per + min n left := by
          rw [hlen, length_singleton]
          omega
        have hone : [v].length ≤ room per left (full ++ [last]).length :=
          hper.trans_le (room_bounds _ _ _).1
        simpa using ih hall hone (by omega) hsum'

theorem fill_start (hper : 0 < per) (hleft : left < n) (hsum : vs.length = n * per + left) :
    ∃ s, fill per left ⟨replicate n [], -1, per⟩ vs = some s ∧
      s.buckets.flatten = vs ∧ s.buckets.map length = (range n).map (room per left) := by
  obtain ⟨free, rfl⟩ := Nat.exists_eq_succ_of_ne_zero (Nat.ne_zero_of_lt hleft)
  cases vs with
  | nil =>
    rw [Nat.succ_mul, length_nil] at hsum
    omega
  | cons v vs =>
    rw [length_cons] at hsum
    rw [fill_cons, advance_start, emplace_filled, Option.bind_some]
    refine fill_filled hper rfl (hper.trans_le (room_bounds _ _ _).1) (Nat.succ_eq_one_add _) ?_
    rw [min_eq_right hleft.le, ← hsum]
    exact Nat.add_comm _ _

end Buckets

/-- **Every vertex is put in one bucket, and the buckets are of about one size.** -/
theorem genBuckets_spec (minVerticesPerBucket maxHandlersPerReq : ℕ) (h : 0 < maxHandlersPerReq)
    (parts : List (Int32 × List Int64)) :
    ∃ buckets, genBuckets minVerticesPerBucket maxHandlersPerReq parts = some buckets ∧
      buckets.flatten = partVertices parts ∧ buckets.length ≤ maxHandlersPerReq ∧
      ∀ a ∈ buckets, ∀ b ∈ buckets, a.length ≤ b.length + 1 := by
  have hsum : (parts.map fun pv => pv.2.length).sum = (partVertices parts).length := by
    simp [partVertices, length_flatMap]
  rw [genBuckets, hsum]
  generalize partVertices parts = vs
  have hdiv := Nat.div_le_self vs.length minVerticesPerBucket
  generalize hn : getBucketsNum vs.length minVerticesPerBucket maxHandlersPerReq = n
  rw [getBucketsNum] at hn
  obtain ⟨hpos, hle, hfew⟩ : 0 < n ∧ n ≤ maxHandlersPerReq ∧ n ≤ max 1 vs.length := by omega
  rcases Nat.eq_zero_or_pos vs.length with hzero | hsome
  · obtain rfl := length_eq_zero_iff.mp hzero
    exact ⟨_, rfl, by simp, by simpa using hle, by simp⟩
  · have hper : 0 < vs.length / n := Nat.div_pos (hfew.trans (max_le hsome le_rfl)) hpos
    obtain ⟨s, hs, hflat, hsizes⟩ :=
      Buckets.fill_start hper (Nat.mod_lt _ hpos) (Nat.div_add_mod vs.length n).symm
    have hlen := congrArg length hsizes
    rw [length_map, length_map, length_range] at hlen
    have hbounds : ∀ b ∈ s.buckets, vs.length / n ≤ b.length ∧ b.length ≤ vs.length / n + 1 := by
      intro b hb
      obtain ⟨i, -, hi⟩ := mem_map.mp (hsizes ▸ mem_map_of_mem hb)
      exact hi ▸ room_bounds _ _ i
    refine ⟨s.buckets, by rw [hs]; rfl, hflat, hlen.trans_le hle, fun a ha b hb => ?_⟩
    exact (hbounds a ha).2.trans (Nat.succ_le_succ (hbounds b hb).1)

theorem genBuckets_spec_three : ∃ buckets, genBuckets 1 2 [(1, [7, 8]), (2, [9])] = some buckets ∧
    buckets.flatten = [(1, 7), (1, 8), (2, 9)] := by
  obtain ⟨buckets, h, hflat, -⟩ := genBuckets_spec 1 2 (by decide) [(1, [7, 8]), (2, [9])]
  exact ⟨buckets, h, hflat⟩

end K2Graph.Storaged
