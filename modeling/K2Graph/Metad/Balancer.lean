import K2Graph.Lib.Loads
import Mathlib.Data.List.Sort

/-!
# The balancer

`Balancer::balanceParts` moves parts from the host with the most to the host with the fewest
until the loads are even.

The order that `std::sort` gives to hosts with the same load and the shuffle at the end are
open.  They are arguments, and nothing is assumed of them but that they are permutations, and
sorted where the library sorts.

The average load is the exact quotient.  A failed `CHECK` ends the process.
-/

namespace K2Graph.Metad

structure HostAddr where
  ip : Int32
  port : Int32
  deriving DecidableEq

abbrev HostParts := AList fun _ : HostAddr => List Int32

/-- `BalanceTask`, without its progress. -/
structure BalanceTask where
  balanceId : Int64
  spaceId : Int32
  partId : Int32
  src : HostAddr
  dst : HostAddr
  deriving DecidableEq

/-! ### What is open -/

/-- What `std::sort` may make of hosts with their loads. -/
structure HostOrder where
  sort : List (HostAddr × ℕ) → List (HostAddr × ℕ)
  perm : ∀ hosts, (sort hosts).Perm hosts
  sorted : ∀ hosts, (sort hosts).Pairwise fun l r => l.2 ≤ r.2

/-- What the library leaves open.  A sort is told apart from the others by the number of
tasks that are planned at that time. -/
structure Choices where
  order : ℕ → HostOrder
  /-- `std::shuffle`. -/
  shuffle : List BalanceTask → List BalanceTask
  shuffle_perm : ∀ tasks, (shuffle tasks).Perm tasks

/-- How planning stops. -/
inductive Stop
  /-- A `CHECK` fails. -/
  | fatal
  /-- The loop goes on. -/
  | outOfFuel

/-! ### Making the loads even -/

/-- `std::sort` of parts. -/
def sortParts (parts : List Int32) : List Int32 := parts.insertionSort (· ≤ ·)

/-- The steps of `std::set_difference` until the first range is left behind by one element;
`rest` is what follows then. -/
def differenceStep (x : Int32) (xs : List Int32) (rest : List Int32 → List Int32) :
    List Int32 → List Int32
  | [] => x :: xs
  | y :: ys =>
      if x < y then x :: rest (y :: ys)
      else if y < x then differenceStep x xs rest ys
      else rest ys

/-- `std::set_difference` of sorted ranges. -/
def setDifference : List Int32 → List Int32 → List Int32
  | [] => fun _ => []
  | x :: xs => differenceStep x xs (setDifference xs)

def sortedHostsByParts (order : HostOrder) (hostParts : HostParts) : List (HostAddr × ℕ) :=
  order.sort (hostParts.entries.map fun x => (x.1, x.2.length))

/-- The loop over the parts that one host holds and the other does not: the parts of both
afterwards, and those that moved. -/
def moveParts (minLoad maxLoad : ℕ) :
    List Int32 → List Int32 → List Int32 → Option (List Int32 × List Int32 × List Int32)
  | [], partsFrom, partsTo => some (partsFrom, partsTo, [])
  | partId :: diff, partsFrom, partsTo =>
      if partsFrom.length ≤ partsTo.length + 1 ∨ partsFrom.length ≤ minLoad ∨
          maxLoad ≤ partsTo.length then
        some (partsFrom, partsTo, [])
      else if partId ∈ partsFrom ∧ partId ∉ partsTo then
        (moveParts minLoad maxLoad diff (partsFrom.erase partId) (partsTo ++ [partId])).map
          fun r => (r.1, r.2.1, partId :: r.2.2)
      else none

/-- One round: parts move from one host to another. -/
def balanceRound (minLoad maxLoad : ℕ) (hostParts : HostParts) (src dst : HostAddr) :
    Option (HostParts × List Int32) :=
  let partsFrom := sortParts ((hostParts.lookup src).getD [])
  let partsTo := sortParts ((hostParts.lookup dst).getD [])
  (moveParts minLoad maxLoad (setDifference partsFrom partsTo) partsFrom partsTo).map fun r =>
    ((hostParts.insert src r.1).insert dst r.2.1, r.2.2)

/-- The hosts with the most and with the fewest parts. -/
def extremes (hosts : List (HostAddr × ℕ)) : Option ((HostAddr × ℕ) × (HostAddr × ℕ)) :=
  match hosts.getLast?, hosts.head? with
  | some maxPartsHost, some minPartsHost => some (maxPartsHost, minPartsHost)
  | _, _ => none

/-- The loop of `balanceParts`. -/
def balanceLoop (order : ℕ → HostOrder) (task : Int32 → HostAddr → HostAddr → BalanceTask)
    (total minLoad maxLoad : ℕ) : ℕ → HostParts → List BalanceTask →
      (HostAddr × ℕ) × (HostAddr × ℕ) → ℕ → Except Stop (HostParts × List BalanceTask)
  | 0, _, _, _, _ => .error .outOfFuel
  | fuel + 1, hostParts, tasks, (maxPartsHost, minPartsHost), lastDelta =>
      if maxLoad < maxPartsHost.2 ∨ minPartsHost.2 < minLoad ∨
          maxPartsHost.2 - minPartsHost.2 < lastDelta then
        -- `CHECK_GE(maxPartsHost.second, avgLoad)` and `CHECK_GE(avgLoad, minPartsHost.second)`
        if total ≤ maxPartsHost.2 * hostParts.keys.length ∧
            minPartsHost.2 * hostParts.keys.length ≤ total then
          match balanceRound minLoad maxLoad hostParts maxPartsHost.1 minPartsHost.1 with
          | none => .error .fatal
          | some (hostParts', []) => .ok (hostParts', tasks)
          | some (hostParts', moved) =>
              let tasks' := tasks ++ moved.map (task · maxPartsHost.1 minPartsHost.1)
              match extremes (sortedHostsByParts (order tasks'.length) hostParts') with
              | none => .error .fatal
              | some ends =>
                  balanceLoop order task total minLoad maxLoad fuel hostParts' tasks' ends
                    (maxPartsHost.2 - minPartsHost.2)
        else .error .fatal
      else .ok (hostParts, tasks)

variable (choices : Choices)

/-- `balanceParts`: where the parts are afterwards, and the tasks. -/
def balanceParts (balanceId : Int64) (spaceId : Int32) (fuel : ℕ) (newHostParts : HostParts)
    (totalParts : ℕ) (tasks : List BalanceTask) :
    Except Stop (HostParts × List BalanceTask) := do
  let minLoad := floorAvg totalParts newHostParts.keys.length
  let maxLoad := ceilAvg totalParts newHostParts.keys.length
  let hosts := sortedHostsByParts (choices.order tasks.length) newHostParts
  if hosts.length ≤ 1 then .error .fatal
  else
    match extremes hosts with
    | none => .error .fatal
    | some ends =>
        let (hostParts, planned) ← balanceLoop choices.order (.mk balanceId spaceId) totalParts
          minLoad maxLoad fuel newHostParts tasks ends (ends.1.2 - ends.2.2 + 1)
        return (hostParts, choices.shuffle planned)

end K2Graph.Metad
