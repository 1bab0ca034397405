import K2Graph.Metad.Balancer

/-!
# Retrying an admin request

`AdminClient::getResponse` sends a request to a host, and again to the next host or to the
leader it is told of, until there is an answer without failed codes or no try is left.

## Main results

* `getResponse_spec` — the requests are at most one more than the retries, each goes to a host
  of the list, and the promise is fulfilled once, after them.
-/

namespace K2Graph.Metad.AdminClient

/-- What `getResponse` gets to see: no failed codes, an exception of the call, or the first
failed code, with the leader it names. -/
inductive Answer
  | ok
  | exception
  | leaderChanged (leader : Option HostAddr)
  | otherCode
  deriving DecidableEq

inductive Status
  | ok
  | rpcFailure
  | leaderChanged
  | unknownCode
  deriving DecidableEq

/-- The status when no try is left. -/
def status : Answer → Status
  | .exception => .rpcFailure
  | .ok => .ok
  | .leaderChanged _ => .leaderChanged
  | .otherCode => .unknownCode

inductive Event
  | request (hosts : List HostAddr) (index : ℕ)
  | setValue (status : Status)
  /-- `CHECK_LT(index, hosts.size())`. -/
  | checkFailed

def nextHost (hosts : List HostAddr) (index : ℕ) : Answer → List HostAddr × ℕ
  | .leaderChanged (.some leader) =>
      if leader ∈ hosts then (hosts, hosts.idxOf leader) else (hosts ++ [leader], hosts.length)
  | _ => (hosts, (index + 1) % hosts.length)

/-- The hosts and the index of the next try.  No leader is known while there is an election. -/
def next (hosts : List HostAddr) (index : ℕ) (answer : Answer) : List HostAddr × ℕ :=
  nextHost hosts index
    (if answer = .leaderChanged (some ⟨0, 0⟩) then .leaderChanged none else answer)

/-- `AdminClient::getResponse`, when each host answers each try as `respond` says. -/
def getResponse (respond : HostAddr → ℕ → Answer) (retryLimit : ℤ) (hosts : List HostAddr)
    (index retry : ℕ) : List Event :=
  match hosts[index]? with
  | none => [.checkFailed]
  | some host =>
      if respond host retry = .ok ∨ retryLimit ≤ retry then
        [.request hosts index, .setValue (status (respond host retry))]
      else
        .request hosts index ::
          getResponse respond retryLimit (next hosts index (respond host retry)).1
            (next hosts index (respond host retry)).2 (retry + 1)
termination_by (retryLimit - retry).toNat

theorem nextHost_lt (h : index < hosts.length) (answer : Answer) :
    (nextHost hosts index answer).2 < (nextHost hosts index answer).1.length := by
  unfold nextHost
  split
  · split_ifs with hmem
    · exact List.idxOf_lt_length_of_mem hmem
    · simp
  · exact Nat.mod_lt _ (Nat.zero_lt_of_lt h)

theorem exists_getResponse (respond : HostAddr → ℕ → Answer) (retryLimit : ℤ) (retry : ℕ)
    (h : index < hosts.length) :
    ∃ (sent : List (List HostAddr × ℕ)) (status : Status),
      getResponse respond retryLimit hosts index retry =
        sent.map (fun r => .request r.1 r.2) ++ [.setValue status] ∧
      sent.length ≤ (retryLimit - retry).toNat + 1 ∧ ∀ r ∈ sent, r.2 < r.1.length := by
  fun_induction getResponse respond retryLimit hosts index retry with
  | case1 _ _ _ hnone => exact absurd h (not_lt.mpr (List.getElem?_eq_none_iff.mp hnone))
  | case2 hosts index =>
    refine ⟨[(hosts, index)], _, rfl, Nat.le_add_left _ _, ?_⟩
    exact List.forall_mem_singleton.mpr h
  | case3 hosts index retry _ _ hleft ih =>
    obtain ⟨sent, status, heq, hlen, hall⟩ := ih (nextHost_lt h _)
    refine ⟨(hosts, index) :: sent, status, by rw [heq]; rfl, ?_, ?_⟩
    · rw [List.length_cons]
      omega
    · exact List.forall_mem_cons.mpr ⟨h, hall⟩

/-- **A request is tried a bounded number of times, and its promise is fulfilled once.** -/
theorem getResponse_spec (respond : HostAddr → ℕ → Answer) (retryLimit : ℤ) (host : HostAddr)
    (hosts : List HostAddr) :
    ∃ (sent : List (List HostAddr × ℕ)) (status : Status),
      getResponse respond retryLimit (host :: hosts) 0 0 =
        sent.map (fun r => .request r.1 r.2) ++ [.setValue status] ∧
      sent.length ≤ retryLimit.toNat + 1 ∧ ∀ r ∈ sent, r.2 < r.1.length := by
  have h : 0 < (host :: hosts).length := Nat.zero_lt_succ _
  simpa using exists_getResponse respond retryLimit 0 h

end K2Graph.Metad.AdminClient
