import K2Graph.Raft.Election
import K2Graph.Raft.Lifecycle

/-!
# Votes across restarts

A partition that is stopped or crashes and is started again keeps its log and its engine.
Neither the term it is in nor the candidate it voted for is written to disk: `start` takes
the term of the last log for both `term_` and `proposedTerm_`.  A partition that has voted
and has no log of that term yet forgets its vote.

If every partition that is started again finds a log of the term it was in, it remembers
enough.

## Main results

* `Group.voteDurable_of_keepsTerm` — **with the condition, no run has two votes of one
  partition in one term, nor two leaders of one term.**
* `Group.not_voteDurable_forgetRun` — a partition votes twice in term 1, for two leaders.
-/

namespace K2Graph.Raft

/-! ### Stopping and starting -/

/-- A step of a group whose partitions come and go. -/
inductive Life
  | act (act : Action)
  /-- `stop`: until it is started again the partition takes part in nothing, as after a
  crash. -/
  | stop (a : HostAddr)
  /-- `start`; `committed` is what the engine says. -/
  | start (a : HostAddr) (committed startTimeMs : ℕ)

/-- A partition that is started again.  The answers to what it had asked before are lost,
so its elections are over and its requests are counted on. -/
def Node.restart (cfg : Config) (a : HostAddr) (n : Node) (committed startTimeMs : ℕ) : Node where
  part := RaftPart.restart a (cfg.peers a) false n.part.wal.reopen committed startTimeMs
  host := fun b => { rid := (n.host b).rid }
  elections := n.elections.map fun e => { e with stage := .finished }
  replication := none
  rounds := n.rounds
  calls := []
  dead := false

namespace Group

def live (cfg : Config) (s : Group) : Life → Option Group
  | .act act => s.step cfg act
  | .stop a =>
    if a ∈ cfg.members ∧ (s.nodes a).dead = false then
      some (s.setNode a { s.nodes a with dead := true })
    else none
  | .start a committed startTimeMs =>
    if a ∈ cfg.members ∧ (s.nodes a).dead = true then
      some (s.setNode a ((s.nodes a).restart cfg a committed startTimeMs))
    else none

/-- **No partition votes for two candidates in one term.** -/
def VoteDurable (s : Group) : Prop :=
  ∀ x ∈ s.votes, ∀ y ∈ s.votes, x.voter = y.voter → x.req.term = y.req.term →
    x.req.candidate = y.req.candidate

/-- A partition that is started again finds a last log of the term it was in, and one that
becomes leader enters a term larger than its own that it still proposes. -/
def keepsTerm (s : Group) : Life → Bool
  | .act act => s.freshElection act
  | .stop _ => true
  | .start a _ _ => (s.nodes a).part.term ≤ (s.nodes a).part.wal.reopen.lastLogTerm

variable {cfg : Config} {s : Group}

theorem evolves_finished (es : List Election) :
    Evolves es (es.map fun e => { e with stage := .finished }) where
  prepared := by
    intro eid e he _
    exact ⟨⟨e.polling, .finished⟩, by rw [List.getElem?_map, he]; rfl, by simp⟩
  asking := by
    intro eid polling req results he
    rw [List.getElem?_map, Option.map_eq_some_iff] at he
    obtain ⟨e, -, heq⟩ := he
    cases heq

theorem Fixed.restart (h : Fixed cfg s) (committed startTimeMs : ℕ) :
    Fixed cfg (s.setNode a ((s.nodes a).restart cfg a committed startTimeMs)) :=
  h.setNode rfl (h.addr a).symm (h.hosts a).symm (h.quorum a).symm

/-- **A partition that is started in a term no smaller than its old one keeps the
invariant.** -/
theorem ElectionInv.restart (h : ElectionInv cfg s)
    (hterm : (s.nodes a).part.term ≤ (s.nodes a).part.wal.reopen.lastLogTerm) :
    ElectionInv cfg (s.setNode a ((s.nodes a).restart cfg a committed startTimeMs)) :=
  h.frame (electionFrame_setNode rfl (.inr ⟨hterm, rfl⟩) (evolves_finished _)
    (fun _ hm => .inl hm) rfl rfl)

theorem electionInv_live (hnd : cfg.members.Nodup) (h : Fixed cfg s ∧ ElectionInv cfg s)
    (hok : s.keepsTerm l = true) (hstep : s.live cfg l = some s') :
    Fixed cfg s' ∧ ElectionInv cfg s' := by
  obtain ⟨hfix, hinv⟩ := h
  cases l with
  | act act => exact electionInv_step hnd ⟨hfix, hinv⟩ hok hstep
  | stop a =>
    simp only [live] at hstep
    split at hstep
    · cases hstep
      exact ⟨hfix.setNode rfl rfl rfl rfl, hinv.frame (electionFrame_setNode rfl (.inl ⟨rfl, rfl⟩)
        (Evolves.refl _) (fun _ hm => .inl hm) rfl rfl)⟩
    · cases hstep
  | start a committed startTimeMs =>
    simp only [live] at hstep
    split at hstep
    · cases hstep
      exact ⟨hfix.restart committed startTimeMs, hinv.restart (of_decide_eq_true hok)⟩
    · cases hstep

/-- **Votes are durable with the condition.**  In every run in which a partition is only
started again over a log of the term it was in, and a partition becomes leader only of a
term larger than its own that it still proposes, no partition votes for two candidates in
one term, and no two partitions become leader of one term. -/
theorem voteDurable_of_keepsTerm (cfg : Config) (hnd : cfg.members.Nodup) {s : Group}
    (h : Reach (live cfg) (fun s l => s.keepsTerm l = true) (init cfg) s) :
    s.VoteDurable ∧ s.ElectionSafe := by
  obtain ⟨-, hinv⟩ := h.invariant
    ⟨fixed_init cfg, electionInv_init cfg⟩ fun _ _ _ hinv hok hs => electionInv_live hnd hinv hok hs
  refine ⟨fun x hx y hy hv ht => ?_, fun w hw w' hw' ht => ?_⟩
  · rw [hinv.vote_unique x hx y hy hv ht]
  · rw [hinv.win_unique w hw w' hw' ht]

/-- The second partition votes for the first in term 1 and gets a log of that term.  Stopped
and started again, it refuses the third in that term. -/
def rememberRun : List Life :=
  [.act (.startElection (1, 1) false), .act (.prepareElection (1, 1) 0),
   .act (.recvVoteRequest 0 false), .act (.recvVoteResponse 1), .act (.processElection (1, 1) 0),
   .act (.announceLeader (1, 1) 0), .act (.appendLogs (1, 1) [(0, .data [1])]),
   .act (.replicateLogs (1, 1)), .act (.hostAppendLogs (1, 1) 0),
   .act (.recvAppendRequest 1 false true), .stop (2, 2), .start (2, 2) 0 0,
   .act (.startElection (3, 3) false), .act (.prepareElection (3, 3) 0),
   .act (.recvVoteRequest 3 false)]

theorem voteDurable_rememberRun :
    ∃ s, Reach (live trio) (fun s l => s.keepsTerm l = true) (init trio) s ∧
      ((s.nodes (2, 2)).part.term = 1 ∧ .voteResp (2, 2) (3, 3) 0 .eTermOutOfDate ∈ s.net) ∧
      s.VoteDurable ∧ s.ElectionSafe := by
  obtain ⟨s, hreach, hs⟩ := exists_reach_of_run (live trio) (fun s l => s.keepsTerm l = true)
    (init trio) (fun s => decide ((s.nodes (2, 2)).part.term = 1 ∧
      .voteResp (2, 2) (3, 3) 0 .eTermOutOfDate ∈ s.net)) rememberRun (by decide +kernel)
  exact ⟨s, hreach, of_decide_eq_true hs, voteDurable_of_keepsTerm trio (by decide) hreach⟩

/-- The second partition votes for the first in term 1, is stopped and started again over an
empty log, and votes for the third in term 1. -/
def forgetRun : List Life :=
  [.act (.startElection (1, 1) false), .act (.prepareElection (1, 1) 0),
   .act (.recvVoteRequest 0 false), .act (.recvVoteResponse 1), .act (.processElection (1, 1) 0),
   .stop (2, 2), .start (2, 2) 0 0,
   .act (.startElection (3, 3) false), .act (.prepareElection (3, 3) 0),
   .act (.recvVoteRequest 2 false), .act (.recvVoteResponse 2), .act (.processElection (3, 3) 0)]

/-- **Without the condition a partition may vote twice in a term**, and there are two leaders
of that term. -/
theorem not_voteDurable_forgetRun :
    ∃ s, Reach (live trio) (fun _ _ => True) (init trio) s ∧ ¬s.VoteDurable ∧ ¬s.ElectionSafe := by
  obtain ⟨s, hreach, hs⟩ := exists_reach_of_run (live trio) (fun _ _ => True) (init trio)
    (fun s => decide ((∃ x ∈ s.votes, ∃ y ∈ s.votes, x.voter = y.voter ∧ x.req.term = y.req.term ∧
        x.req.candidate ≠ y.req.candidate) ∧
      ∃ w ∈ s.wins, ∃ w' ∈ s.wins, w.term = w'.term ∧ w.leader ≠ w'.leader))
    forgetRun (by decide +kernel)
  obtain ⟨⟨x, hx, y, hy, hv, ht, hne⟩, w, hw, w', hw', hterm, hlead⟩ := of_decide_eq_true hs
  exact ⟨s, hreach, fun h => hne (h x hx y hy hv ht), fun h => hlead (h w hw w' hw' hterm)⟩

end Group
end K2Graph.Raft
