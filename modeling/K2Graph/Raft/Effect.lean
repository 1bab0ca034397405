import K2Graph.Raft.System

/-!
# What a step of the group can do

`Group.step` is taken apart once: `Effect` lists the effects a step can have,
with the guards under which it has them, and `step_effect` says there are no
others.  Every invariant is then proved by cases on `Effect`.

Most actions only move roles and election stages about; they are one effect,
`Effect.stir`.

## Main results

* `Group.step_effect` — every step has one of the effects.
-/

namespace K2Graph.Raft

open List

/-! ### Changing one partition -/

namespace Group

variable (s : Group) (a b : HostAddr) (n : Node)

theorem setNode_nodes : (s.setNode a n).nodes b = if b = a then n else s.nodes b := rfl

@[simp] theorem setNode_nodes_self : (s.setNode a n).nodes a = n := by simp [setNode]

theorem setNode_nodes_of_ne {a b : HostAddr} (h : b ≠ a) : (s.setNode a n).nodes b = s.nodes b := by
  simp [setNode, h]

theorem setNode_self : s.setNode a (s.nodes a) = s := by
  have h : (fun b => if b = a then s.nodes a else s.nodes b) = s.nodes := by
    funext b
    split
    · rename_i hb; rw [hb]
    · rfl
  simp [setNode, h]

variable (calls' : List (HostAddr × CallArgs))

/-- The partition a `Host` acts for, afterwards. -/
def hostNode (peer : HostAddr) (out : Host.Outcome) : Node :=
  { s.nodes a with
    calls := calls'
    host := fun b => if b = peer then out.host else (s.nodes a).host b
    replication := (s.nodes a).replication.map fun r => collect r peer out.fulfilled }

theorem hostOutcome_nodes (net' : List Message) (peer : HostAddr) (out : Host.Outcome) :
    (hostOutcome { s.setNode a { s.nodes a with calls := calls' } with net := net' }
      a peer out).nodes = (s.setNode a (s.hostNode a calls' peer out)).nodes := by
  funext b
  simp only [hostOutcome, setNode]
  split
  · rfl
  · rfl

end Group

/-! ### Elections -/

/-- No election is prepared and no vote collected: an election that is being held
stays as it is or is over, and one that has been prepared is not prepared
again. -/
structure Evolves (es es' : List Election) : Prop where
  prepared : ∀ {eid : ℕ} {e : Election}, es[eid]? = some e → e.stage ≠ .starting →
    ∃ e', es'[eid]? = some e' ∧ e'.stage ≠ .starting
  asking : ∀ {eid : ℕ} {polling : Bool} {req : AskForVoteRequest}
    {results : List (HostAddr × Option ErrorCode)},
    es'[eid]? = some ⟨polling, .asking req results⟩ →
    es[eid]? = some ⟨polling, .asking req results⟩

theorem Evolves.refl (es : List Election) : Evolves es es :=
  ⟨fun h hne => ⟨_, h, hne⟩, fun h => h⟩

theorem Evolves.start (es : List Election) (polling : Bool) :
    Evolves es (es ++ [⟨polling, .starting⟩]) := by
  constructor
  · intro eid e h hne
    have hlt : eid < es.length := (List.getElem?_eq_some_iff.mp h).1
    exact ⟨e, by rw [getElem?_append_left hlt]; exact h, hne⟩
  intro eid polling' req results h
  by_cases hlt : eid < es.length
  · rw [getElem?_append_left hlt] at h
    exact h
  rw [getElem?_append_right (Nat.le_of_not_lt hlt), getElem?_singleton] at h
  split at h
  · cases h
  · cases h

theorem Evolves.set (hstart : e.stage ≠ .starting)
    (hask : ∀ req results, e.stage ≠ .asking req results) : Evolves es (es.set eid e) := by
  constructor
  · intro eid' e' h hne
    have hlt : eid' < es.length := (List.getElem?_eq_some_iff.mp h).1
    rw [getElem?_set]
    split
    · rename_i heq
      exact ⟨e, by rw [if_pos (heq ▸ hlt)], hstart⟩
    · exact ⟨e', h, hne⟩
  · intro eid' polling req results h
    rw [getElem?_set] at h
    split at h
    · split at h
      · simp only [Option.some.injEq] at h
        exact absurd (by rw [h]) (hask req results)
      · cases h
    · exact h

/-- Only roles and election stages have changed. -/
structure Node.Stirs (n n' : Node) : Prop where
  part : ∃ role leader tasks,
    n'.part = { n.part with role := role, leader := leader, transferTasks := tasks } ∧
      (role = .leader → n.part.role = .leader)
  host : n'.host = n.host
  replication : n'.replication = n.replication
  rounds : n'.rounds = n.rounds
  calls : n'.calls = n.calls
  elections : Evolves n.elections n'.elections

theorem Node.Stirs.refl (n : Node) : n.Stirs n :=
  ⟨⟨n.part.role, n.part.leader, n.part.transferTasks, rfl, id⟩, rfl, rfl, rfl, rfl, Evolves.refl _⟩

/-! ### Effects -/

/-- The request `prepareElectionRequest` makes. -/
def RaftPart.voteRequest (p : RaftPart) : AskForVoteRequest :=
  { candidate := p.addr, term := p.proposedTerm + 1, lastLogId := p.lastLogId,
    lastLogTerm := p.lastLogTerm }

/-- Something a `Host` of partition `a` does: the action, the calls and messages
that are left, and what comes of it. -/
inductive HostStep (cfg : Config) (s : Group) (a peer : HostAddr) :
    Action → List (HostAddr × CallArgs) → List Message → Host.Outcome → Prop
  | call {i : ℕ} {c : CallArgs} : (s.nodes a).calls[i]? = some (peer, c) →
      HostStep cfg s a peer (.hostAppendLogs a i) ((s.nodes a).calls.eraseIdx i) s.net
        (Host.appendLogs cfg.flags (s.nodes a).part ((s.nodes a).host peer) c)
  | response {i rid : ℕ} {resp : AppendLogResponse} :
      s.net[i]? = some (.appendResp peer a rid resp) →
      ((s.nodes a).host peer).requestOnGoing = true → ((s.nodes a).host peer).rid = rid →
      HostStep cfg s a peer (.recvAppendResponse i) (s.nodes a).calls (s.net.eraseIdx i)
        (Host.onResponse cfg.flags (s.nodes a).part ((s.nodes a).host peer) resp)
  | exception : ((s.nodes a).host peer).requestOnGoing = true →
      HostStep cfg s a peer (.appendException a peer) (s.nodes a).calls s.net
        ((s.nodes a).host peer).onException

/-- The actions that set the role of a partition and leave its log alone. -/
def Action.leaves (a : HostAddr) : Action → Bool
  | .transferLeader b | .giveUpElection b _ => a == b
  | _ => false

inductive Effect (cfg : Config) (s : Group) : Action → Group → Prop
  /-- Roles and election stages change. -/
  | stir {act : Action} {a : HostAddr} {n' : Node} : (s.nodes a).Stirs n' →
      (act.leaves a = false → (s.nodes a).part.role = .leader → n'.part.role = .leader) →
      Effect cfg s act (s.setNode a n')
  /-- A message is lost on a partition that does not care, or a vote refused. -/
  | drop {act : Action} {net' : List Message} :
      (∀ m ∈ net', m ∈ s.net ∨ ∃ src dst eid code, m = .voteResp src dst eid code ∧
        code ≠ .succeeded) →
      Effect cfg s act { s with net := net' }
  /-- An election is prepared. -/
  | prepare {a : HostAddr} {eid : ℕ} {polling : Bool} : a ∈ cfg.members →
      (s.nodes a).elections[eid]? = some ⟨polling, .starting⟩ →
      Effect cfg s (.prepareElection a eid)
        { s.setNode a
            { s.nodes a with
              part := { (s.nodes a).part with
                        proposedTerm := (s.nodes a).part.proposedTerm + 1 }
              elections := (s.nodes a).elections.set eid
                ⟨polling, .asking (s.nodes a).part.voteRequest []⟩ } with
          net := s.net ++ (s.nodes a).part.followers.map fun h =>
            .voteReq a h.addr eid (s.nodes a).part.voteRequest }
  /-- A vote is granted. -/
  | vote {i eid : ℕ} {recent : Bool} {src dst : HostAddr} {req : AskForVoteRequest} :
      s.net[i]? = some (.voteReq src dst eid req) → (s.nodes dst).part.Grants req →
      Effect cfg s (.recvVoteRequest i recent)
        { s.setNode dst { s.nodes dst with part := (s.nodes dst).part.voteFor req } with
          net := s.net.eraseIdx i ++ [.voteResp dst src eid .succeeded]
          votes := ⟨dst, req, (s.nodes dst).part.log⟩ :: s.votes }
  /-- A vote is collected. -/
  | collect {act : Action} {a peer : HostAddr} {eid : ℕ} {polling : Bool}
      {req : AskForVoteRequest} {results : List (HostAddr × Option ErrorCode)}
      {code : Option ErrorCode} {net' : List Message} :
      (s.nodes a).elections[eid]? = some ⟨polling, .asking req results⟩ →
      (s.nodes a).part.isFollower peer = true → peer ∉ results.map Prod.fst →
      (∀ c, code = some c → .voteResp peer a eid c ∈ s.net) → (∀ m ∈ net', m ∈ s.net) →
      Effect cfg s act
        { s.setNode a
            { s.nodes a with
              elections := (s.nodes a).elections.set eid
                ⟨polling, .asking req (results ++ [(peer, code)])⟩ } with
          net := net' }
  /-- An election is won. -/
  | win {a : HostAddr} {eid : ℕ} {polling : Bool} {req : AskForVoteRequest}
      {results : List (HostAddr × Option ErrorCode)} : a ∈ cfg.members →
      (s.nodes a).elections[eid]? = some ⟨polling, .asking req results⟩ →
      (s.nodes a).part.isElected (Group.numVotes results) = true →
      Effect cfg s (.processElection a eid)
        { s.setNode a
            { s.nodes a with
              part := { (s.nodes a).part with term := req.term, role := .leader }
              elections := (s.nodes a).elections.set eid ⟨polling, .elected⟩ } with
          wins := ⟨a, req, (s.nodes a).part.log⟩ :: s.wins
          termLog := fun t => if t = req.term then (s.nodes a).part.log else s.termLog t }
  /-- A leader writes logs. -/
  | append {a : HostAddr} {logs : List (ℤ × LogMsg)} {p' : RaftPart} :
      (s.nodes a).replication = none → logs ≠ [] → (s.nodes a).part.role = .leader →
      (s.nodes a).part.appendToWal ((s.nodes a).part.lastLogId + 1) (s.nodes a).part.term logs =
        (p', true) →
      Effect cfg s (.appendLogs a logs)
        { s.setNode a
            { s.nodes a with
              part := p'
              replication := some
                { currTerm := (s.nodes a).part.term, lastLogId := p'.wal.lastLogId,
                  committedId := (s.nodes a).part.committedLogId,
                  prevLogTerm := (s.nodes a).part.lastLogTerm,
                  prevLogId := (s.nodes a).part.lastLogId, round := none, results := [] } } with
          termLog := fun t => if t = (s.nodes a).part.term then p'.wal.full else s.termLog t }
  /-- A leader asks its hosts to send the logs. -/
  | replicate {a : HostAddr} {r : Replication} : (s.nodes a).replication = some r →
      (s.nodes a).part.role = .leader →
      Effect cfg s (.replicateLogs a)
        (s.setNode a
          { s.nodes a with
            replication := some { r with round := some (s.nodes a).rounds, results := [] }
            rounds := (s.nodes a).rounds + 1
            calls := (s.nodes a).calls ++ (s.nodes a).part.hosts.map fun h => (h.addr,
              { round := (s.nodes a).rounds, term := r.currTerm, logId := r.lastLogId,
                committedLogId := r.committedId, prevLogTerm := r.prevLogTerm,
                prevLogId := r.prevLogId }) })
  /-- The replication ends, or is to be tried again. -/
  | settle {act : Action} {a : HostAddr} {r : Replication} {r' : Option Replication} :
      (s.nodes a).replication = some r → (r' = none ∨ r' = some { r with round := none }) →
      Effect cfg s act (s.setNode a { s.nodes a with replication := r' })
  /-- A host acts. -/
  | host {act : Action} {a peer : HostAddr} {calls' : List (HostAddr × CallArgs)}
      {net' : List Message} {out : Host.Outcome} :
      HostStep cfg s a peer act calls' net' out →
      Effect cfg s act
        (Group.hostOutcome
          { s.setNode a { s.nodes a with calls := calls' } with net := net' } a peer out)
  /-- An append request is handled. -/
  | receive {i rid : ℕ} {recent commitOk : Bool} {src dst : HostAddr} {req : AppendLogRequest}
      {cut : List (Entry LogMsg)} {out : RaftPart.AppendOutcome} :
      s.net[i]? = some (.appendReq src dst rid req cut) →
      out = (s.nodes dst).part.processAppendLogRequest req recent commitOk →
      Effect cfg s (.recvAppendRequest i recent commitOk)
        { s.setNode dst { s.nodes dst with part := out.part, dead := out.crashed } with
          net := s.net.eraseIdx i ++
            if out.crashed then [] else [.appendResp dst src rid out.resp]
          passed := Group.passedBy dst out.passed ++ s.passed
          accepted := Group.acceptedBy out.part ++ s.accepted }
  /-- A leader commits. -/
  | commit {a : HostAddr} {r : Replication} {commitOk : Bool} {n' : Node} :
      a ∈ cfg.members → (s.nodes a).replication = some r → r.round ≠ none →
      (s.nodes a).part.quorum ≤ Group.numSucceeded (s.nodes a).part r.results →
      (s.nodes a).part.role = .leader → r.currTerm = (s.nodes a).part.term →
      (∃ role leader committed, n'.part = { (s.nodes a).part with
                    lastLogId := r.lastLogId, lastLogTerm := r.currTerm, role := role,
                    leader := leader, committedLogId := committed } ∧
          (role = .leader ∨ role = .follower) ∧
          (committed = r.lastLogId ∨ committed = (s.nodes a).part.committedLogId)) →
      n'.host = (s.nodes a).host → n'.calls = (s.nodes a).calls →
      n'.rounds = (s.nodes a).rounds → n'.elections = (s.nodes a).elections →
      (n'.replication = none ∨ n'.replication = (s.nodes a).replication ∧ n'.dead = true) →
      Effect cfg s (.processAppendLogResponses a commitOk)
        { s.setNode a n' with
          passed := Group.passedBy a
            ((s.nodes a).part.wal.iterator (r.committedId + 1) r.lastLogId) ++ s.passed
          accepted := (a, r.currTerm, r.lastLogId) :: s.accepted }
  /-- Old logs are removed. -/
  | clean {a : HostAddr} {k : ℕ} : k < (s.nodes a).part.wal.entries.length →
      Effect cfg s (.cleanWAL a k)
        (s.setNode a
          { s.nodes a with part := { (s.nodes a).part with
                                     wal := (s.nodes a).part.wal.cleanWAL k } })

/-! ### Every step has one of the effects -/

namespace Group

variable {s : Group} {a : HostAddr}

theorem startElection_effect (h : s.startElection a timeout = some s') : Effect cfg s act s' := by
  simp only [startElection] at h
  split at h
  · cases h
  cases h
  refine .stir ⟨?_, rfl, rfl, rfl, rfl, ?_⟩ fun _ hrole => ?_
  · simp only [RaftPart.needToStartElection]
    split
    · exact ⟨.candidate, noHost, _, rfl, by simp⟩
    · exact ⟨_, _, _, rfl, id⟩
  · split
    · exact Evolves.start _ _
    · exact Evolves.refl _
  · simp [RaftPart.needToStartElection, hrole]

theorem transferLeader_effect (h : s.transferLeader a = some s') :
    Effect cfg s (.transferLeader a) s' := by
  simp only [transferLeader] at h
  split at h
  · cases h
  · cases h
    exact .stir ⟨⟨.candidate, noHost, _, rfl, by simp⟩, rfl, rfl, rfl, rfl, Evolves.start _ _⟩
      (by simp [Action.leaves])

theorem prepareElection_effect (ha : a ∈ cfg.members) (h : s.prepareElection a eid = some s') :
    Effect cfg s (.prepareElection a eid) s' := by
  simp only [prepareElection] at h
  split at h
  · rename_i polling he
    simp only [RaftPart.prepareElectionRequest] at h
    split at h
    · rename_i p hp
      split at hp
      · cases hp
        cases h
        exact .stir ⟨⟨_, _, _, rfl, id⟩, rfl, rfl, rfl, rfl, Evolves.set (by simp) (by simp)⟩
          fun _ => id
      · simp at hp
    · rename_i p req hp
      split at hp
      · simp at hp
      cases hp
      cases h
      exact .prepare ha he
  · cases h

theorem giveUpElection_effect (h : s.giveUpElection a eid = some s') :
    Effect cfg s (.giveUpElection a eid) s' := by
  simp only [giveUpElection] at h
  split at h
  · cases h
    exact .stir ⟨⟨.follower, _, _, rfl, by simp⟩, rfl, rfl, rfl, rfl,
      Evolves.set (by simp) (by simp)⟩ (by simp [Action.leaves])
  · cases h

theorem announceLeader_effect (h : s.announceLeader a eid = some s') : Effect cfg s act s' := by
  simp only [announceLeader] at h
  split at h
  · cases h
    refine .stir ⟨?_, rfl, rfl, rfl, rfl, Evolves.set (by simp) (by simp)⟩ fun _ hrole => ?_
    · split
      · exact ⟨_, _, _, rfl, id⟩
      · exact ⟨_, _, _, rfl, id⟩
    · simpa only [apply_ite RaftPart.role, ite_self] using hrole
  · cases h

theorem recvVoteRequest_effect (h : s.recvVoteRequest i recent = some s') :
    Effect cfg s (.recvVoteRequest i recent) s' := by
  simp only [recvVoteRequest] at h
  split at h
  · rename_i src dst eid req hnet
    split at h
    · cases h
    cases h
    rcases (s.nodes dst).part.processAskForVoteRequest_cases req recent with
      ⟨heq, hg⟩ | ⟨code, heq, hcode⟩
    · simp only [heq]
      exact .vote hnet hg
    simp only [heq, hcode]
    have hself : s.setNode dst { s.nodes dst with part := (s.nodes dst).part } = s :=
      s.setNode_self dst
    rw [hself]
    refine .drop ?_
    intro m hm
    rcases mem_append.mp hm with hm | hm
    · exact .inl (mem_of_mem_eraseIdx hm)
    · exact .inr ⟨dst, src, eid, code, mem_singleton.mp hm, hcode⟩
  · cases h

theorem collectVote_effect (hcode : ∀ c, code = some c → .voteResp peer a eid c ∈ s.net)
    (hnet : ∀ m ∈ net', m ∈ s.net) :
    Effect cfg s act (collectVote { s with net := net' } a peer eid code) := by
  unfold collectVote
  simp only
  split
  · rename_i polling req results he
    split_ifs with hp
    · exact .collect he hp.1 hp.2 hcode hnet
    · exact .drop fun m hm => .inl (hnet m hm)
  · exact .drop fun m hm => .inl (hnet m hm)

theorem processElection_effect (ha : a ∈ cfg.members) (h : s.processElection a eid = some s') :
    Effect cfg s (.processElection a eid) s' := by
  simp only [processElection] at h
  split at h
  · rename_i polling req results he
    split at h
    · cases h
    split at h
    · rename_i hel
      cases h
      simp only [RaftPart.processElectionResponses, hel]
      exact .win ha he hel
    rename_i hel
    cases h
    simp only [RaftPart.processElectionResponses, hel, Bool.false_eq_true, if_false]
    refine .stir ⟨⟨_, _, _, rfl, id⟩, rfl, rfl, rfl, rfl, Evolves.set ?_ ?_⟩ fun _ => id
    · split
      · simp
      · simp
    · split
      · simp
      · simp
  · cases h

theorem appendLogs_effect {logs : List (ℤ × LogMsg)} (h : s.appendLogs a logs = some s') :
    Effect cfg s (.appendLogs a logs) s' := by
  simp only [appendLogs] at h
  split at h
  · cases h
  rename_i hg
  simp only [not_or, Bool.not_eq_true, Option.isSome_eq_false_iff, Option.isNone_iff_eq_none,
    Decidable.not_not] at hg
  split at h
  · rename_i p' happ
    cases h
    rcases RaftPart.appendToWal_cases happ with ⟨-, rfl⟩ | ⟨h0, -⟩ | ⟨h0, -⟩
    · exact .stir (Node.Stirs.refl _) fun _ => id
    · cases h0
    · cases h0
  · rename_i p' happ
    cases h
    exact .append hg.1 hg.2.1 hg.2.2.2 happ

theorem replicateLogs_effect (h : s.replicateLogs a = some s') :
    Effect cfg s (.replicateLogs a) s' := by
  simp only [replicateLogs] at h
  split at h
  · rename_i r hr
    split at h
    · cases h
    split_ifs at h with hrole
    · cases h
      exact .settle hr (.inl rfl)
    cases h
    simp only [not_or, Decidable.not_not] at hrole
    exact .replicate hr hrole.2
  · cases h

theorem hostAppendLogs_effect (h : s.hostAppendLogs cfg a i = some s') :
    Effect cfg s (.hostAppendLogs a i) s' := by
  simp only [hostAppendLogs] at h
  split at h
  · rename_i peer c hc
    cases h
    exact .host (.call hc)
  · cases h

theorem recvAppendRequest_effect (h : s.recvAppendRequest i recent commitOk = some s') :
    Effect cfg s (.recvAppendRequest i recent commitOk) s' := by
  simp only [recvAppendRequest] at h
  split at h
  · rename_i src dst rid req cut hnet
    split at h
    · cases h
    · cases h
      exact .receive hnet rfl
  · cases h

theorem recvAppendResponse_effect (h : s.recvAppendResponse cfg i = some s') :
    Effect cfg s (.recvAppendResponse i) s' := by
  simp only [recvAppendResponse] at h
  split at h
  · rename_i src dst rid resp hnet
    split at h
    · cases h
    split_ifs at h with hon
    · cases h
      have heff : Effect cfg s _ _ := .host (.response hnet hon.1 hon.2)
      rwa [show s.setNode dst { s.nodes dst with calls := (s.nodes dst).calls } = s from
        s.setNode_self dst] at heff
    · cases h
      exact .drop fun m hm => .inl (mem_of_mem_eraseIdx hm)
  · cases h

theorem appendException_effect (h : s.appendException a peer = some s') :
    Effect cfg s (.appendException a peer) s' := by
  simp only [appendException] at h
  split at h
  · rename_i hon
    cases h
    have heff : Effect cfg s _ _ := .host (.exception hon)
    rwa [show s.setNode a { s.nodes a with calls := (s.nodes a).calls } = s from
      s.setNode_self a] at heff
  · cases h

theorem processAppendLogResponses_effect (ha : a ∈ cfg.members)
    (h : s.processAppendLogResponses a commitOk = some s') :
    Effect cfg s (.processAppendLogResponses a commitOk) s' := by
  simp only [processAppendLogResponses] at h
  split at h
  · rename_i r hr
    split at h
    · cases h
    rename_i hguard
    split at h
    · cases h
      exact .settle hr (.inr rfl)
    rename_i hq
    split at h
    · cases h
      exact .settle hr (.inl rfl)
    rename_i hok
    simp only [not_or, Decidable.not_not] at hok hguard
    have hround : r.round ≠ none := hguard.1
    cases h
    obtain ⟨role, leader, committed, hpart, hrole, hcomm⟩ :=
      (s.nodes a).part.leaderCommit_eq r.currTerm r.committedId r.lastLogId commitOk
    refine .commit ha hr hround (Nat.le_of_not_lt hq) hok.2.1 hok.2.2
      ⟨role, leader, committed, hpart, ?_, hcomm⟩ rfl rfl rfl rfl ?_
    · rcases hrole with h0 | h0
      · exact .inl (h0.trans hok.2.1)
      · exact .inr h0
    · cases commitOk with
      | false => exact .inr ⟨hr.symm, rfl⟩
      | true => exact .inl rfl
  · cases h

theorem cleanWAL_effect (h : s.cleanWAL a k = some s') : Effect cfg s (.cleanWAL a k) s' := by
  simp only [cleanWAL] at h
  split at h
  · cases h
  rename_i hk
  simp only [not_or, not_le] at hk
  cases h
  exact .clean hk.1

/-- **Every step has one of the effects.** -/
theorem step_effect (h : s.step cfg act = some s') : Effect cfg { s with acked := [] } act s' := by
  unfold step at h
  split at h
  · rename_i hact
    cases act with
    | startElection a timeout => exact startElection_effect h
    | transferLeader a => exact transferLeader_effect h
    | prepareElection a eid =>
      simp only [canAct, Action.actor?, Bool.and_eq_true, decide_eq_true_eq] at hact
      exact prepareElection_effect hact.1 h
    | giveUpElection a eid => exact giveUpElection_effect h
    | recvVoteRequest i recent => exact recvVoteRequest_effect h
    | recvVoteResponse i =>
      simp only [perform, recvVoteResponse] at h
      split at h
      · rename_i src dst eid code hnet
        split at h
        · cases h
        cases h
        refine collectVote_effect ?_
          fun m hm => mem_of_mem_eraseIdx hm
        intro c hc
        cases hc
        exact mem_of_getElem? hnet
      · cases h
    | voteException a peer eid =>
      cases h
      exact collectVote_effect (by simp) fun m hm => hm
    | processElection a eid =>
      simp only [canAct, Action.actor?, Bool.and_eq_true, decide_eq_true_eq] at hact
      exact processElection_effect hact.1 h
    | announceLeader a eid => exact announceLeader_effect h
    | appendLogs a logs => exact appendLogs_effect h
    | replicateLogs a => exact replicateLogs_effect h
    | hostAppendLogs a i => exact hostAppendLogs_effect h
    | recvAppendRequest i recent commitOk => exact recvAppendRequest_effect h
    | recvAppendResponse i => exact recvAppendResponse_effect h
    | appendException a peer => exact appendException_effect h
    | processAppendLogResponses a commitOk =>
      simp only [canAct, Action.actor?, Bool.and_eq_true, decide_eq_true_eq] at hact
      exact processAppendLogResponses_effect hact.1 h
    | cleanWAL a k => exact cleanWAL_effect h
    | crash a =>
      cases h
      exact .stir ⟨⟨_, _, _, rfl, id⟩, rfl, rfl, rfl, rfl, Evolves.refl _⟩ fun _ => id
  · cases h

end Group

/-! ### What is on the wire -/

variable {s : Group} {a : HostAddr}

theorem HostStep.mem_net (hs : HostStep cfg s a peer act calls' net' out) :
    ∀ m ∈ net', m ∈ s.net := by
  cases hs with
  | call _ | exception _ => exact fun m hm => hm
  | response _ _ _ => exact fun m hm => mem_of_mem_eraseIdx hm

/-- An append request is an old one, or one a `Host` sends in this step, with the log of
its sender as far as the request goes. -/
theorem Effect.appendReq_cases (he : Effect cfg s act s')
    (hm : .appendReq src dst rid req cut ∈ s'.net) :
    .appendReq src dst rid req cut ∈ s.net ∨ ∃ calls' net' out,
      HostStep cfg s src dst act calls' net' out ∧ out.request = some req ∧
        cut = (s.nodes src).part.wal.full.take (req.lastLogIdSent + req.logStrList.length) := by
  cases he with
  | drop hnet =>
    rcases hnet _ hm with hm | ⟨_, _, _, _, h0, -⟩
    · exact .inl hm
    · cases h0
  | prepare _ _ =>
    rcases mem_append.mp hm with hm | hm
    · exact .inl hm
    · obtain ⟨f, -, h0⟩ := mem_map.mp hm
      cases h0
  | vote _ _ =>
    rcases mem_append.mp hm with hm | hm
    · exact .inl (mem_of_mem_eraseIdx hm)
    · cases mem_singleton.mp hm
  | collect _ _ _ _ hnet => exact .inl (hnet _ hm)
  | @host _ a peer calls' net' out hs =>
    simp only [Group.hostOutcome, mem_append] at hm
    rcases hm with hm | hm
    · exact .inl (hs.mem_net _ hm)
    cases hreq : out.request with
    | none => simp [hreq] at hm
    | some req' =>
      simp only [hreq, mem_singleton, Group.setNode_nodes_self] at hm
      obtain ⟨rfl, rfl, -, rfl, rfl⟩ := hm
      exact .inr ⟨calls', net', out, hs, hreq, rfl⟩
  | receive _ _ =>
    rcases mem_append.mp hm with hm | hm
    · exact .inl (mem_of_mem_eraseIdx hm)
    · split at hm
      · cases hm
      · cases mem_singleton.mp hm
  | _ => exact .inl hm

end K2Graph.Raft
