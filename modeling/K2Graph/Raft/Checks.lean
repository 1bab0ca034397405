import K2Graph.Raft.AtomicOp

/-!
# The checks of an append request

`processAppendLogRequest` drops all data when what it has committed is ahead of what a
leader of a later term presupposes, and it ends the process when the logs it wrote do not
end where the request says, or when it is told of more commits but has no log to commit.

A leader writes its logs before it counts them in `lastLogId_`, and rolls them back when it
follows another.  It does not when it becomes a candidate by an election it was asked for, or
a follower by an election it gives up: then its log goes on behind `lastLogId_`.

## Main results

* `Group.logsEnd_of_reach` — if no leader with such logs leaves so, the log of every partition
  that is not a leader ends at `lastLogId_`.
* `Group.checked_of_reach` — then no data is dropped and no `CHECK` fails.
* `Group.exists_crash_handBackRun` — otherwise a `CHECK` may fail.
-/

namespace K2Graph.Raft

theorem Host.committedLogId_le (hpos : 0 < flags.maxAppendlogBatchSize) (hwf : p.WF)
    (hint : p.Intact) (hcomm : req.committedLogId ≤ p.committedLogId)
    (hreq : req = (prepareAppendLogRequest flags p h).2) (hsnap : req.sendingSnapshot = false)
    (hnil : req.logStrList = []) : req.committedLogId ≤ req.lastLogIdSent := by
  unfold prepareAppendLogRequest at hreq
  split_ifs at hreq with hlt
  · subst hreq
    -- all that is committed is in the log, which has nothing behind what was sent
    have hle := hint.committed_le
    have hlen := hwf.le
    simp only at hcomm ⊢
    by_cases hent : p.wal.entries = []
    · rw [Log.length_full, hent, hint.dropped, List.length_nil] at hlen
      omega
    · rw [hwf.lastLogId_wal hent] at hlt
      omega
  · split at hreq
    · rw [hreq] at hsnap
      cases hsnap
    · rename_i e id es hit
      subst hreq
      simp [logsToSend, hit, hpos.ne'] at hnil

namespace RaftPart

variable {p q : RaftPart}

/-- Only a leader has logs behind `lastLogId_`. -/
def LogEnds (p : RaftPart) : Prop := p.role ≠ .leader → p.wal.lastLogId = p.lastLogId

theorem LogEnds.congr (h : p.LogEnds) (hwal : q.wal = p.wal) (hid : q.lastLogId = p.lastLogId)
    (hrole : p.role = .leader → q.role = .leader) : q.LogEnds := by
  intro hq
  rw [hwal, hid]
  exact h fun hp => hq (hrole hp)

theorem Intact.lastLogId_wal (h : p.Intact) (hwf : p.WF) :
    p.wal.lastLogId = p.wal.full.length := by
  by_cases hne : p.wal.entries = []
  · rw [Log.lastLogId_of_nil hne, h.full_eq, hne, List.length_nil]
  · exact hwf.lastLogId_wal hne

/-- A leader that steps down rolls its log back, since nothing keeps it from it. -/
theorem LogEnds.stepDown (h : p.LogEnds) (hint : p.Intact) (hwf : p.WF) :
    p.stepDown.wal.lastLogId = p.lastLogId := by
  unfold RaftPart.stepDown rollbackUncommitted
  split_ifs with hrole hlt
  · have hne : p.wal.entries ≠ [] := by
      intro h0
      rw [Log.lastLogId_of_nil h0] at hlt
      omega
    have hfirst : p.wal.firstLogId = 1 := by
      rw [Log.firstLogId_of_ne_nil hne, hint.dropped, hwf.base, List.length_nil]
    obtain ⟨wal, hwal⟩ : ∃ wal, p.wal.rollbackToLog p.lastLogId = some wal := by
      rw [Log.rollbackToLog, if_neg (by omega)]
      exact ⟨_, rfl⟩
    rw [hwal]
    obtain ⟨hlast, hnil⟩ := Log.last_rollbackToLog hwf.base hwal
    by_cases h0 : wal.entries = []
    · rw [(hnil h0).1]
      have hlen := (Log.full_rollbackToLog hwf.base hwal hne).2.2 h0
      rw [hlen, hint.dropped, List.length_nil]
    · exact (hlast h0).1
  · have hlen := hint.lastLogId_wal hwf
    have hle := hwf.le
    omega
  · exact h hrole

theorem LogEnds.follows (h : p.LogEnds) (hint : p.Intact) (hwf : p.WF) (hq : p.Follows req q) :
    q.wal.lastLogId = q.lastLogId := by
  rcases hq with ⟨rfl, -, hrole⟩ | ⟨rfl, -⟩
  · exact h hrole
  obtain ⟨wal, heq, -⟩ := p.stepDown_eq
  have hend := h.stepDown hint hwf
  rw [heq] at hend
  simp only [follow, heq]
  exact hend

theorem LogEnds.voteFor (h : p.LogEnds) (hint : p.Intact) (hwf : p.WF) (vote : AskForVoteRequest) :
    (p.voteFor vote).LogEnds := by
  obtain ⟨wal, heq, -⟩ := p.stepDown_eq
  have hend := h.stepDown hint hwf
  rw [heq] at hend
  simp only [RaftPart.voteFor, heq]
  exact fun _ => hend

theorem LogEnds.receive (h : p.LogEnds) (hint : p.Intact) (hwf : p.WF) (hrun : p.status = .running)
    (hsnap : req.sendingSnapshot = false)
    (hout : out = p.processAppendLogRequest req recent commitOk) : out.part.LogEnds := by
  rcases processAppendLogRequest_cases hrun hsnap recent commitOk with
    ⟨hpart, -⟩ | ⟨-, q, ⟨q₀, hfol, hq⟩, hhand⟩
  · rw [hout, hpart]
    exact h
  rw [← hout] at hhand
  have hend : q.wal.lastLogId = q.lastLogId := by
    rcases hq with rfl | ⟨rfl, -⟩
    · exact h.follows hint hwf hfol
    · rfl
  cases hhand with
  | kept hpart _ _ _ =>
    rw [hpart]
    exact fun _ => hend
  | rolledBack _ _ _ hpart _ _ _ =>
    rw [hpart]
    exact fun _ => rfl
  | @appended p' resp _ _ _ _ _ _ =>
    -- what is committed does not matter
    obtain ⟨-, -, ⟨hpart, -⟩ | ⟨-, -, hpart | ⟨_, _, hpart, -⟩⟩⟩ :=
      p'.syncLast.followerCommit_cases req resp commitOk
    · rw [hpart]
      exact fun _ => rfl
    · rw [hpart]
      exact fun _ => rfl
    · rw [hpart]
      exact fun _ => rfl

/-- **No `CHECK` fails** when a request that the leader of its term may send finds a log
that ends at the last log. -/
theorem crashed_processAppendLogRequest (hwf : p.WF) (hrun : p.status = .running)
    (hsnap : req.sendingSnapshot = false) (hle : req.lastLogTermSent ≤ req.currentTerm)
    (hends : ∀ q, p.Follows req q → q.wal.lastLogId = q.lastLogId)
    (htold : req.logStrList = [] → req.committedLogId ≤ req.lastLogIdSent) :
    (p.processAppendLogRequest req recent commitOk).crashed = false := by
  unfold processAppendLogRequest
  simp only [hrun]
  rcases p.verifyLeader_cases req recent with ⟨code, heq, hcode⟩ | ⟨q, heq, hq⟩
  · rw [heq]
    rcases hcode with rfl | rfl <;> rfl
  rw [heq]
  obtain ⟨wal, role, leader, hqeq, -⟩ := hq.eq
  have hstatus : q.status = .running := by rw [hqeq]; exact hrun
  have hterm : q.term = req.currentTerm := by rw [hqeq]
  obtain ⟨hwfq, -, -⟩ := hwf.follows hq
  simp only [hsnap, hstatus, false_and, if_false, reduceCtorEq, appendRunning]
  split
  · rw [if_pos (by omega)]
  unfold compareLast
  split
  · unfold rollbackToCommitted
    split <;> rfl
  split
  · rfl
  split
  · rfl
  have hlast : q.lastLogId = req.lastLogIdSent := by omega
  unfold appendNew
  split
  · rfl
  rename_i p' happ
  rw [← hlast] at happ
  have hcomm : p'.committedLogId = q.committedLogId := by rw [appendToWal_eq happ]
  -- the logs end where the request says
  have hend : req.lastLogIdSent + req.logStrList.length = p'.wal.lastLogId := by
    by_cases hnil : req.logStrList = []
    · rw [hnil] at happ ⊢
      cases happ
      rw [hends _ hq, hlast]
      rfl
    · obtain ⟨hbase, hne, hfull, -⟩ := hwfq.appendToWal happ hnil
      rw [Log.lastLogId_of_ne_nil hne, Log.next_eq, hfull, List.length_append,
        List.length_map, hwfq.length_log]
      omega
  rw [if_neg (not_not.mpr hend)]
  unfold followerCommit
  split
  · rename_i hmore
    simp only [syncLast, ← hend] at hmore ⊢
    rw [if_neg]
    · split <;> rfl
    have hlen := List.length_pos_iff (l := req.logStrList)
    by_cases hnil : req.logStrList = []
    · have := htold hnil
      omega
    · have := hlen.mpr hnil
      omega
  · rfl

end RaftPart

namespace Group

variable {cfg : Config} {s : Group} {act : Action}

/-- A `CHECK` of `processAppendLogRequest` fails. -/
def crashes (s : Group) : Action → Bool
  | .recvAppendRequest i recent commitOk =>
      match s.net[i]? with
      | some (.appendReq _ dst _ req _) =>
          ((s.nodes dst).part.processAppendLogRequest req recent commitOk).crashed
      | _ => false
  | _ => false

/-- A leader that starts an election it was asked for, or gives one up, has written no log
that it has not counted. -/
def leavesClean (s : Group) : Action → Bool
  | .transferLeader a | .giveUpElection a _ =>
      let p := (s.nodes a).part
      decide (p.role = .leader → p.wal.lastLogId = p.lastLogId)
  | _ => true

def checksOk (cfg : Config) (s : Group) (act : Action) : Bool :=
  s.safetyOk cfg act && s.leavesClean act

theorem leavesClean_leaves {a : HostAddr} (h : s.leavesClean act = true)
    (hact : act.leaves a = true) (hrole : (s.nodes a).part.role = .leader) :
    (s.nodes a).part.wal.lastLogId = (s.nodes a).part.lastLogId := by
  cases act with
  | transferLeader b | giveUpElection b eid =>
    obtain rfl : a = b := eq_of_beq hact
    exact of_decide_eq_true h hrole
  | _ => cases hact

/-- **The step lemma**: every way out of office but the two leaves a log that ends at the last
log. -/
theorem Sound.logsEnd_effect (h : Sound cfg s) (hsafe : s.safetyOk cfg act = true)
    (hclean : s.leavesClean act = true) (hends : ∀ a, (s.nodes a).part.LogEnds)
    (he : Effect cfg s act s') (b : HostAddr) : (s'.nodes b).part.LogEnds := by
  have hset (a : HostAddr) (n : Node) (hn : n.part.LogEnds) :
      ((s.setNode a n).nodes b).part.LogEnds := by
    rw [setNode_nodes]
    split
    · exact hn
    · exact hends b
  cases he with
  | @stir _ a n' hst hlead =>
    refine hset a n' ?_
    obtain ⟨role, leader, tasks, hpart, -⟩ := hst.part
    cases hact : act.leaves a with
    | false => exact (hends a).congr (by rw [hpart]) (by rw [hpart]) (hlead hact)
    | true =>
      intro _
      rw [hpart]
      by_cases hrole : (s.nodes a).part.role = .leader
      · exact leavesClean_leaves hclean hact hrole
      · exact hends a hrole
  | drop _ => exact hends b
  | @prepare a _ _ _ _ | @collect _ a _ _ _ _ _ _ _ _ _ _ _ _ =>
    exact hset a _ ((hends a).congr rfl rfl id)
  | @vote _ _ _ _ dst req _ _ =>
    exact hset dst _ ((hends dst).voteFor (h.send.intact dst) (h.log.wf dst) req)
  | @win a _ _ _ _ _ _ _ => exact hset a _ fun h0 => absurd rfl h0
  | @append a logs p' _ _ hrole happ =>
    refine hset a _ fun h0 => absurd ?_ h0
    rw [RaftPart.appendToWal_eq happ]
    exact hrole
  | @replicate a _ _ _ | @settle _ a _ _ _ _ => exact hset a _ (hends a)
  | @host _ a peer calls' net' out _ =>
    rw [hostOutcome_nodes]
    exact hset a _ (hends a)
  | @receive i rid recent commitOk src dst req cut out hmsg hout =>
    obtain ⟨hsnap, -⟩ := h.lastLogTermSent_le hmsg (matchingOk_of_safetyOk hsafe)
    exact hset dst _
      ((hends dst).receive (h.send.intact dst) (h.log.wf dst) (h.log.running dst) hsnap hout)
  | @commit a r _ n' _ hr _ _ hrole hterm hpart _ _ _ _ _ =>
    -- the replication counts all that is written
    obtain ⟨role, leader, committed, hpart, -⟩ := hpart
    obtain ⟨-, -, hid, -⟩ := (h.log.replication a r hr).2 hrole hterm
    refine hset a n' fun _ => ?_
    rw [hpart]
    exact ((h.send.intact a).lastLogId_wal (h.log.wf a)).trans hid.symm
  | clean _ => simp [safetyOk, sendingOk, noCleaning] at hsafe

theorem safetyOk_of_checksOk
    (h : Reach (step cfg) (fun s act => s.checksOk cfg act = true) (init cfg) s) :
    Reach (step cfg) (fun s act => s.safetyOk cfg act = true) (init cfg) s :=
  h.invariant .refl fun _ _ _ hi hok hs => hi.tail ((Bool.and_eq_true _ _).mp hok).1 hs

/-- **Only leaders have logs behind their last log.** -/
theorem logsEnd_of_reach (hnd : cfg.members.Nodup)
    (h : Reach (step cfg) (fun s act => s.checksOk cfg act = true) (init cfg) s) (a : HostAddr) :
    (s.nodes a).part.LogEnds := by
  induction h generalizing a with
  | refl => exact fun _ => rfl
  | tail hr hok hs ih =>
    obtain ⟨hsafe, hclean⟩ := (Bool.and_eq_true _ _).mp hok
    have hsound := sound_of_reach hnd (safetyOk_of_checksOk hr)
    exact hsound.forget.logsEnd_effect hsafe hclean ih (step_effect hs) a

/-- The requests without logs, by induction on the run: a leader sends one when it has no
log behind what it has sent. -/
theorem committedLogId_le_of_reach (hnd : cfg.members.Nodup)
    (hpos : 0 < cfg.flags.maxAppendlogBatchSize)
    (h : Reach (step cfg) (fun s act => s.safetyOk cfg act = true) (init cfg) s)
    (hm : .appendReq src dst rid req cut ∈ s.net) (hsnap : req.sendingSnapshot = false)
    (hnil : req.logStrList = []) : req.committedLogId ≤ req.lastLogIdSent := by
  induction h with
  | refl => cases hm
  | @tail t u act hr hok hs ih =>
    rcases (step_effect hs).appendReq_cases hm with hold | ⟨calls', net', out, hout, hreq, -⟩
    · exact ih hold
    have hsound := (sound_of_reach hnd hr).forget
    simp only [safetyOk, sendingOk, Bool.and_eq_true] at hok
    obtain ⟨hcomm, -⟩ := hsound.send.sent hsound.log hsound.election hout hreq hok.1.1.2
    obtain ⟨host, hprep, -⟩ := HostStep.sends hout hreq
    exact Host.committedLogId_le hpos (hsound.log.wf src) (hsound.send.intact src) hcomm hprep
      hsnap hnil

/-- **No follower drops its data and no `CHECK` fails** in a run that meets the conditions. -/
theorem checked_of_reach (cfg : Config) (hnd : cfg.members.Nodup)
    (hpos : 0 < cfg.flags.maxAppendlogBatchSize)
    (h : Reach (step cfg) (fun s act => s.checksOk cfg act = true) (init cfg) s)
    (hok : s.checksOk cfg act = true) : s.crashes act = false ∧ ∀ b, s.cleansUp act b = false := by
  have hreach := safetyOk_of_checksOk h
  have hsound := sound_of_reach hnd hreach
  obtain ⟨hsafe, -⟩ := (Bool.and_eq_true _ _).mp hok
  refine ⟨?_, hsound.cleansUp_eq_false hsafe⟩
  unfold crashes
  split
  · split
    · rename_i i recent commitOk _ src dst rid req cut hmsg
      obtain ⟨hsnap, hle⟩ := hsound.lastLogTermSent_le hmsg (matchingOk_of_safetyOk hsafe)
      refine RaftPart.crashed_processAppendLogRequest (hsound.log.wf dst) (hsound.log.running dst)
        hsnap hle (fun q hq => ?_)
        (committedLogId_le_of_reach hnd hpos hreach (List.mem_of_getElem? hmsg) hsnap)
      exact (logsEnd_of_reach hnd h dst).follows (hsound.send.intact dst) (hsound.log.wf dst) hq
    · rfl
  · rfl

/-- The request that brings the third partition up to date. -/
theorem checked_catchUpRun :
    ∃ s, Reach (step trio) (fun s act => s.checksOk trio act = true) (init trio) s ∧
      s.checksOk trio (.recvAppendRequest 2 false true) = true ∧ s.net[2]?.isSome ∧
      s.crashes (.recvAppendRequest 2 false true) = false := by
  obtain ⟨s, hreach, hs⟩ := exists_reach_of_run (step trio)
    (fun s act => s.checksOk trio act = true) (init trio)
    (fun s => decide (s.checksOk trio (.recvAppendRequest 2 false true) = true ∧ s.net[2]?.isSome))
    (catchUpRun.take 34) (by decide +kernel)
  obtain ⟨hok, hsome⟩ := of_decide_eq_true hs
  exact ⟨s, hreach, hok, hsome, (checked_of_reach trio (by decide) (by decide) hreach hok).1⟩

/-- The second partition hands its leadership to the first, which is elected, writes log 2
and only then starts the election it was asked for: it is a candidate with a log that is not
rolled back.  It votes for the second partition, which becomes leader of term 3 and is about
to send a log, when it votes for the first in term 4 and rolls its log back.  What it sends
to the first is a request without logs. -/
def handBackRun : List Action :=
  [.startElection (2, 2) false, .prepareElection (2, 2) 0, .recvVoteRequest 1 false,
   .recvVoteResponse 1, .processElection (2, 2) 0, .announceLeader (2, 2) 0,
   .appendLogs (2, 2) [(0, .transLeader (1, 1) 1)], .replicateLogs (2, 2),
   .hostAppendLogs (2, 2) 0, .recvAppendRequest 1 false true, .recvAppendResponse 1,
   .processAppendLogResponses (2, 2) true, .startElection (1, 1) true, .prepareElection (1, 1) 0,
   .recvVoteRequest 1 false, .recvVoteResponse 2, .processElection (1, 1) 0,
   .announceLeader (1, 1) 0, .appendLogs (1, 1) [(0, .data [1])], .transferLeader (1, 1),
   .startElection (2, 2) true, .prepareElection (2, 2) 1, .recvVoteRequest 2 false,
   .recvVoteResponse 3, .processElection (2, 2) 1, .appendLogs (2, 2) [(0, .data [2])],
   .replicateLogs (2, 2), .startElection (1, 1) true, .prepareElection (1, 1) 2,
   .recvVoteRequest 3 false, .hostAppendLogs (2, 2) 1]

/-- **A `CHECK` may fail**: the first partition has written more than it was told. -/
theorem exists_crash_handBackRun :
    ∃ s, Reach (step trio) (fun _ _ => True) (init trio) s ∧
      s.crashes (.recvAppendRequest 5 false true) = true :=
  exists_reach_of_run (step trio) (fun _ _ => True) (init trio)
    (fun s => s.crashes (.recvAppendRequest 5 false true)) handBackRun (by decide +kernel)

end Group
end K2Graph.Raft
