import K2Graph.Lib.TermLog
import K2Graph.Raft.Part

/-!
# What the functions of a partition do

One lemma for each function of `RaftPart`, which says what it can change and
when, and the invariant of a single partition.  The later modules use these
lemmas and do not unfold the functions.

## Main results

* `RaftPart.processAppendLogRequest_cases` — the four ways an append request can
  be handled.
* `RaftPart.WF.syncLast_append`, `RaftPart.WF.rollbackToCommitted` and others —
  every function keeps the invariant.
-/

namespace K2Graph.Raft

open TermLog

variable (req : AppendLogRequest)

def AppendLogRequest.entries : List (Entry LogMsg) :=
  req.logStrList.map fun l => ⟨req.logTerm, l.1, l.2⟩

@[simp] theorem AppendLogRequest.length_entries :
    req.entries.length = req.logStrList.length := by
  simp [entries]

variable {logs : List (ℤ × LogMsg)}

namespace RaftPart

variable {p p' q : RaftPart} {req : AppendLogRequest} {resp : AppendLogResponse} {commitOk : Bool}

/-- The log of a partition up to `lastLogId_`. -/
def log (p : RaftPart) : List (Entry LogMsg) := p.wal.full.take p.lastLogId

/-! ### Committing -/

theorem commitTransLeader_eq (p : RaftPart) (target : HostAddr) :
    ∃ role leader, p.commitTransLeader target = { p with role := role, leader := leader } ∧
      (role = p.role ∨ role = .follower) := by
  unfold commitTransLeader
  split
  · exact ⟨_, _, rfl, .inr rfl⟩
  · exact ⟨p.role, p.leader, rfl, .inl rfl⟩

theorem commitLogs_eq (p : RaftPart) (batch : List (Entry LogMsg × ℕ)) :
    ∃ role leader, p.commitLogs batch = { p with role := role, leader := leader } ∧
      (role = p.role ∨ role = .follower) := by
  induction batch generalizing p with
  | nil => exact ⟨p.role, p.leader, rfl, .inl rfl⟩
  | cons b batch ih =>
    obtain ⟨⟨term, cluster, msg⟩, id⟩ := b
    cases msg with
    | heartbeat | data payload => exact ih p
    | transLeader target timestamp =>
      simp only [commitLogs]
      split
      · obtain ⟨role, leader, heq, hrole⟩ := p.commitTransLeader_eq target
        rw [heq]
        obtain ⟨role', leader', heq', hrole'⟩ := ih { p with role := role, leader := leader }
        refine ⟨role', leader', heq', ?_⟩
        rcases hrole' with h | h
        · rcases hrole with h' | h'
          · exact .inl (h.trans h')
          · exact .inr (h.trans h')
        · exact .inr h
      · exact ih p

/-- A leader that commits changes nothing but its last log, the leadership and
what is committed. -/
theorem leaderCommit_eq (p : RaftPart) (currTerm committedId lastLogId : ℕ) (commitOk : Bool) :
    ∃ role leader committed,
      p.leaderCommit currTerm committedId lastLogId commitOk =
        { p with lastLogId := lastLogId, lastLogTerm := currTerm, role := role,
                 leader := leader, committedLogId := committed } ∧
      (role = p.role ∨ role = .follower) ∧
      (committed = lastLogId ∨ committed = p.committedLogId) := by
  unfold leaderCommit
  cases commitOk with
  | false => exact ⟨_, _, _, rfl, .inl rfl, .inr rfl⟩
  | true =>
    obtain ⟨role, leader, heq, hrole⟩ := commitLogs_eq
      { p with lastLogId := lastLogId, lastLogTerm := currTerm }
      (p.leaderBatch committedId lastLogId)
    simp only [heq]
    exact ⟨role, leader, lastLogId, rfl, hrole, .inl rfl⟩

/-! ### Writing -/

variable {id term : ℕ}

theorem appendToWal_eq (h : p.appendToWal id term logs = (p', ok)) :
    p' = { p with wal := p'.wal, transferTasks := p'.transferTasks } := by
  induction logs generalizing p id with
  | nil => simp only [appendToWal, Prod.mk.injEq] at h; rw [← h.1]
  | cons l logs ih =>
    obtain ⟨cluster, msg⟩ := l
    simp only [appendToWal] at h
    split at h
    · simp only [Prod.mk.injEq] at h; rw [← h.1]
    have hpre : ∃ k, p.preProcessLog msg = { p with transferTasks := k } := by
      cases msg with
      | heartbeat | data payload => exact ⟨_, rfl⟩
      | transLeader target timestamp =>
        simp only [preProcessLog, preProcessTransLeader]
        split
        · split
          · exact ⟨_, rfl⟩
          · exact ⟨_, rfl⟩
        · exact ⟨_, rfl⟩
    obtain ⟨k, hk⟩ := hpre
    rw [ih h, hk]

theorem appendToWal_next {logs : List (ℤ × LogMsg)} (hne : p.wal.entries ≠ []) :
    ∃ p', p.appendToWal p.wal.next term logs = (p', true) ∧ p'.wal.base = p.wal.base ∧
      p'.wal.entries ≠ [] ∧
      p'.wal.full = p.wal.full ++ logs.map (fun l => ⟨term, l.1, l.2⟩) ∧
      (logs ≠ [] → p'.wal.lastLogTerm = term) ∧ (logs = [] → p'.wal = p.wal) := by
  induction logs generalizing p with
  | nil => exact ⟨p, rfl, rfl, hne, by simp, by simp, by simp⟩
  | cons l logs ih =>
    obtain ⟨cluster, msg⟩ := l
    cases he : p.wal.entries with
    | nil => exact absurd he hne
    | cons e es =>
      have happ : p.wal.appendLog p.wal.next ⟨term, cluster, msg⟩ = some
          { p.wal with entries := (e :: es) ++ [⟨term, cluster, msg⟩], lastLogTerm := term } := by
        simp [Log.appendLog, he]
      obtain ⟨hne', hnext, hterm, hcase⟩ := Log.appendLog_eq_some happ
      simp only [appendToWal, happ]
      obtain ⟨p', heq, hbase, hne'', hfull, hlast, hnil⟩ :=
        @ih { p.preProcessLog msg with
              wal := { p.wal with entries := (e :: es) ++ [⟨term, cluster, msg⟩],
                                  lastLogTerm := term } } (by simp)
      rw [← hnext]
      refine ⟨p', heq, hbase, hne'', ?_, ?_, by simp⟩
      · rcases hcase with ⟨_, _, hf⟩ | ⟨hnil', _⟩
        · rw [hfull, hf]
          simp
        · rw [he] at hnil'
          cases hnil'
      · intro _
        cases logs with
        | nil => rw [hnil rfl]
        | cons l logs => exact hlast (by simp)

/-- Logs are written all or not at all, and then they are the last ones. -/
theorem appendToWal_cases (h : p.appendToWal id term logs = (p', ok)) :
    (ok = false ∧ p' = p) ∨ (ok = true ∧ logs = [] ∧ p' = p) ∨
      (ok = true ∧ logs ≠ [] ∧ p'.wal.entries ≠ [] ∧ p'.wal.next = id + logs.length ∧
        p'.wal.lastLogTerm = term ∧
        ((id = p.wal.next ∧ p'.wal.base = p.wal.base ∧
            p'.wal.full = p.wal.full ++ logs.map (fun l => ⟨term, l.1, l.2⟩)) ∨
          (p.wal.entries = [] ∧ id ≠ p.wal.next ∧ p'.wal.base = id ∧
            p'.wal.full = logs.map (fun l => ⟨term, l.1, l.2⟩)))) := by
  cases logs with
  | nil =>
    simp only [appendToWal, Prod.mk.injEq] at h
    exact .inr (.inl ⟨h.2.symm, rfl, h.1.symm⟩)
  | cons l logs =>
    obtain ⟨cluster, msg⟩ := l
    simp only [appendToWal] at h
    split at h
    · simp only [Prod.mk.injEq] at h
      exact .inl ⟨h.2.symm, h.1.symm⟩
    rename_i wal happ
    obtain ⟨hne, hnext, hterm, hcase⟩ := Log.appendLog_eq_some happ
    obtain ⟨p'', heq, hbase, hne', hfull, hlast, hnil⟩ :=
      @appendToWal_next { p.preProcessLog msg with wal := wal } term logs hne
    simp only [hnext] at heq
    rw [heq, Prod.mk.injEq] at h
    obtain ⟨rfl, rfl⟩ := h
    have hlen : p''.wal.full.length = wal.full.length + logs.length := by
      rw [hfull]; simp
    refine .inr (.inr ⟨rfl, by simp, hne', ?_, ?_, ?_⟩)
    · rw [Log.next_eq] at hnext ⊢
      simp only [hbase, List.length_cons]
      omega
    · cases logs with
      | nil => rw [hnil rfl]; exact hterm
      | cons l logs => exact hlast (by simp)
    · rcases hcase with ⟨hid, hb, hf⟩ | ⟨hemp, hid, hb, hf⟩
      · exact .inl ⟨hid, hbase.trans hb, by rw [hfull, hf]; simp⟩
      · exact .inr ⟨hemp, hid, hbase.trans hb, by rw [hfull, hf]; simp⟩

/-! ### Voting -/

/-- The guards under which `processAskForVoteRequest` grants the vote. -/
structure Grants (p : RaftPart) (req : AskForVoteRequest) : Prop where
  term : p.voteTerm < req.term
  lastTerm : p.lastLogTerm ≤ req.lastLogTerm
  lastId : req.lastLogTerm = p.lastLogTerm → p.lastLogId ≤ req.lastLogId

section

variable (p : RaftPart) (req : AskForVoteRequest)

/-- A vote is granted only under the guards, and a request that is refused
changes nothing. -/
theorem processAskForVoteRequest_cases (recent : Bool) :
    p.processAskForVoteRequest req recent = (p.voteFor req, .succeeded) ∧ p.Grants req ∨
      ∃ code, p.processAskForVoteRequest req recent = (p, code) ∧ code ≠ .succeeded := by
  generalize hr : p.processAskForVoteRequest req recent = r
  unfold processAskForVoteRequest at hr
  -- the refusals, up to the comparison of the terms
  iterate 6
    split at hr
    · exact .inr ⟨_, hr.symm, by simp⟩
  rename_i hterm
  split at hr
  · exact .inr ⟨_, hr.symm, by simp⟩
  rename_i hlast
  split at hr
  · exact .inr ⟨_, hr.symm, by simp⟩
  rename_i hid
  split at hr
  · exact .inr ⟨_, hr.symm, by simp⟩
  · refine .inl ⟨hr.symm, Nat.lt_of_not_le hterm, Nat.le_of_not_lt hlast, fun heq => ?_⟩
    exact Nat.le_of_not_lt fun hlt => hid ⟨heq, hlt⟩

/-! ### Following -/

theorem stepDown_eq : ∃ wal, p.stepDown = { p with wal := wal } ∧
      (wal = p.wal ∨ p.role = .leader ∧ p.lastLogId < p.wal.lastLogId ∧
        p.wal.rollbackToLog p.lastLogId = some wal) := by
  unfold stepDown rollbackUncommitted
  split
  · rename_i hrole
    split_ifs with hlt
    · cases hr : p.wal.rollbackToLog p.lastLogId with
      | none => exact ⟨p.wal, rfl, .inl rfl⟩
      | some wal => exact ⟨wal, rfl, .inr ⟨hrole, hlt, rfl⟩⟩
    · exact ⟨p.wal, rfl, .inl rfl⟩
  · exact ⟨p.wal, rfl, .inl rfl⟩

theorem committedLogId_voteFor : (p.voteFor req).committedLogId = p.committedLogId := by
  obtain ⟨wal, heq, -⟩ := p.stepDown_eq
  simp [voteFor, heq]

/-- The partition `verifyLeader` leaves when it accepts the leader. -/
def Follows (req : AppendLogRequest) (q : RaftPart) : Prop :=
  (q = p ∧ p.term = req.currentTerm ∧ p.role ≠ .leader) ∨
    (q = p.follow req ∧ p.term ≤ req.currentTerm)

theorem verifyLeader_cases (req : AppendLogRequest) (recent : Bool) :
    (∃ code, p.verifyLeader req recent = (p, code) ∧
        (code = .eWrongLeader ∨ code = .eTermOutOfDate)) ∨
      ∃ q, p.verifyLeader req recent = (q, .succeeded) ∧ p.Follows req q := by
  unfold verifyLeader
  split
  · exact .inl ⟨_, rfl, .inl rfl⟩
  split
  · exact .inl ⟨_, rfl, .inl rfl⟩
  split
  · rename_i h
    refine .inr ⟨_, rfl, .inl ⟨rfl, h.2.1.symm, ?_⟩⟩
    rcases h.1 with hr | hr
    · simp [hr]
    · simp [hr]
  split
  · exact .inl ⟨_, rfl, .inr rfl⟩
  rename_i hlt
  split
  · exact .inl ⟨_, rfl, .inr rfl⟩
  · exact .inr ⟨_, rfl, .inr ⟨rfl, Nat.le_of_not_lt hlt⟩⟩

end

theorem Follows.eq (h : p.Follows req q) :
    ∃ wal role leader,
      q = { p with wal := wal, role := role, leader := leader, term := req.currentTerm,
                   proposedTerm := q.proposedTerm } ∧
      (q.proposedTerm = p.proposedTerm ∧ p.term = req.currentTerm ∨
        q.proposedTerm = req.currentTerm) ∧
      p.term ≤ req.currentTerm ∧ role ≠ .leader ∧
      (wal = p.wal ∨ p.role = .leader ∧ p.lastLogId < p.wal.lastLogId ∧
        p.wal.rollbackToLog p.lastLogId = some wal) := by
  rcases h with ⟨rfl, hterm, hrole⟩ | ⟨rfl, hterm⟩
  · exact ⟨q.wal, q.role, q.leader, by rw [← hterm], .inl ⟨rfl, hterm⟩, hterm.le, hrole, .inl rfl⟩
  obtain ⟨wal, heq, hwal⟩ := p.stepDown_eq
  refine ⟨wal, if p.role = .learner then .learner else .follower, req.leader, ?_, .inr rfl,
    hterm, by split <;> simp, hwal⟩
  simp [follow, heq]

/-! ### Handling an append request -/

/-- The answer tells the last log of the partition, unless the partition has
fewer logs than it has committed. -/
def TellsLast (out : AppendOutcome) : Prop :=
  out.resp.lastLogTerm = out.part.lastLogTerm ∧
    (out.resp.lastLogId = out.part.lastLogId ∨ out.part.lastLogId < out.part.committedLogId)

/-- The partition that compares its last log with the request: one that follows,
which in one case has dropped everything. -/
def Receives (p : RaftPart) (req : AppendLogRequest) (q : RaftPart) : Prop :=
  ∃ q₀, p.Follows req q₀ ∧
    (q = q₀ ∨ q = q₀.reset ∧ req.lastLogIdSent < q₀.committedLogId ∧
      q₀.term < req.lastLogTermSent)

/-- How a request is handled once the leader is verified. -/
inductive Handled (q : RaftPart) (req : AppendLogRequest) (commitOk : Bool) :
    AppendOutcome → Prop
  /-- Nothing is written. -/
  | kept {out : AppendOutcome} : out.part = q → out.passed = [] → out.since = none →
      TellsLast out → Handled q req commitOk out
  /-- The terms differ, and the log is rolled back to what is committed. -/
  | rolledBack {out : AppendOutcome} {wal : Log LogMsg} :
      q.committedLogId ≤ req.lastLogIdSent → q.termsDiffer req = true →
      q.wal.rollbackToLog q.committedLogId = some wal →
      out.part = { q with wal := wal }.syncLast → out.passed = [] → out.since = none →
      TellsLast out → Handled q req commitOk out
  /-- The logs are written, and what the leader has committed is committed. -/
  | appended {p' : RaftPart} {resp : AppendLogResponse} : q.termsDiffer req = false →
      q.lastLogId = req.lastLogIdSent →
      q.appendToWal (req.lastLogIdSent + 1) req.logTerm req.logStrList = (p', true) →
      req.lastLogIdSent + req.logStrList.length = p'.wal.lastLogId →
      resp.lastLogId = p'.syncLast.lastLogId → resp.lastLogTerm = p'.syncLast.lastLogTerm →
      Handled q req commitOk (p'.syncLast.followerCommit req resp commitOk)

theorem compareLast_handled (q : RaftPart) (req : AppendLogRequest) (resp : AppendLogResponse)
    (commitOk : Bool) (hsent : q.committedLogId ≤ req.lastLogIdSent)
    (hterm : resp.lastLogTerm = q.lastLogTerm)
    (hid : resp.lastLogId = q.lastLogId ∨ q.lastLogId < q.committedLogId) :
    Handled q req commitOk (q.compareLast req resp commitOk) := by
  unfold compareLast
  split
  · rename_i hd
    unfold rollbackToCommitted
    split
    · exact .kept rfl rfl rfl ⟨hterm, hid⟩
    · rename_i wal hwal
      exact .rolledBack hsent hd hwal rfl rfl rfl ⟨rfl, .inl rfl⟩
  rename_i hd
  split
  · exact .kept rfl rfl rfl ⟨hterm, hid⟩
  split
  · exact .kept rfl rfl rfl ⟨hterm, hid⟩
  have hlast : q.lastLogId = req.lastLogIdSent := by omega
  unfold appendNew
  split
  · rename_i p' happ
    rcases appendToWal_cases happ with ⟨_, rfl⟩ | ⟨h, _⟩ | ⟨h, _⟩
    · exact .kept rfl rfl rfl ⟨hterm, hid⟩
    · cases h
    · cases h
  rename_i p' happ
  split
  · -- only a request without logs can end in the failed `CHECK`
    rename_i hcheck
    rcases appendToWal_cases happ with ⟨h, _⟩ | ⟨_, _, rfl⟩ | ⟨_, _, hne, hnext, _⟩
    · cases h
    · exact .kept rfl rfl rfl ⟨hterm, hid⟩
    · rw [Log.lastLogId_of_ne_nil hne] at hcheck
      omega
  · exact .appended (Bool.eq_false_iff.mpr hd) hlast happ (by omega) rfl rfl

/-- The codes of an answer that does not refuse the leader. -/
def accepts (code : ErrorCode) : Prop :=
  code = .succeeded ∨ code = .eLogGap ∨ code = .eLogStale

/-- A request is refused, and then nothing changes, or it is handled. -/
theorem processAppendLogRequest_cases (hrun : p.status = .running)
    (hsnap : req.sendingSnapshot = false) (recent commitOk : Bool) :
    ((p.processAppendLogRequest req recent commitOk).part = p ∧
        (p.processAppendLogRequest req recent commitOk).passed = [] ∧
        (p.processAppendLogRequest req recent commitOk).since = none ∧
        ¬ accepts (p.processAppendLogRequest req recent commitOk).resp.errorCode) ∨
      (p.verifyLeader req recent).2 = .succeeded ∧ ∃ q, p.Receives req q ∧
        Handled q req commitOk (p.processAppendLogRequest req recent commitOk) := by
  unfold processAppendLogRequest
  simp only [hrun]
  rcases p.verifyLeader_cases req recent with ⟨code, heq, hcode⟩ | ⟨q, heq, hq⟩
  · left
    rw [heq]
    rcases hcode with rfl | rfl
    · exact ⟨rfl, rfl, rfl, by simp [accepts]⟩
    · exact ⟨rfl, rfl, rfl, by simp [accepts]⟩
  right
  rw [heq]
  refine ⟨rfl, ?_⟩
  obtain ⟨wal, role, leader, hqeq, -⟩ := hq.eq
  have hst : q.status = .running := by rw [hqeq]; exact hrun
  have hterm : p.currentResponse.lastLogTerm = q.lastLogTerm := by rw [hqeq]; rfl
  have hid : p.currentResponse.lastLogId = q.lastLogId ∨ q.lastLogId < q.committedLogId := by
    rw [hqeq]
    simp only [currentResponse]
    split
    · rename_i hlt; exact .inr hlt
    · exact .inl rfl
  simp only [hsnap, hst, false_and, if_false, reduceCtorEq]
  unfold appendRunning
  split
  · rename_i hlt
    split_ifs with hgt
    · exact ⟨q, ⟨q, hq, .inl rfl⟩, .kept rfl rfl rfl ⟨hterm, hid⟩⟩
    · exact ⟨q.reset, ⟨q, hq, .inr ⟨rfl, hlt, Nat.lt_of_not_le hgt⟩⟩,
        compareLast_handled q.reset req _ commitOk (Nat.zero_le _) rfl (.inl rfl)⟩
  · rename_i hge
    exact ⟨q, ⟨q, hq, .inl rfl⟩,
      compareLast_handled q req _ commitOk (Nat.le_of_not_lt hge) hterm hid⟩

/-- How the follower commits: not at all, in vain, or up to what the leader has
committed. -/
theorem followerCommit_cases (p : RaftPart) (req : AppendLogRequest) (resp : AppendLogResponse)
    (commitOk : Bool) :
    (p.followerCommit req resp commitOk).resp.lastLogId = resp.lastLogId ∧
      (p.followerCommit req resp commitOk).resp.lastLogTerm = resp.lastLogTerm ∧
      (((p.followerCommit req resp commitOk).part = p ∧
          (p.followerCommit req resp commitOk).passed = []) ∨
        p.committedLogId < min p.lastLogId req.committedLogId ∧
        (p.followerCommit req resp commitOk).passed =
          p.wal.iterator (p.committedLogId + 1) (min p.lastLogId req.committedLogId) ∧
        ((p.followerCommit req resp commitOk).part = p ∨
          ∃ role leader, (p.followerCommit req resp commitOk).part =
              { p with role := role, leader := leader,
                       committedLogId := min p.lastLogId req.committedLogId } ∧
            (role = p.role ∨ role = .follower))) := by
  unfold followerCommit
  split
  · simp only
    split
    · exact ⟨rfl, rfl, .inl ⟨rfl, rfl⟩⟩
    split
    · obtain ⟨role, leader, heq, hrole⟩ := p.commitLogs_eq
        (p.wal.iterator (p.committedLogId + 1) (min p.lastLogId req.committedLogId))
      refine ⟨rfl, rfl, .inr ⟨by omega, rfl, .inr ⟨role, leader, ?_, hrole⟩⟩⟩
      simp [heq]
    · exact ⟨rfl, rfl, .inr ⟨by omega, rfl, .inl rfl⟩⟩
  · exact ⟨rfl, rfl, .inl ⟨rfl, rfl⟩⟩

theorem Handled.tellsLast {out : AppendOutcome} (h : Handled q req commitOk out) :
    TellsLast out := by
  cases h with
  | kept _ _ _ htells | rolledBack _ _ _ _ _ _ htells => exact htells
  | @appended p' resp _ _ _ _ hid hterm =>
    obtain ⟨hid', hterm', h⟩ := p'.syncLast.followerCommit_cases req resp commitOk
    unfold TellsLast
    rw [hid', hterm', hid, hterm]
    rcases h with ⟨h, -⟩ | ⟨-, -, h | ⟨role, leader, h, -⟩⟩
    · rw [h]; exact ⟨rfl, .inl rfl⟩
    · rw [h]; exact ⟨rfl, .inl rfl⟩
    · rw [h]; exact ⟨rfl, .inl rfl⟩

/-! ### What an append request cannot change -/

/-- The two states belong to one partition and are of the same term. -/
structure Alike (p p' : RaftPart) : Prop where
  addr : p'.addr = p.addr
  hosts : p'.hosts = p.hosts
  quorum : p'.quorum = p.quorum
  term : p'.term = p.term
  proposedTerm : p'.proposedTerm = p.proposedTerm

theorem Alike.refl (p : RaftPart) : p.Alike p := ⟨rfl, rfl, rfl, rfl, rfl⟩

theorem Alike.trans (h : p.Alike q) (h' : q.Alike p') : p.Alike p' :=
  ⟨h'.addr.trans h.addr, h'.hosts.trans h.hosts, h'.quorum.trans h.quorum, h'.term.trans h.term,
    h'.proposedTerm.trans h.proposedTerm⟩

theorem appendToWal_alike (h : p.appendToWal id term logs = (p', ok)) : p.Alike p' := by
  rw [appendToWal_eq h]
  exact ⟨rfl, rfl, rfl, rfl, rfl⟩

variable (p : RaftPart) (req : AppendLogRequest) (resp : AppendLogResponse)

theorem followerCommit_alike
    (commitOk : Bool) : p.Alike (p.followerCommit req resp commitOk).part := by
  obtain ⟨-, -, h⟩ := p.followerCommit_cases req resp commitOk
  rcases h with ⟨h, -⟩ | ⟨-, -, h | ⟨role, leader, h, -⟩⟩
  · rw [h]; exact Alike.refl p
  · rw [h]; exact Alike.refl p
  · rw [h]; exact ⟨rfl, rfl, rfl, rfl, rfl⟩

theorem appendWaiting_alike : p.Alike (p.appendWaiting req resp).part := by
  unfold appendWaiting
  split
  · exact Alike.refl p
  split
  · rename_i p' happ
    exact appendToWal_alike happ
  rename_i p' happ
  split
  · exact appendToWal_alike happ
  · exact (appendToWal_alike happ).trans ⟨rfl, rfl, rfl, rfl, rfl⟩

theorem compareLast_alike (commitOk : Bool) : p.Alike (p.compareLast req resp commitOk).part := by
  unfold compareLast
  split
  · unfold rollbackToCommitted
    split
    · exact Alike.refl p
    · exact ⟨rfl, rfl, rfl, rfl, rfl⟩
  split
  · exact Alike.refl p
  split
  · exact Alike.refl p
  unfold appendNew
  split
  · rename_i p' happ
    exact appendToWal_alike happ
  rename_i p' happ
  split
  · exact appendToWal_alike happ
  · have hs : p'.Alike p'.syncLast := ⟨rfl, rfl, rfl, rfl, rfl⟩
    exact (appendToWal_alike happ).trans (hs.trans (followerCommit_alike _ req _ commitOk))

/-- An append request leaves the partition in its term, or takes it to the term
of the request. -/
theorem processAppendLogRequest_alike (recent commitOk : Bool) : ∃ q, (q = p ∨ p.Follows req q) ∧
      q.Alike (p.processAppendLogRequest req recent commitOk).part := by
  unfold processAppendLogRequest
  split
  · exact ⟨p, .inl rfl, Alike.refl p⟩
  split
  · exact ⟨p, .inl rfl, Alike.refl p⟩
  rcases p.verifyLeader_cases req recent with ⟨code, heq, hcode⟩ | ⟨q, heq, hq⟩
  · rw [heq]
    refine ⟨p, .inl rfl, ?_⟩
    rcases hcode with rfl | rfl
    · exact Alike.refl p
    · exact Alike.refl p
  rw [heq]
  refine ⟨q, .inr hq, ?_⟩
  simp only
  split
  · exact ⟨rfl, rfl, rfl, rfl, rfl⟩
  split
  · exact appendWaiting_alike q req _
  unfold appendRunning
  have hreset : q.Alike q.reset := ⟨rfl, rfl, rfl, rfl, rfl⟩
  split
  · split
    · exact Alike.refl q
    · exact hreset.trans (compareLast_alike _ req _ commitOk)
  · exact compareLast_alike _ req _ commitOk

end RaftPart
end K2Graph.Raft
