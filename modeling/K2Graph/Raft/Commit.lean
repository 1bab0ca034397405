import K2Graph.Lib.Run
import K2Graph.Raft.Coverage
import K2Graph.Raft.System

/-!
# Every committed log is applied

One partition on its own, through its whole life: it is a leader, a follower or a
learner, it is sent any request in any order, it receives snapshots, its log is
cleaned, it is stopped and started again.  The other partitions are not modelled:
any request and any result may come.

Whenever `committedLogId_` goes up, `commitLogs` should have been given all logs in
between.  An iterator over logs that are not there any more is simply not valid, and
`commitLogs` succeeds on it, so this rests on the log to start no later than right
after `committedLogId_`.  Nothing in `cleanWAL` sees to that, since it goes by the
age of the files alone.

## Main results

* `Solo.commitComplete_of_covers` — the property, in runs of such steps.
* `Solo.not_commitComplete_cleanedRun` — a run in which logs are skipped.
-/

namespace K2Graph.Raft

open RaftPart

/-! ### The state -/

/-- Logs a leader has written and wants to commit. -/
structure Batch where
  currTerm : ℕ
  lastLogId : ℕ
  committedId : ℕ
  deriving DecidableEq

/-- How far the loop that `replicatingLogs_` guards has come. -/
inductive Loop
  | idle
  /-- The logs are handed to `appendLogsInternal`. -/
  | collected (firstId termId : ℕ) (logs : List (ClusterID × LogMsg))
  /-- The logs are written, and handed to `replicateLogs`. -/
  | written (b : Batch)
  /-- `replicateLogs` waits for the hosts. -/
  | replicating (b : Batch)
  deriving DecidableEq

/-- `committedLogId_` was set after `commitLogs` succeeded. -/
structure Advance where
  /-- What it was. -/
  since : ℕ
  /-- What it is. -/
  upTo : ℕ
  /-- What `commitLogs` was given. -/
  batch : List (Entry LogMsg × ℕ)
  deriving DecidableEq

/-- One partition with its threads. -/
structure Solo where
  /-- The partition. -/
  part : RaftPart
  /-- Its calls of `leaderElection`. -/
  elections : List Election
  /-- The loop of the leader. -/
  loop : Loop
  /-- `statusPolling` has found that it has to call `cleanupSnapshot`. -/
  cleanup : Bool
  /-- `NebulaStore::cleanWAL` has found that it may call `cleanWAL`. -/
  cleaning : Bool
  /-- The process is running. -/
  up : Bool
  /-- What the last action committed. -/
  advance : Option Advance

namespace Solo

/-- A partition right after `start`. -/
def started (part : RaftPart) : Solo where
  part := part
  elections := []
  loop := .idle
  cleanup := false
  cleaning := false
  up := true
  advance := none

def init (addr : HostAddr) (peers : List HostAddr) (asLearner : Bool) (startTimeMs : ℕ) : Solo :=
  started (restart addr peers asLearner Log.empty 0 startTimeMs)

/-! ### The steps -/

variable (s : Solo)

/-- `statusPolling` finds that an election is needed. -/
def startElection (timeout : Bool) : Option Solo :=
  if s.elections.any fun e => e.polling && decide (e.stage ≠ .finished) then none
  else
    let (p, needed) := s.part.needToStartElection timeout
    some { s with part := p, elections := if needed then s.elections ++ [⟨true, .starting⟩]
                                          else s.elections }

/-- The task `preProcessTransLeader` handed to `bgWorkers_` starts. -/
def transferLeader : Option Solo :=
  if s.part.transferTasks = 0 then none
  else
    some { s with part := { s.part with transferTasks := s.part.transferTasks - 1,
                                        role := .candidate, leader := noHost },
                  elections := s.elections ++ [⟨false, .starting⟩] }

/-- `leaderElection` calls `prepareElectionRequest`. -/
def prepareElection (eid : ℕ) : Option Solo :=
  match s.elections[eid]? with
  | some ⟨polling, .starting⟩ =>
      match s.part.prepareElectionRequest with
      | (p, none) =>
          some { s with part := p, elections := s.elections.set eid ⟨polling, .abandoned⟩ }
      | (p, some req) =>
          some { s with part := p, elections := s.elections.set eid ⟨polling, .asking req []⟩ }
  | _ => none

/-- `leaderElection` goes back to the follower role. -/
def giveUpElection (eid : ℕ) : Option Solo :=
  match s.elections[eid]? with
  | some ⟨polling, .abandoned⟩ =>
      some { s with part := { s.part with role := .follower },
                    elections := s.elections.set eid ⟨polling, .finished⟩ }
  | _ => none

/-- `processElectionResponses` runs, after `numSucceeded` votes were given. -/
def processElection (eid numSucceeded : ℕ) : Option Solo :=
  match s.elections[eid]? with
  | some ⟨polling, .asking req _⟩ =>
      let p := s.part.processElectionResponses numSucceeded req.term
      some { s with part := p,
                    elections := s.elections.set eid
                      ⟨polling, if p.role = .leader then .elected else .finished⟩ }
  | _ => none

/-- `leaderElection` sets `leader_` after the election is won. -/
def announceLeader (eid : ℕ) : Option Solo :=
  match s.elections[eid]? with
  | some ⟨polling, .elected⟩ =>
      some { s with part := if s.part.status = .running then { s.part with leader := s.part.addr }
                            else s.part,
                    elections := s.elections.set eid ⟨polling, .finished⟩ }
  | _ => none

def appendLog (req : AppendLogRequest) (recent commitOk : Bool) : Solo :=
  let out := s.part.processAppendLogRequest req recent commitOk
  { s with part := out.part, up := !out.crashed,
           advance := out.since.map fun a => ⟨a, out.part.committedLogId, out.passed⟩ }

/-- `appendLogAsync` hands logs to the loop; `canAppendLogs` asks for a running
leader. -/
def appendLogAsync (logs : List (ClusterID × LogMsg)) : Option Solo :=
  if s.loop ≠ .idle ∨ logs = [] ∨ s.part.status ≠ .running ∨ s.part.role ≠ .leader then none
  else some { s with loop := .collected (s.part.lastLogId + 1) s.part.term logs }

/-- `appendLogsInternal` writes the logs. -/
def appendLogsInternal : Option Solo :=
  match s.loop with
  | .collected firstId termId logs =>
      if s.part.status ≠ .running ∨ s.part.role ≠ .leader ∨ s.part.term ≠ termId then
        some { s with loop := .idle }
      else
        match s.part.appendToWal firstId termId logs with
        | (p, false) => some { s with part := p, loop := .idle }
        | (p, true) =>
            some { s with
              part := p
              loop := .written ⟨s.part.term, p.wal.lastLogId, s.part.committedLogId⟩ }
  | _ => none

/-- `replicateLogs` asks every host to append the logs. -/
def replicateLogs : Option Solo :=
  match s.loop with
  | .written b =>
      if s.part.status ≠ .running ∨ s.part.role ≠ .leader then some { s with loop := .idle }
      else some { s with loop := .replicating b }
  | _ => none

/-- `processAppendLogResponses` runs, after `numSucceeded` hosts have accepted the
logs; `more` are the logs that have come in the meantime. -/
def processAppendLogResponses (numSucceeded : ℕ) (commitOk : Bool)
    (more : List (ClusterID × LogMsg)) : Option Solo :=
  match s.loop with
  | .replicating b =>
      if numSucceeded < s.part.quorum then some { s with loop := .written b }
      else if s.part.status ≠ .running ∨ s.part.role ≠ .leader ∨ b.currTerm ≠ s.part.term then
        some { s with loop := .idle }
      else
        let p := s.part.leaderCommit b.currTerm b.committedId b.lastLogId commitOk
        some { s with
          part := p
          loop := if more = [] then .idle else .collected (b.lastLogId + 1) b.currTerm more
          up := commitOk
          advance := if commitOk then
              some ⟨s.part.committedLogId, p.committedLogId,
                s.part.leaderBatch b.committedId b.lastLogId⟩
            else none }
  | _ => none

/-- `cleanWAL` removes the files of the first `k` logs, but never the last file. -/
def cleanWAL (k : ℕ) : Option Solo :=
  if s.cleaning = false ∨ s.part.wal.entries.length ≤ k then none
  else some { s with part := { s.part with wal := s.part.wal.cleanWAL k }, cleaning := false }

inductive Step
  | startElection (timeout : Bool)
  | transferLeader
  | prepareElection (eid : ℕ)
  | giveUpElection (eid : ℕ)
  | processElection (eid numSucceeded : ℕ)
  | announceLeader (eid : ℕ)
  | askForVote (req : AskForVoteRequest) (recent : Bool)
  | appendLog (req : AppendLogRequest) (recent commitOk : Bool)
  | sendSnapshot (req : SendSnapshotRequest) (engineOk : Bool)
  | needToCleanupSnapshot (timeout : Bool)
  | cleanupSnapshot
  | appendLogAsync (logs : List (ClusterID × LogMsg))
  | appendLogsInternal
  | replicateLogs
  | processAppendLogResponses (numSucceeded : ℕ) (commitOk : Bool)
      (more : List (ClusterID × LogMsg))
  | needToCleanWal (sendingSnapshot : Bool)
  | cleanWAL (k : ℕ)
  | stop
  | start (peers : List HostAddr) (asLearner : Bool) (committed startTimeMs : ℕ)

def perform : Step → Option Solo
  | .startElection timeout => s.startElection timeout
  | .transferLeader => s.transferLeader
  | .prepareElection eid => s.prepareElection eid
  | .giveUpElection eid => s.giveUpElection eid
  | .processElection eid numSucceeded => s.processElection eid numSucceeded
  | .announceLeader eid => s.announceLeader eid
  | .askForVote req recent =>
      some { s with part := (s.part.processAskForVoteRequest req recent).1 }
  | .appendLog req recent commitOk => some (s.appendLog req recent commitOk)
  | .sendSnapshot req engineOk =>
      some { s with part := (s.part.processSendSnapshotRequest req engineOk).1 }
  | .needToCleanupSnapshot timeout =>
      some { s with cleanup := s.part.needToCleanupSnapshot timeout }
  | .cleanupSnapshot =>
      if s.cleanup then some { s with part := s.part.cleanupSnapshot, cleanup := false } else none
  | .appendLogAsync logs => s.appendLogAsync logs
  | .appendLogsInternal => s.appendLogsInternal
  | .replicateLogs => s.replicateLogs
  | .processAppendLogResponses numSucceeded commitOk more =>
      s.processAppendLogResponses numSucceeded commitOk more
  | .needToCleanWal sendingSnapshot =>
      some { s with cleaning := s.part.needToCleanWal sendingSnapshot }
  | .cleanWAL k => s.cleanWAL k
  | .stop => some { s with part := s.part.stop }
  | .start _ _ _ _ => none

/-- One step.  A partition that was stopped, or whose process has ended, is started
again over its log; the engine says what is committed. -/
def step : Step → Option Solo
  | .start peers asLearner committed startTimeMs =>
      if s.up ∧ s.part.status ≠ .stopped then none
      else
        some (started
          (restart s.part.addr peers asLearner s.part.wal.reopen committed startTimeMs))
  | act => if s.up then perform { s with advance := none } act else none

/-! ### The property and the condition -/

/-- Whenever `committedLogId_` goes up, `commitLogs` was given the logs in between,
each once and in the order of their ids. -/
def CommitComplete : Prop :=
  ∀ adv ∈ s.advance, adv.since < adv.upTo →
    adv.batch.map Prod.snd = List.range' (adv.since + 1) (adv.upTo - adv.since) ∧
      ∀ e id, (e, id) ∈ adv.batch → s.part.wal.get? id = some e

/-- The step does not leave a log that starts later than right after what is
committed, and takes the partition to no term it has seen. -/
def covers : Step → Bool
  | .processElection eid numSucceeded =>
      match s.elections[eid]? with
      | some ⟨_, .asking req _⟩ => !s.part.isElected numSucceeded || decide (s.part.term < req.term)
      | _ => true
  | .askForVote req _ => decide (s.part.term < req.term ∨ req.term ≤ s.part.voteTerm)
  | .sendSnapshot req _ =>
      decide (req.done = false ∨ s.part.status ≠ .waitingSnapshot ∨
        s.part.wal.lastLogId ≤ req.committedLogId ∨
        s.part.wal.firstLogId ≤ req.committedLogId + 1)
  | .cleanupSnapshot => decide (s.part.role ≠ .leader)
  | .cleanWAL k =>
      decide (s.part.status ≠ .running ∨ s.part.wal.firstLogId + k ≤ s.part.committedLogId + 1)
  | .start _ _ committed _ =>
      decide (s.part.wal.lastLogId < committed ∨ s.part.wal.firstLogId ≤ committed + 1)
  | _ => true

end Solo

/-! ### The invariant -/

/-- If the partition still leads in the term of the batch, nothing has been written
or committed since. -/
def Batch.Fits (p : RaftPart) (b : Batch) : Prop :=
  b.currTerm ≤ p.term ∧
    (p.role = .leader → p.term = b.currTerm →
      b.committedId = p.committedLogId ∧ b.lastLogId = p.wal.lastLogId ∧ p.wal.entries ≠ [])

/-- What the loop has read is up to date if the partition still leads in the same
term. -/
def Loop.Fits (p : RaftPart) : Loop → Prop
  | .idle => True
  | .collected firstId termId logs =>
      logs ≠ [] ∧ termId ≤ p.term ∧
        (p.role = .leader → p.term = termId → firstId = p.lastLogId + 1)
  | .written b => b.Fits p
  | .replicating b => b.Fits p

theorem Batch.Fits.steady {b : Batch} (h : b.Fits p) (hs : p.Steady p') : b.Fits p' := by
  refine ⟨h.1.trans hs.term, fun hrole hterm => ?_⟩
  have hle := hs.term
  have hb := h.1
  obtain ⟨hrole', -, hcommitted, hlast, hne⟩ := hs.leader hrole (by omega)
  obtain ⟨h1, h2, h3⟩ := h.2 hrole' (by omega)
  exact ⟨h1.trans hcommitted.symm, h2.trans hlast.symm, hne h3⟩

theorem Loop.Fits.steady {l : Loop} (h : l.Fits p) (hs : p.Steady p') : l.Fits p' := by
  cases l with
  | idle => trivial
  | collected firstId termId logs =>
    obtain ⟨hne, hle, hfirst⟩ := h
    refine ⟨hne, hle.trans hs.term, fun hrole hterm => ?_⟩
    have := hs.term
    obtain ⟨hrole', hlast, -⟩ := hs.leader hrole (by omega)
    rw [hlast]
    exact hfirst hrole' (by omega)
  | written b | replicating b => exact Batch.Fits.steady h hs

namespace Solo

/-- The invariant of a running process. -/
structure Inv (s : Solo) : Prop where
  ready : s.part.Ready
  fits : s.loop.Fits s.part

variable {s s' : Solo} {act : Step}

theorem Inv.of_part (h : s.Inv) (hp : s'.part.Ready ∧ s.part.Steady s'.part)
    (hloop : s'.loop = s.loop) : s'.Inv :=
  ⟨hp.1, hloop ▸ h.fits.steady hp.2⟩

theorem commitComplete_of_none (h : s.advance = none) : s.CommitComplete := by
  intro adv hadv
  rw [h] at hadv
  cases hadv

theorem Inv.appendLogsInternal (h : s.Inv) (hs : s.appendLogsInternal = some s') :
    s'.Inv ∧ s'.advance = s.advance := by
  unfold Solo.appendLogsInternal at hs
  split at hs
  · rename_i firstId termId logs hloop
    have hfits := h.fits
    rw [hloop] at hfits
    obtain ⟨hne, -, hfirst⟩ := hfits
    split_ifs at hs with hlead
    · cases hs
      exact ⟨⟨h.ready, trivial⟩, rfl⟩
    have hst : s.part.status = .running := not_not.mp fun hst => hlead (.inl hst)
    have hrole : s.part.role = .leader := not_not.mp fun hr => hlead (.inr (.inl hr))
    have hterm : s.part.term = termId := not_not.mp fun ht => hlead (.inr (.inr ht))
    rw [hfirst hrole hterm] at hs
    split at hs
    · rename_i p happ
      cases hs
      rcases appendToWal_cases happ with ⟨-, rfl⟩ | ⟨h0, -⟩ | ⟨h0, -⟩
      · exact ⟨⟨h.ready, trivial⟩, rfl⟩
      · cases h0
      · cases h0
    · rename_i p happ
      cases hs
      obtain ⟨hentries, hready⟩ := h.ready.appendToWal hne happ
      have hp := appendToWal_eq happ
      refine ⟨⟨hready hst, ?_, fun _ _ => ⟨?_, rfl, hentries⟩⟩, rfl⟩
      · rw [hp]
      · rw [hp]
  · cases hs

/-- **What a leader commits is complete.** -/
theorem Inv.processAppendLogResponses (h : s.Inv) (hnil : s.advance = none)
    (hs : s.processAppendLogResponses numSucceeded commitOk more = some s') :
    (s'.up = true → s'.Inv) ∧ s'.CommitComplete := by
  unfold Solo.processAppendLogResponses at hs
  split at hs
  · rename_i b hloop
    have hfits : b.Fits s.part := by
      have hfits := h.fits
      rw [hloop] at hfits
      exact hfits
    split at hs
    · cases hs
      exact ⟨fun _ => ⟨h.ready, hfits⟩, commitComplete_of_none hnil⟩
    split at hs
    · cases hs
      exact ⟨fun _ => ⟨h.ready, trivial⟩, commitComplete_of_none hnil⟩
    rename_i hlead
    have hst : s.part.status = .running := not_not.mp fun hst => hlead (.inl hst)
    have hrole : s.part.role = .leader := not_not.mp fun hr => hlead (.inr (.inl hr))
    have hterm : b.currTerm = s.part.term := not_not.mp fun ht => hlead (.inr (.inr ht))
    obtain ⟨hcommitted, hlast, hne⟩ := hfits.2 hrole hterm.symm
    have hcov := h.ready.covered hst
    cases hs
    cases commitOk with
    | false => exact ⟨fun hup => (nomatch hup), commitComplete_of_none rfl⟩
    | true =>
      obtain ⟨role, leader, heq, hrole'⟩ := commitLogs_eq
        { s.part with lastLogId := b.lastLogId, lastLogTerm := b.currTerm }
        (s.part.leaderBatch b.committedId b.lastLogId)
      have hp : s.part.leaderCommit b.currTerm b.committedId b.lastLogId true =
          { s.part with lastLogId := b.lastLogId, lastLogTerm := b.currTerm, role := role,
                        leader := leader, committedLogId := b.lastLogId } := by
        simp [leaderCommit, heq]
      simp only [hp]
      refine ⟨fun _ => ⟨ready_of_covered hst ⟨fun _ => ?_, fun h0 => absurd h0 hne⟩, ?_⟩,
        ?_⟩
      · simp only [hlast]
        rw [Log.firstLogId_of_ne_nil hne, Log.lastLogId_of_ne_nil hne, Log.next]
        omega
      · split_ifs with hmore
        · trivial
        · exact ⟨hmore, hterm.le, fun _ _ => rfl⟩
      · intro adv hadv hlt
        cases hadv
        simp only [hcommitted, hlast] at hlt ⊢
        exact ⟨hcov.map_snd_iterator hlt (le_refl _),
          fun e id hmem => (Log.mem_iterator hmem).2.2⟩
  · cases hs

theorem Inv.election (h : s.Inv) (hok : s.covers act = true)
    (hact : (∃ b, act = .startElection b) ∨ act = .transferLeader ∨
      (∃ i, act = .prepareElection i) ∨ (∃ i, act = .giveUpElection i) ∨
      (∃ i n, act = .processElection i n) ∨ ∃ i, act = .announceLeader i)
    (hs : s.perform act = some s') : s'.Inv ∧ s'.advance = s.advance := by
  rcases hact with ⟨timeout, rfl⟩ | rfl | ⟨i, rfl⟩ | ⟨i, rfl⟩ | ⟨i, n, rfl⟩ | ⟨i, rfl⟩
  · simp only [perform, startElection] at hs
    split at hs
    · cases hs
    · cases hs
      exact ⟨h.of_part (h.ready.needToStartElection timeout) rfl, rfl⟩
  · simp only [perform, transferLeader] at hs
    split at hs
    · cases hs
    · cases hs
      exact ⟨h.of_part (h.ready.demote (by simp) noHost _) rfl, rfl⟩
  · simp only [perform, prepareElection] at hs
    have hp := h.ready.prepareElectionRequest
    split at hs
    · split at hs
      · rename_i p heq
        cases hs
        rw [heq] at hp
        exact ⟨h.of_part hp rfl, rfl⟩
      · rename_i p req heq
        cases hs
        rw [heq] at hp
        exact ⟨h.of_part hp rfl, rfl⟩
    · cases hs
  · simp only [perform, giveUpElection] at hs
    split at hs
    · cases hs
      exact ⟨h.of_part (h.ready.demote (by simp) s.part.leader s.part.transferTasks) rfl, rfl⟩
    · cases hs
  · simp only [perform, processElection] at hs
    split at hs
    · rename_i polling req results heq
      cases hs
      refine ⟨h.of_part (h.ready.processElectionResponses fun helected => ?_) rfl, rfl⟩
      simpa [covers, heq, helected] using hok
    · cases hs
  · simp only [perform, announceLeader] at hs
    split at hs
    · cases hs
      refine ⟨h.of_part ?_ rfl, rfl⟩
      split
      · exact ⟨⟨h.ready.leader, fun hst => ⟨(h.ready.covered hst).first,
          (h.ready.covered hst).last⟩, h.ready.waiting⟩,
          ⟨le_refl _, fun hrole _ => ⟨hrole, rfl, rfl, rfl, id⟩⟩⟩
      · exact ⟨h.ready, Steady.refl s.part⟩
    · cases hs

theorem Inv.perform (h : s.Inv) (hnil : s.advance = none) (hok : s.covers act = true)
    (hs : s.perform act = some s') : (s'.up = true → s'.Inv) ∧ s'.CommitComplete := by
  -- all but two steps commit nothing
  have hquiet : s'.Inv ∧ s'.advance = s.advance → (s'.up = true → s'.Inv) ∧ s'.CommitComplete :=
    fun hq => ⟨fun _ => hq.1, commitComplete_of_none (hq.2.trans hnil)⟩
  cases act with
  | startElection b => exact hquiet (h.election hok (.inl ⟨b, rfl⟩) hs)
  | transferLeader => exact hquiet (h.election hok (.inr (.inl rfl)) hs)
  | prepareElection i => exact hquiet (h.election hok (.inr (.inr (.inl ⟨i, rfl⟩))) hs)
  | giveUpElection i => exact hquiet (h.election hok (.inr (.inr (.inr (.inl ⟨i, rfl⟩)))) hs)
  | processElection i n =>
    exact hquiet (h.election hok (.inr (.inr (.inr (.inr (.inl ⟨i, n, rfl⟩))))) hs)
  | announceLeader i =>
    exact hquiet (h.election hok (.inr (.inr (.inr (.inr (.inr ⟨i, rfl⟩))))) hs)
  | askForVote req recent =>
    cases hs
    exact hquiet ⟨h.of_part
      (h.ready.processAskForVoteRequest (of_decide_eq_true hok) recent) rfl, rfl⟩
  | appendLog req recent commitOk =>
    cases hs
    refine ⟨fun hup => ?_, fun adv hadv _ => ?_⟩
    · refine h.of_part ?_ rfl
      rcases h.ready.processAppendLogRequest req recent commitOk with hc | hp
      · rw [show (s.appendLog req recent commitOk).up = !_ from rfl, hc] at hup
        cases hup
      · exact hp
    · obtain ⟨a, ha, rfl⟩ := Option.map_eq_some_iff.mp (Option.mem_def.mp hadv)
      exact h.ready.since_processAppendLogRequest ha
  | sendSnapshot req engineOk =>
    cases hs
    exact hquiet ⟨h.of_part
      (h.ready.processSendSnapshotRequest (of_decide_eq_true hok) engineOk) rfl, rfl⟩
  | needToCleanupSnapshot timeout | needToCleanWal b =>
    cases hs
    exact hquiet ⟨⟨h.ready, h.fits⟩, rfl⟩
  | cleanupSnapshot =>
    simp only [Solo.perform] at hs
    split at hs
    · cases hs
      have hrole : s.part.role ≠ .leader := of_decide_eq_true hok
      exact hquiet ⟨h.of_part ⟨ready_of_covered rfl (covered_of_nil rfl (le_refl 0)),
        .of_not_leader (le_refl _) hrole⟩ rfl, rfl⟩
    · cases hs
  | appendLogAsync logs =>
    simp only [Solo.perform, Solo.appendLogAsync] at hs
    split at hs
    · cases hs
    · rename_i hc
      cases hs
      exact hquiet ⟨⟨h.ready, fun h0 => hc (.inr (.inl h0)), le_refl _, fun _ _ => rfl⟩, rfl⟩
  | appendLogsInternal => exact hquiet (h.appendLogsInternal hs)
  | replicateLogs =>
    simp only [Solo.perform, Solo.replicateLogs] at hs
    split at hs
    · rename_i b hloop
      have hfits := h.fits
      rw [hloop] at hfits
      split at hs
      · cases hs
        exact hquiet ⟨⟨h.ready, trivial⟩, rfl⟩
      · cases hs
        exact hquiet ⟨⟨h.ready, hfits⟩, rfl⟩
    · cases hs
  | processAppendLogResponses n commitOk more => exact h.processAppendLogResponses hnil hs
  | cleanWAL k =>
    simp only [Solo.perform, Solo.cleanWAL] at hs
    split at hs
    · cases hs
    rename_i hc
    cases hs
    have hk : k < s.part.wal.entries.length := Nat.lt_of_not_le fun hle => hc (.inr hle)
    exact hquiet ⟨h.of_part (h.ready.cleanWAL hk (of_decide_eq_true hok)) rfl, rfl⟩
  | stop =>
    cases hs
    refine hquiet ⟨h.of_part ⟨⟨fun hl => (nomatch hl), fun hst => (nomatch hst),
      fun hst => (nomatch hst)⟩, .of_not_leader (le_refl _) fun hl => (nomatch hl)⟩ rfl, rfl⟩
  | start => cases hs

theorem inv_started (h : p.Ready) : (started p).Inv := ⟨h, trivial⟩

theorem inv_step (h : s.up = true → s.Inv) (hok : s.covers act = true)
    (hs : s.step act = some s') : (s'.up = true → s'.Inv) ∧ s'.CommitComplete := by
  by_cases hstart : ∃ peers asLearner committed t, act = .start peers asLearner committed t
  · obtain ⟨peers, asLearner, committed, t, rfl⟩ := hstart
    simp only [step] at hs
    split at hs
    · cases hs
    · cases hs
      refine ⟨fun _ => inv_started (ready_restart _ _ _ _ ?_), commitComplete_of_none rfl⟩
      exact of_decide_eq_true hok
  have hs' : (if s.up then Solo.perform { s with advance := none } act else none) = some s' := by
    cases act with
    | start peers asLearner committed t =>
      exact absurd ⟨peers, asLearner, committed, t, rfl⟩ hstart
    | _ => exact hs
  split at hs'
  · rename_i hup
    have hok' : covers { s with advance := none } act = true := by
      rw [← hok]
      cases act <;> rfl
    have hinv : Inv { s with advance := none } := ⟨(h hup).ready, (h hup).fits⟩
    exact hinv.perform rfl hok' hs'
  · cases hs'

/-- **Every committed log is applied.**  In every run of a partition whose steps all
leave the log start no later than right after what is committed, `commitLogs` is
given all logs whenever `committedLogId_` goes up. -/
theorem commitComplete_of_covers (addr : HostAddr) (peers : List HostAddr) (asLearner : Bool)
    (startTimeMs : ℕ) {s : Solo}
    (h : Reach step (fun s act => s.covers act = true) (init addr peers asLearner startTimeMs) s) :
    s.CommitComplete := by
  refine h.last (fun t ht => ?_) (commitComplete_of_none rfl)
    fun t act u hinv hok hs => (inv_step hinv hok hs).2
  refine ht.invariant (fun _ => inv_started (ready_restart _ _ _ _ (.inr (Nat.zero_le _))))
    fun t act u hinv hok hs => (inv_step hinv hok hs).1

/-- A follower of `(2, 2)` receives three logs, of which the first two are committed,
and its log is cleaned up to the second one before the third is committed. -/
def committedRun (committed : ℕ) : List Step :=
  [.appendLog { currentTerm := 1, lastLogId := 3, committedLogId := committed, leader := (2, 2),
                lastLogTermSent := 0, lastLogIdSent := 0, logTerm := 1,
                logStrList := [(0, .data [1]), (0, .data [2]), (0, .data [3])] } false true,
   .needToCleanWal false, .cleanWAL 2,
   .appendLog { currentTerm := 1, lastLogId := 3, committedLogId := 3, leader := (2, 2),
                lastLogTermSent := 1, lastLogIdSent := 3 } false true]

theorem commitComplete_committedRun :
    ∃ s, Reach step (fun s act => s.covers act = true) (init (1, 1) [(2, 2), (3, 3)] false 0) s ∧
      s.advance = some ⟨2, 3, [(⟨1, 0, .data [3]⟩, 3)]⟩ ∧ s.CommitComplete := by
  obtain ⟨s, hreach, hs⟩ := exists_reach_of_run step (fun s act => s.covers act = true)
    (init (1, 1) [(2, 2), (3, 3)] false 0)
    (fun s => decide (s.advance = some ⟨2, 3, [(⟨1, 0, .data [3]⟩, 3)]⟩))
    (committedRun 2) (by decide +kernel)
  exact ⟨s, hreach, of_decide_eq_true hs, commitComplete_of_covers _ _ _ _ hreach⟩

/-- **Committed logs may be skipped**: the follower of `committedRun` has committed
nothing when its log is cleaned, and then commits all three logs without `commitLogs`
being given any. -/
theorem not_commitComplete_cleanedRun :
    ∃ s, Reach step (fun _ _ => True) (init (1, 1) [(2, 2), (3, 3)] false 0) s ∧
      ¬ s.CommitComplete := by
  obtain ⟨s, hreach, hs⟩ := exists_reach_of_run step (fun _ _ => True)
    (init (1, 1) [(2, 2), (3, 3)] false 0)
    (fun s => decide (s.advance = some ⟨0, 3, []⟩)) (committedRun 0) (by decide +kernel)
  refine ⟨s, hreach, fun hc => ?_⟩
  have hids := (hc _ (of_decide_eq_true hs) (by decide)).1
  cases hids

end Solo
end K2Graph.Raft
