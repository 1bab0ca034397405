import K2Graph.Raft.PartSpec
import Mathlib.Algebra.GroupWithZero.Nat

/-!
# The life of a partition

What the group of a fixed membership leaves out: a partition is stopped and
started again over the log it finds, and it receives a snapshot.

What the storage engine says is an argument: whether it takes the rows of a
snapshot, and what it has committed when the partition starts.

## Main results

* `RaftPart.processSendSnapshotRequest_cases` — the ways a chunk of a snapshot can
  be handled.
* `RaftPart.processAppendLogRequest_waiting`,
  `RaftPart.processAppendLogRequest_snapshot` — append requests around a snapshot.
-/

namespace K2Graph

/-- The log a new `FileBasedWal` finds in the directory of an old one.  Only
`lastLogTerm_` is not kept: it is read from the last record. -/
def Log.reopen {α : Type} (l : Log α) : Log α :=
  { l with lastLogTerm := (l.entries.getLast?.map Entry.term).getD 0 }

namespace Raft

structure SendSnapshotRequest where
  /-- The term of the sender. -/
  term : ℕ
  /-- The last log the snapshot includes. -/
  committedLogId : ℕ
  /-- The term of that log. -/
  committedLogTerm : ℕ
  /-- The IP and port of the sender. -/
  leader : HostAddr
  /-- The rows of this chunk. -/
  rows : List (List UInt8)
  /-- The bytes sent so far. -/
  totalSize : ℕ
  /-- The rows sent so far. -/
  totalCount : ℕ
  /-- This is the last chunk. -/
  done : Bool

namespace RaftPart

variable {p : RaftPart} {req : AppendLogRequest}

/-! ### Starting and stopping -/

/-- `start`, for a new partition over the log `wal`; `committed` is what
`lastCommittedLogId()` says. -/
def restart (addr : HostAddr) (peers : List HostAddr) (asLearner : Bool) (wal : Log LogMsg)
    (committed startTimeMs : ℕ) : RaftPart where
  addr := addr
  hosts := peers.map fun a => ⟨a, false⟩
  quorum := (peers.length + 1) / 2
  status := .running
  role := if asLearner then .learner else .follower
  leader := noHost
  term := wal.lastLogTerm
  proposedTerm := wal.lastLogTerm
  lastLogId := if wal.lastLogId < committed then committed else wal.lastLogId
  lastLogTerm := wal.lastLogTerm
  committedLogId := committed
  wal := if wal.lastLogId < committed then wal.reset else wal
  startTimeMs := startTimeMs
  transferTasks := 0
  lastTotalCount := 0
  lastTotalSize := 0

section

variable (p : RaftPart)

def stop : RaftPart :=
  { p with status := .stopped, leader := noHost, role := .follower, hosts := [] }

/-! ### Snapshots -/

/-- `Part::commitSnapshot`: how many rows and bytes the engine took. -/
def commitSnapshot (rows : List (List UInt8)) (engineOk : Bool) : ℕ × ℕ :=
  if engineOk then (rows.length, (rows.map List.length).sum) else (0, 0)

variable (req : SendSnapshotRequest)

/-- The part of `processSendSnapshotRequest` that ends the snapshot. -/
def finishSnapshot : RaftPart :=
  { p with
    committedLogId := req.committedLogId
    lastLogId := if p.lastLogId < req.committedLogId then req.committedLogId else p.lastLogId
    lastLogTerm := if p.lastLogId < req.committedLogId then req.committedLogTerm
                   else p.lastLogTerm
    wal := if p.wal.lastLogId ≤ req.committedLogId then p.wal.reset else p.wal
    status := .running }

variable (engineOk : Bool)

/-- The part of `processSendSnapshotRequest` that takes the rows. -/
def receiveRows : RaftPart :=
  { p with lastTotalCount := p.lastTotalCount + (commitSnapshot req.rows engineOk).1
           lastTotalSize := p.lastTotalSize + (commitSnapshot req.rows engineOk).2 }

/-- The part of `processSendSnapshotRequest` that begins to receive a snapshot. -/
def beginSnapshot : RaftPart :=
  if p.status ≠ .waitingSnapshot then { p.reset with status := .waitingSnapshot } else p

/-- `processSendSnapshotRequest`; `engineOk` is what the storage engine says to the
rows. -/
def processSendSnapshotRequest : RaftPart × ErrorCode :=
  if p.status = .stopped then (p, .eBadState)
  else if p.status = .starting then (p, .eNotReady)
  else if p.role ≠ .follower ∧ p.role ≠ .learner then (p, .eBadState)
  else if p.leader ≠ req.leader ∨ p.term ≠ req.term then (p, .eTermOutOfDate)
  else
    let p' := p.beginSnapshot.receiveRows req engineOk
    if p'.lastTotalCount ≠ req.totalCount ∨ p'.lastTotalSize ≠ req.totalSize then
      (p', .ePersistSnapshotFailed)
    else if req.done then (p'.finishSnapshot req, .succeeded)
    else (p', .succeeded)

/-- `needToCleanupSnapshot`; `timeout` says no chunk has come for long enough. -/
def needToCleanupSnapshot (timeout : Bool) : Bool :=
  p.status == .waitingSnapshot && p.role != .leader && timeout

def cleanupSnapshot : RaftPart := { p.reset with status := .running }

/-- `needToCleanWal`; `sendingSnapshot` says some host is being sent a
snapshot. -/
def needToCleanWal (sendingSnapshot : Bool) : Bool :=
  p.status != .starting && p.status != .waitingSnapshot && !sendingSnapshot

/-! ### What they do -/

/-- Beginning to receive a snapshot drops everything, unless it has begun. -/
theorem beginSnapshot_cases : p.status = .waitingSnapshot ∧ p.beginSnapshot = p ∨
      p.status ≠ .waitingSnapshot ∧
        p.beginSnapshot = { p.reset with status := .waitingSnapshot } := by
  unfold beginSnapshot
  split_ifs with h
  · exact .inr ⟨h, rfl⟩
  · exact .inl ⟨not_not.mp h, rfl⟩

/-- A chunk is refused, and then nothing changes, or it is received by one that is
not a leader, and may end the snapshot. -/
theorem processSendSnapshotRequest_cases :
    (p.processSendSnapshotRequest req engineOk).1 = p ∨ (p.role = .follower ∨ p.role = .learner) ∧
        ((p.processSendSnapshotRequest req engineOk).1 = p.beginSnapshot.receiveRows req engineOk ∨
          req.done = true ∧ (p.processSendSnapshotRequest req engineOk).1 =
            (p.beginSnapshot.receiveRows req engineOk).finishSnapshot req) := by
  unfold processSendSnapshotRequest
  split
  · exact .inl rfl
  split
  · exact .inl rfl
  split
  · exact .inl rfl
  rename_i hrole
  split
  · exact .inl rfl
  refine .inr ⟨?_, ?_⟩
  · by_cases hf : p.role = .follower
    · exact .inl hf
    · exact .inr (not_not.mp fun hl => hrole ⟨hf, hl⟩)
  simp only
  split
  · exact .inl rfl
  split_ifs with hdone
  · exact .inr ⟨hdone, rfl⟩
  · exact .inl rfl

/-- Logs that arrive while a snapshot is received are written or not, and nothing
is committed. -/
theorem appendWaiting_cases (req : AppendLogRequest) (resp : AppendLogResponse) :
    (p.appendWaiting req resp).passed = [] ∧ (p.appendWaiting req resp).since = none ∧
      ((p.appendWaiting req resp).crashed = true ∨ (p.appendWaiting req resp).part = p ∨
        ∃ p', p.appendToWal (req.lastLogIdSent + 1) req.logTerm req.logStrList = (p', true) ∧
          (p.appendWaiting req resp).part = p'.syncLast) := by
  unfold appendWaiting
  split
  · exact ⟨rfl, rfl, .inr (.inl rfl)⟩
  split
  · rename_i p' happ
    rcases appendToWal_cases happ with ⟨-, rfl⟩ | ⟨h, -⟩ | ⟨h, -⟩
    · exact ⟨rfl, rfl, .inr (.inl rfl)⟩
    · cases h
    · cases h
  · rename_i p' happ
    split
    · exact ⟨rfl, rfl, .inl rfl⟩
    · exact ⟨rfl, rfl, .inr (.inr ⟨p', happ, rfl⟩)⟩

end

theorem processAppendLogRequest_of_idle (hst : p.status = .stopped ∨ p.status = .starting)
    (req : AppendLogRequest) (recent commitOk : Bool) :
    (p.processAppendLogRequest req recent commitOk).part = p ∧
      (p.processAppendLogRequest req recent commitOk).since = none := by
  unfold processAppendLogRequest
  rcases hst with hst | hst
  · simp [hst]
  · simp [hst]

/-- An append request that announces a snapshot is refused, or makes the partition
drop everything and wait for the snapshot. -/
theorem processAppendLogRequest_snapshot (hrun : p.status = .running)
    (hsnap : req.sendingSnapshot = true) (recent commitOk : Bool) :
    (p.processAppendLogRequest req recent commitOk).since = none ∧
      ((p.processAppendLogRequest req recent commitOk).part = p ∨
        ∃ q, p.Follows req q ∧ (p.processAppendLogRequest req recent commitOk).part =
          { q.reset with status := .waitingSnapshot }) := by
  unfold processAppendLogRequest
  simp only [hrun, reduceCtorEq, if_false]
  rcases p.verifyLeader_cases req recent with ⟨code, heq, hcode⟩ | ⟨q, heq, hq⟩
  · rw [heq]
    rcases hcode with rfl | rfl
    · exact ⟨rfl, .inl rfl⟩
    · exact ⟨rfl, .inl rfl⟩
  · rw [heq]
    obtain ⟨wal, role, leader, hqeq, -⟩ := hq.eq
    have hst : q.status = .running := by rw [hqeq]; exact hrun
    simp only [hsnap, hst, true_and, ne_eq, reduceCtorEq, not_false_eq_true, if_true]
    exact .inr ⟨q, hq, rfl⟩

/-- An append request to a partition that waits for a snapshot is refused, or its
logs are written. -/
theorem processAppendLogRequest_waiting (hst : p.status = .waitingSnapshot)
    (req : AppendLogRequest) (recent commitOk : Bool) :
    (p.processAppendLogRequest req recent commitOk).part = p ∧
        (p.processAppendLogRequest req recent commitOk).since = none ∨
      ∃ q, p.Follows req q ∧ p.processAppendLogRequest req recent commitOk =
        q.appendWaiting req p.currentResponse := by
  unfold processAppendLogRequest
  simp only [hst]
  rcases p.verifyLeader_cases req recent with ⟨code, heq, hcode⟩ | ⟨q, heq, hq⟩
  · rw [heq]
    rcases hcode with rfl | rfl
    · exact .inl ⟨rfl, rfl⟩
    · exact .inl ⟨rfl, rfl⟩
  · rw [heq]
    obtain ⟨wal, role, leader, hqeq, -⟩ := hq.eq
    have hst' : q.status = .waitingSnapshot := by rw [hqeq]; exact hst
    simp only [hst', ne_eq, not_true_eq_false, and_false]
    exact .inr ⟨q, hq, rfl⟩

/-- What `commitLogs` was given when the follower's `committedLogId_` moved. -/
theorem followerCommit_since (h : (p.followerCommit req resp commitOk).since = some a) :
    a = p.committedLogId ∧ a < min p.lastLogId req.committedLogId ∧
      (p.followerCommit req resp commitOk).part.committedLogId =
        min p.lastLogId req.committedLogId ∧
      (p.followerCommit req resp commitOk).part.wal = p.wal ∧
      (p.followerCommit req resp commitOk).passed =
        p.wal.iterator (p.committedLogId + 1) (min p.lastLogId req.committedLogId) := by
  obtain ⟨role, leader, heq, -⟩ := p.commitLogs_eq
    (p.wal.iterator (p.committedLogId + 1) (min p.lastLogId req.committedLogId))
  generalize hout : p.followerCommit req resp commitOk = out at h
  unfold followerCommit at hout
  split at hout
  · simp only at hout
    split at hout
    · subst hout
      cases h
    split at hout
    · subst hout
      cases h
      simp only [heq]
      exact ⟨trivial, by omega, trivial, trivial, trivial⟩
    · subst hout
      cases h
  · subst hout
    cases h

end RaftPart
end Raft
end K2Graph
