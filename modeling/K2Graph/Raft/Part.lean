import K2Graph.Raft.Types

/-!
# One partition: `RaftPart`

Every method of `RaftPart` that reads or writes the state under `raftLock_` is a
function on `RaftPart`, one lock section each.  Time enters as a Boolean: what
`lastMsgRecvDur_` says is an argument, so every clock is covered.

A failed `CHECK` or a `LOG(FATAL)` ends the process; the functions report it in
`AppendOutcome.crashed`.
-/

namespace K2Graph.Raft

/-- An element of `hosts_`, as far as the partition itself looks at it. -/
structure Peer where
  /-- `address()`. -/
  addr : HostAddr
  isLearner : Bool

/-- The state of a partition. -/
structure RaftPart where
  addr : HostAddr
  hosts : List Peer
  /-- `quorum_`: how many others a majority needs. -/
  quorum : ℕ
  status : Status
  role : Role
  leader : HostAddr
  term : ℕ
  proposedTerm : ℕ
  lastLogId : ℕ
  lastLogTerm : ℕ
  committedLogId : ℕ
  wal : Log LogMsg
  startTimeMs : ℕ
  /-- How many elections `preProcessTransLeader` has handed to `bgWorkers_` that
  have not started yet. -/
  transferTasks : ℕ
  /-- `lastTotalCount_`: the rows of the snapshot received so far. -/
  lastTotalCount : ℕ
  lastTotalSize : ℕ

namespace RaftPart

/-! ### Membership -/

def followers (p : RaftPart) : List Peer := p.hosts.filter fun h => !h.isLearner

/-- The address is one of `followers()`. -/
def isFollower (p : RaftPart) (a : HostAddr) : Bool := p.followers.any fun h => h.addr == a

/-- The partition as `start` leaves it, for a log with nothing in it and a
storage engine with nothing committed. -/
def start (addr : HostAddr) (peers : List HostAddr) (startTimeMs : ℕ) : RaftPart where
  addr := addr
  hosts := peers.map fun a => ⟨a, false⟩
  quorum := (peers.length + 1) / 2
  status := .running
  role := .follower
  leader := noHost
  term := 0
  proposedTerm := 0
  lastLogId := 0
  lastLogTerm := 0
  committedLogId := 0
  wal := Log.empty
  startTimeMs := startTimeMs
  transferTasks := 0
  lastTotalCount := 0
  lastTotalSize := 0

/-! ### Writing and applying logs -/

/-- `preProcessTransLeader`: a follower that is the target, or any follower when
there is no target, starts an election of its own. -/
def preProcessTransLeader (p : RaftPart) (target : HostAddr) : RaftPart :=
  if p.role = .follower ∧ (target = p.addr ∨ target = noHost) then
    { p with transferTasks := p.transferTasks + 1 }
  else p

/-- `preProcessLog`, called for every log before it is written. -/
def preProcessLog (p : RaftPart) : LogMsg → RaftPart
  | .transLeader target timestamp =>
      if p.startTimeMs < timestamp then p.preProcessTransLeader target else p
  | _ => p

/-- `wal_->appendLogs`: writes logs of one term with consecutive ids from `id`
on, and stops at the first one the log refuses. -/
def appendToWal (p : RaftPart) (id : ℕ) (term : ℕ) :
    List (ClusterID × LogMsg) → RaftPart × Bool
  | [] => (p, true)
  | (cluster, msg) :: logs =>
      match p.wal.appendLog id ⟨term, cluster, msg⟩ with
      | none => (p, false)
      | some wal => appendToWal { p.preProcessLog msg with wal := wal } (id + 1) term logs

/-- `commitTransLeader`: a leader with a peer gives up its leadership. -/
def commitTransLeader (p : RaftPart) (target : HostAddr) : RaftPart :=
  if p.role = .leader ∧ target ≠ p.addr ∧ p.hosts ≠ [] ∧ p.followers ≠ [] then
    { p with role := .follower, leader := noHost }
  else p

/-- `Part::commitLogs`, as far as the raft state goes. -/
def commitLogs (p : RaftPart) : List (Entry LogMsg × ℕ) → RaftPart
  | [] => p
  | (⟨_, _, .transLeader target timestamp⟩, _) :: logs =>
      commitLogs (if p.startTimeMs < timestamp then p.commitTransLeader target else p) logs
  | _ :: logs => commitLogs p logs

variable (p : RaftPart)

/-- What a leader does with logs it did not commit when it becomes a follower. -/
def rollbackUncommitted : RaftPart :=
  if p.lastLogId < p.wal.lastLogId then
    match p.wal.rollbackToLog p.lastLogId with
    | some wal => { p with wal := wal }
    | none => p
  else p

/-- What `processAskForVoteRequest` and `verifyLeader` do before they make the
partition a follower. -/
def stepDown : RaftPart :=
  if p.role = .leader then p.rollbackUncommitted else p

/-- `reset`: cleans up all data and logs. -/
def reset (p : RaftPart) : RaftPart :=
  { p with wal := p.wal.reset, lastLogId := 0, committedLogId := 0, lastLogTerm := 0,
           lastTotalCount := 0, lastTotalSize := 0 }

/-- What the leader passes to `commitLogs` in `processAppendLogResponses`, when
`committedId` was committed at the time the logs up to `lastLogId` were written. -/
def leaderBatch (committedId lastLogId : ℕ) : List (Entry LogMsg × ℕ) :=
  p.wal.iterator (committedId + 1) lastLogId

/-- The part of `processAppendLogResponses` that commits.  A leader whose
`commitLogs` fails ends its process. -/
def leaderCommit (currTerm committedId lastLogId : ℕ) (commitOk : Bool) :
    RaftPart :=
  let p' : RaftPart := { p with lastLogId := lastLogId, lastLogTerm := currTerm }
  if commitOk then
    { p'.commitLogs (p.leaderBatch committedId lastLogId) with committedLogId := lastLogId }
  else p'

/-! ### Elections -/

/-- `needToStartElection`; `timeout` says no leader was heard of for long
enough. -/
def needToStartElection (timeout : Bool) : RaftPart × Bool :=
  let p' :=
    if p.status = .running ∧ p.role = .follower ∧ (timeout ∨ p.term = 0) then
      { p with role := .candidate, leader := noHost }
    else p
  (p', p'.role == .candidate)

def prepareElectionRequest : RaftPart × Option AskForVoteRequest :=
  if p.status ≠ .running ∨ p.role ≠ .candidate then (p, none)
  else
    ({ p with proposedTerm := p.proposedTerm + 1 },
      some { candidate := p.addr, term := p.proposedTerm + 1,
             lastLogId := p.lastLogId, lastLogTerm := p.lastLogTerm })

/-- The test of `processElectionResponses` that makes the partition leader, when
`numSucceeded` partitions gave it their vote. -/
def isElected (numSucceeded : ℕ) : Bool :=
  p.status == .running && p.role == .candidate && decide (p.quorum ≤ numSucceeded)

def processElectionResponses (numSucceeded : ℕ) (proposedTerm : ℕ) :
    RaftPart :=
  if p.isElected numSucceeded then { p with term := proposedTerm, role := .leader } else p

/-- The term a vote request has to exceed. -/
def voteTerm : ℕ := if p.role = .candidate then p.proposedTerm else p.term

/-- The part of `processAskForVoteRequest` that grants the vote. -/
def voteFor (req : AskForVoteRequest) : RaftPart :=
  { p.stepDown with role := .follower, term := req.term, proposedTerm := req.term,
                    leader := req.candidate }

/-- `processAskForVoteRequest`; `recent` says a leader was heard of within one
heartbeat interval. -/
def processAskForVoteRequest (req : AskForVoteRequest) (recent : Bool) :
    RaftPart × ErrorCode :=
  if p.status = .stopped then (p, .eBadState)
  else if p.status = .starting then (p, .eNotReady)
  else if p.status = .waitingSnapshot then (p, .eNotReady)
  else if p.role = .learner then (p, .eBadRole)
  else if p.role = .follower ∧ p.leader ≠ noHost ∧ p.leader ≠ req.candidate ∧ recent then
    (p, .eWrongLeader)
  else if req.term ≤ p.voteTerm then (p, .eTermOutOfDate)
  else if req.lastLogTerm < p.lastLogTerm then (p, .eTermOutOfDate)
  else if req.lastLogTerm = p.lastLogTerm ∧ req.lastLogId < p.lastLogId then (p, .eLogStale)
  else if !p.isFollower req.candidate then (p, .eWrongLeader)
  else (p.voteFor req, .succeeded)

/-! ### Following a leader -/

variable (req : AppendLogRequest)

/-- The part of `verifyLeader` that follows a new leader. -/
def follow : RaftPart :=
  { p.stepDown with role := if p.role = .learner then .learner else .follower,
                    leader := req.leader, term := req.currentTerm,
                    proposedTerm := req.currentTerm }

def verifyLeader (recent : Bool) : RaftPart × ErrorCode :=
  if !p.isFollower req.leader then (p, .eWrongLeader)
  else if p.role = .follower ∧ p.leader ≠ noHost ∧ p.leader ≠ req.leader ∧ recent then
    (p, .eWrongLeader)
  else if (p.role = .follower ∨ p.role = .learner) ∧
      req.currentTerm = p.term ∧ req.leader = p.leader then (p, .succeeded)
  else if req.currentTerm < p.term then (p, .eTermOutOfDate)
  else if (p.role = .follower ∨ p.role = .learner) ∧
      req.currentTerm = p.term ∧ p.leader ≠ noHost then (p, .eTermOutOfDate)
  else (p.follow req, .succeeded)

/-- What a call of `processAppendLogRequest` does. -/
structure AppendOutcome where
  /-- The state it leaves. -/
  part : RaftPart
  /-- The answer. -/
  resp : AppendLogResponse
  /-- What it passed to `commitLogs`. -/
  passed : List (Entry LogMsg × ℕ) := []
  /-- `committedLogId_` when `commitLogs` succeeded, if it did. -/
  since : Option ℕ := none
  /-- A `CHECK` failed. -/
  crashed : Bool := false

/-- The answer before anything is checked. -/
def currentResponse : AppendLogResponse where
  errorCode := .succeeded
  currentTerm := p.term
  leader := p.leader
  committedLogId := p.committedLogId
  lastLogId := if p.lastLogId < p.committedLogId then p.committedLogId else p.lastLogId
  lastLogTerm := p.lastLogTerm

/-- The answer with the last log the partition has now. -/
def withLast (resp : AppendLogResponse) : AppendLogResponse :=
  { resp with lastLogId := p.lastLogId, lastLogTerm := p.lastLogTerm }

/-- The partition with the last log of its `wal_`. -/
def syncLast : RaftPart :=
  { p with lastLogId := p.wal.lastLogId, lastLogTerm := p.wal.lastLogTerm }

/-- `processAppendLogRequest` while the partition receives a snapshot: the logs
are written but not committed. -/
def appendWaiting (resp : AppendLogResponse) : AppendOutcome :=
  if 0 < p.lastLogId ∧ p.lastLogId < req.lastLogIdSent then
    { part := p, resp := { resp with errorCode := .eLogGap } }
  else
    match p.appendToWal (req.lastLogIdSent + 1) req.logTerm req.logStrList with
    | (p', false) => { part := p', resp := { resp with errorCode := .eWalFail } }
    | (p', true) =>
        if req.logStrList ≠ [] ∧
            req.lastLogIdSent + req.logStrList.length ≠ p'.wal.lastLogId then
          { part := p', resp := resp, crashed := true }
        else
          { part := p'.syncLast,
            resp := { p'.syncLast.withLast resp with errorCode := .succeeded } }

/-- The last part of `processAppendLogRequest`: committing what the leader has
committed.  `commitOk` is what the storage engine says. -/
def followerCommit (resp : AppendLogResponse) (commitOk : Bool) : AppendOutcome :=
  if p.committedLogId < req.committedLogId then
    let canCommit := min p.lastLogId req.committedLogId
    if canCommit < p.committedLogId + 1 then { part := p, resp := resp, crashed := true }
    else
      let batch := p.wal.iterator (p.committedLogId + 1) canCommit
      if commitOk then
        { part := { p.commitLogs batch with committedLogId := canCommit },
          resp := { resp with committedLogId := canCommit, errorCode := .succeeded },
          passed := batch, since := some p.committedLogId }
      else
        { part := p, resp := { resp with errorCode := .eWalFail }, passed := batch }
  else { part := p, resp := { resp with errorCode := .succeeded } }

/-- The part of `processAppendLogRequest` that writes the logs of the request. -/
def appendNew (resp : AppendLogResponse) (commitOk : Bool) : AppendOutcome :=
  match p.appendToWal (req.lastLogIdSent + 1) req.logTerm req.logStrList with
  | (p', false) => { part := p', resp := { resp with errorCode := .eWalFail } }
  | (p', true) =>
      if req.lastLogIdSent + req.logStrList.length ≠ p'.wal.lastLogId then
        { part := p', resp := resp, crashed := true }
      else p'.syncLast.followerCommit req (p'.syncLast.withLast resp) commitOk

/-- The part of `processAppendLogRequest` that rolls back to what is committed,
since the terms of the last logs differ. -/
def rollbackToCommitted (resp : AppendLogResponse) : AppendOutcome :=
  match p.wal.rollbackToLog p.committedLogId with
  | none => { part := p, resp := { resp with errorCode := .eLogGap } }
  | some wal =>
      let p' := { p with wal := wal }.syncLast
      { part := p', resp := { p'.withLast resp with errorCode := .eLogGap } }

variable (req : AppendLogRequest)

/-- The terms of the partition's last log and of the log before the request's
first one differ. -/
def termsDiffer : Bool :=
  decide (0 < p.lastLogTerm) && decide (req.lastLogTermSent ≠ p.lastLogTerm)

/-- The part of `processAppendLogRequest` that compares the partition's last log
with the log before the request's first one. -/
def compareLast (resp : AppendLogResponse) (commitOk : Bool) : AppendOutcome :=
  if p.termsDiffer req then p.rollbackToCommitted resp
  else if p.lastLogId < req.lastLogIdSent then
    { part := p, resp := { resp with errorCode := .eLogGap } }
  else if req.lastLogIdSent < p.lastLogId then
    { part := p, resp := { resp with errorCode := .eLogStale } }
  else p.appendNew req resp commitOk

/-- `processAppendLogRequest` once the leader is verified and no snapshot is
under way. -/
def appendRunning (resp : AppendLogResponse) (commitOk : Bool) : AppendOutcome :=
  if req.lastLogIdSent < p.committedLogId then
    if req.lastLogTermSent ≤ p.term then
      { part := p, resp := { resp with errorCode := .eLogStale } }
    else
      -- "What?? How it happens!": all data and logs are dropped
      p.reset.compareLast req
        { p.reset.withLast resp with committedLogId := p.reset.committedLogId } commitOk
  else p.compareLast req resp commitOk

/-- `processAppendLogRequest`; `recent` is as in `processAskForVoteRequest`, and
`commitOk` is what the storage engine says to `commitLogs`. -/
def processAppendLogRequest (recent commitOk : Bool) :
    AppendOutcome :=
  let resp := p.currentResponse
  if p.status = .stopped then { part := p, resp := { resp with errorCode := .eBadState } }
  else if p.status = .starting then { part := p, resp := { resp with errorCode := .eNotReady } }
  else
    match p.verifyLeader req recent with
    | (p', .succeeded) =>
        if req.sendingSnapshot ∧ p'.status ≠ .waitingSnapshot then
          { part := { p'.reset with status := .waitingSnapshot },
            resp := { resp with errorCode := .eWaitingSnapshot } }
        else if p'.status = .waitingSnapshot then p'.appendWaiting req resp
        else p'.appendRunning req resp commitOk
    | (p', err) => { part := p', resp := { resp with errorCode := err } }

end RaftPart

end K2Graph.Raft
