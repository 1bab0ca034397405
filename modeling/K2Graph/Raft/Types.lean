import K2Graph.Wal.Log

/-!
# Data of the raft layer

The enumerations of `RaftPart`, the messages of `raftex.thrift` and the log
messages the raft layer itself looks into.

The space and partition ids of the requests only route a request to its
partition, and every function modelled here runs after that, so they are left
out.
-/

namespace K2Graph.Raft

/-- `HostAddr`: an IP and a port. -/
abbrev HostAddr := ℕ × ℕ

instance : LawfulBEq HostAddr := inferInstance

/-- `HostAddr(0, 0)`, the address of nobody. -/
def noHost : HostAddr := (0, 0)

/-- `RaftPart::Status`. -/
inductive Status
  | starting
  | running
  | stopped
  | waitingSnapshot
  deriving DecidableEq

/-- `RaftPart::Role`. -/
inductive Role
  | leader
  | follower
  | candidate
  | learner
  deriving DecidableEq

/-- `ErrorCode` of `raftex.thrift`. -/
inductive ErrorCode
  | succeeded
  | eLogGap
  | eLogStale
  | eMissingCommit
  | eWaitingSnapshot
  | eUnknownPart
  | eTermOutOfDate
  | eLastLogTermTooOld
  | eBadState
  | eWrongLeader
  | eWalFail
  | eNotReady
  | eHostStopped
  | eNotALeader
  | eHostDisconnected
  | eTooManyRequests
  | ePersistSnapshotFailed
  | eBadRole
  | eException
  deriving DecidableEq

/-- What a log message is to the raft layer.  Only `OP_TRANS_LEADER` acts on a
partition whose membership does not change; it carries the time it was made,
which a partition compares with its own start. -/
inductive LogMsg
  /-- The empty message of `sendHeartbeat`. -/
  | heartbeat
  /-- A message the raft layer passes on. -/
  | data (payload : List UInt8)
  /-- `OP_TRANS_LEADER`. -/
  | transLeader (target : HostAddr) (timestamp : ℕ)
  deriving DecidableEq

structure AskForVoteRequest where
  /-- The IP and port of the candidate. -/
  candidate : HostAddr
  /-- The proposed term. -/
  term : ℕ
  /-- The candidate's last log id. -/
  lastLogId : ℕ
  /-- The candidate's last log term. -/
  lastLogTerm : ℕ
  deriving DecidableEq

structure AppendLogRequest where
  /-- The term of the sender. -/
  currentTerm : ℕ
  /-- The last log the sender wants to get through. -/
  lastLogId : ℕ
  /-- The sender's committed log id. -/
  committedLogId : ℕ
  /-- The IP and port of the sender. -/
  leader : HostAddr
  /-- The term of the log before the first one sent. -/
  lastLogTermSent : ℕ
  /-- The id of the log before the first one sent. -/
  lastLogIdSent : ℕ
  /-- The term of all logs sent. -/
  logTerm : ℕ := 0
  /-- The logs sent. -/
  logStrList : List (ClusterID × LogMsg) := []
  /-- The sender has no log to send and will send a snapshot. -/
  sendingSnapshot : Bool := false
  deriving DecidableEq

structure AppendLogResponse where
  /-- The result. -/
  errorCode : ErrorCode
  /-- The follower's term when the request came in. -/
  currentTerm : ℕ
  /-- The follower's leader when the request came in. -/
  leader : HostAddr
  /-- The follower's committed log id. -/
  committedLogId : ℕ
  /-- The follower's last log id. -/
  lastLogId : ℕ
  /-- The follower's last log term. -/
  lastLogTerm : ℕ
  deriving DecidableEq

end K2Graph.Raft
