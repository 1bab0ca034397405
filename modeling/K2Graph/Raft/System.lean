import K2Graph.Raft.Host
import K2Graph.Raft.PartSpec

/-!
# A group of partitions

The group is a transition system: each action is one lock section of one
partition, together with the messages it puts on the wire.  A message is
delivered at most once, at any time and in any order; one that is never
delivered is lost, and the caller of a lost request is told so by an rpc
exception, which may also come although the request did arrive.

`leaderElection` runs on several threads at once: `statusPolling` starts one
election at a time, and every transfer of leadership starts another.  `replicateLogs`
runs in one loop, which `replicatingLogs_` guards.

The history fields of `Group` record what has happened; no action reads them.
-/

namespace K2Graph.Raft

/-! ### The state -/

/-- How far a call of `leaderElection` has come. -/
inductive Stage
  /-- Before `prepareElectionRequest`. -/
  | starting
  /-- `prepareElectionRequest` said no. -/
  | abandoned
  /-- Waiting for votes; the answers so far, an exception being `none`. -/
  | asking (req : AskForVoteRequest) (results : List (HostAddr × Option ErrorCode))
  /-- `processElectionResponses` said `LEADER`. -/
  | elected
  | finished
  deriving DecidableEq

/-- A call of `leaderElection`. -/
structure Election where
  /-- It was started by `statusPolling`. -/
  polling : Bool
  /-- How far it has come. -/
  stage : Stage

/-- The running loop of `appendLogsInternal`, `replicateLogs` and
`processAppendLogResponses`. -/
structure Replication where
  currTerm : ℕ
  lastLogId : ℕ
  committedId : ℕ
  prevLogTerm : ℕ
  prevLogId : ℕ
  /-- The number of the call of `replicateLogs`, once it has run. -/
  round : Option ℕ
  /-- The results that call has collected. -/
  results : List (HostAddr × ErrorCode)

/-- A partition with its threads. -/
structure Node where
  /-- The partition. -/
  part : RaftPart
  /-- Its `Host` objects. -/
  host : HostAddr → Host
  /-- Its calls of `leaderElection`. -/
  elections : List Election
  /-- The loop `replicatingLogs_` stands for. -/
  replication : Option Replication
  /-- How many times `replicateLogs` has run. -/
  rounds : ℕ
  /-- Calls of `Host::appendLogs` handed to the io threads. -/
  calls : List (HostAddr × CallArgs)
  /-- The process has ended. -/
  dead : Bool

/-- A message on the wire. -/
inductive Message
  | voteReq (src dst : HostAddr) (eid : ℕ) (req : AskForVoteRequest)
  | voteResp (src dst : HostAddr) (eid : ℕ) (code : ErrorCode)
  /-- `cut` is not part of the message: it is the log of the sender up to the
  last log sent. -/
  | appendReq (src dst : HostAddr) (rid : ℕ) (req : AppendLogRequest)
      (cut : List (Entry LogMsg))
  | appendResp (src dst : HostAddr) (rid : ℕ) (resp : AppendLogResponse)
  deriving DecidableEq

/-- A vote that was granted. -/
structure Vote where
  /-- Who granted it. -/
  voter : HostAddr
  /-- The request it answers. -/
  req : AskForVoteRequest
  /-- The log of the voter. -/
  log : List (Entry LogMsg)

/-- A partition became leader. -/
structure Win where
  /-- The leader. -/
  leader : HostAddr
  /-- The request it was elected with. -/
  req : AskForVoteRequest
  /-- Its log. -/
  log : List (Entry LogMsg)

/-- The term of the leader. -/
def Win.term (w : Win) : ℕ := w.req.term

/-- A group of partitions. -/
structure Group where
  /-- The partitions. -/
  nodes : HostAddr → Node
  /-- The messages on the wire. -/
  net : List Message
  /-- The votes granted so far. -/
  votes : List Vote
  /-- The elections won so far. -/
  wins : List Win
  /-- What each partition has passed to `commitLogs` so far. -/
  passed : List (HostAddr × ℕ × Entry LogMsg)
  /-- Who has held the log of the leader of which term, and up to which id. -/
  accepted : List (HostAddr × ℕ × ℕ)
  /-- The log of the leader of each term. -/
  termLog : ℕ → List (Entry LogMsg)
  /-- The futures of `Host::appendLogs` the last action fulfilled with
  `SUCCEEDED`: the leader, the peer and the call. -/
  acked : List (HostAddr × HostAddr × Call)

/-- The group the actions run in. -/
structure Config where
  /-- The fixed membership. -/
  members : List HostAddr
  /-- The flags of `Host.cpp`. -/
  flags : Flags := {}
  /-- When each partition was started. -/
  startTimeMs : HostAddr → ℕ := fun _ => 0

/-- A partition right after `start`. -/
def Node.init (cfg : Config) (a : HostAddr) : Node where
  part := RaftPart.start a (cfg.members.filter (· ≠ a)) (cfg.startTimeMs a)
  host := fun _ => {}
  elections := []
  replication := none
  rounds := 0
  calls := []
  dead := false

namespace Group

def init (cfg : Config) : Group where
  nodes := Node.init cfg
  net := []
  votes := []
  wins := []
  passed := []
  accepted := []
  termLog := fun _ => []
  acked := []

variable (s : Group) (a : HostAddr)

def setNode (n : Node) : Group :=
  { s with nodes := fun b => if b = a then n else s.nodes b }

/-! ### Elections -/

/-- `statusPolling` finds that an election is needed.  The last election it
started has to be over. -/
def startElection (timeout : Bool) : Option Group :=
  let n := s.nodes a
  if n.elections.any fun e => e.polling && decide (e.stage ≠ .finished) then none
  else
    let (p, needed) := n.part.needToStartElection timeout
    some (s.setNode a
      { n with part := p,
               elections := if needed then n.elections ++ [⟨true, .starting⟩]
                            else n.elections })

/-- The task `preProcessTransLeader` handed to `bgWorkers_` starts. -/
def transferLeader : Option Group :=
  let n := s.nodes a
  if n.part.transferTasks = 0 then none
  else
    some (s.setNode a
      { n with part := { n.part with transferTasks := n.part.transferTasks - 1,
                                     role := .candidate, leader := noHost },
               elections := n.elections ++ [⟨false, .starting⟩] })

variable (eid : ℕ)

/-- `leaderElection` calls `prepareElectionRequest` and sends the request to all
peers. -/
def prepareElection : Option Group :=
  let n := s.nodes a
  match n.elections[eid]? with
  | some ⟨polling, .starting⟩ =>
      match n.part.prepareElectionRequest with
      | (p, none) =>
          some (s.setNode a
            { n with part := p, elections := n.elections.set eid ⟨polling, .abandoned⟩ })
      | (p, some req) =>
          some { s.setNode a
              { n with part := p, elections := n.elections.set eid ⟨polling, .asking req []⟩ } with
            net := s.net ++ p.followers.map fun h => .voteReq a h.addr eid req }
  | _ => none

/-- `leaderElection` goes back to the follower role. -/
def giveUpElection : Option Group :=
  let n := s.nodes a
  match n.elections[eid]? with
  | some ⟨polling, .abandoned⟩ =>
      some (s.setNode a
        { n with part := { n.part with role := .follower },
                 elections := n.elections.set eid ⟨polling, .finished⟩ })
  | _ => none

def recvVoteRequest (i : ℕ) (recent : Bool) : Option Group :=
  match s.net[i]? with
  | some (.voteReq src dst eid req) =>
      let n := s.nodes dst
      if n.dead then none
      else
        let (p, code) := n.part.processAskForVoteRequest req recent
        some { s.setNode dst { n with part := p } with
          net := s.net.eraseIdx i ++ [.voteResp dst src eid code]
          votes := if code = .succeeded then ⟨dst, req, n.part.log⟩ :: s.votes else s.votes }
  | _ => none

/-- The answer of one peer, or an exception, is collected.  Each future is
fulfilled once. -/
def collectVote (a peer : HostAddr) (eid : ℕ) (code : Option ErrorCode) : Group :=
  let n := s.nodes a
  match n.elections[eid]? with
  | some ⟨polling, .asking req results⟩ =>
      if n.part.isFollower peer ∧ peer ∉ results.map Prod.fst then
        s.setNode a
          { n with elections :=
              n.elections.set eid ⟨polling, .asking req (results ++ [(peer, code)])⟩ }
      else s
  | _ => s

def recvVoteResponse (i : ℕ) : Option Group :=
  match s.net[i]? with
  | some (.voteResp src dst eid code) =>
      if (s.nodes dst).dead then none
      else some (collectVote { s with net := s.net.eraseIdx i } dst src eid (some code))
  | _ => none

/-- How many votes an election has collected. -/
def numVotes (results : List (HostAddr × Option ErrorCode)) : ℕ :=
  results.countP fun r => r.2 = some .succeeded

/-- `collectNSucceeded` is done and `processElectionResponses` runs. -/
def processElection : Option Group :=
  let n := s.nodes a
  match n.elections[eid]? with
  | some ⟨polling, .asking req results⟩ =>
      if numVotes results < n.part.quorum ∧ results.length < n.part.followers.length then none
      else
        let p := n.part.processElectionResponses (numVotes results) req.term
        let s' := s.setNode a
          { n with part := p,
                   elections := n.elections.set eid
                     ⟨polling, if p.role = .leader then .elected else .finished⟩ }
        if n.part.isElected (numVotes results) then
          some { s' with
            wins := ⟨a, req, n.part.log⟩ :: s.wins
            termLog := fun t => if t = req.term then n.part.log else s.termLog t }
        else some s'
  | _ => none

/-- `leaderElection` sets `leader_` after the election is won. -/
def announceLeader : Option Group :=
  let n := s.nodes a
  match n.elections[eid]? with
  | some ⟨polling, .elected⟩ =>
      some (s.setNode a
        { n with part := if n.part.status = .running then { n.part with leader := a }
                         else n.part,
                 elections := n.elections.set eid ⟨polling, .finished⟩ })
  | _ => none

/-! ### Replication -/

/-- A batch of logs starts its way: `appendLogsInternal` writes it to the log.
`res = canAppendLogs()` and the checks of `appendLogsInternal` are one here,
since nothing but the loop itself moves `lastLogId_` of a leader. -/
def appendLogs (logs : List (ClusterID × LogMsg)) : Option Group :=
  let n := s.nodes a
  let p := n.part
  if n.replication.isSome ∨ logs = [] ∨ p.status ≠ .running ∨ p.role ≠ .leader then none
  else
    match p.appendToWal (p.lastLogId + 1) p.term logs with
    | (p', false) => some (s.setNode a { n with part := p' })
    | (p', true) =>
        some { s.setNode a
            { n with part := p',
                     replication := some
                       { currTerm := p.term, lastLogId := p'.wal.lastLogId,
                         committedId := p.committedLogId, prevLogTerm := p.lastLogTerm,
                         prevLogId := p.lastLogId, round := none, results := [] } } with
          termLog := fun t => if t = p.term then p'.wal.full else s.termLog t }

/-- `replicateLogs` asks every host to append the logs.  It checks that the
partition still is a leader, but not of which term. -/
def replicateLogs : Option Group :=
  let n := s.nodes a
  match n.replication with
  | some r =>
      if r.round.isSome then none
      else if n.part.status ≠ .running ∨ n.part.role ≠ .leader then
        some (s.setNode a { n with replication := none })
      else
        let c : CallArgs :=
          { round := n.rounds, term := r.currTerm, logId := r.lastLogId,
            committedLogId := r.committedId, prevLogTerm := r.prevLogTerm,
            prevLogId := r.prevLogId }
        some (s.setNode a
          { n with replication := some { r with round := some n.rounds, results := [] },
                   rounds := n.rounds + 1,
                   calls := n.calls ++ n.part.hosts.map fun h => (h.addr, c) })
  | none => none

/-- The results of the calls that were fulfilled reach `collectNSucceeded`; those
of another call of `replicateLogs` are not waited for any more. -/
def collect (r : Replication) (peer : HostAddr) (fulfilled : List (Call × ErrorCode)) :
    Replication :=
  { r with results := r.results ++
      ((fulfilled.filter fun f => r.round = some f.1.round ∧ peer ∉ r.results.map Prod.fst).map
        fun f => (peer, f.2)).take 1 }

/-- What a `Host` did takes effect. -/
def hostOutcome (a peer : HostAddr) (out : Host.Outcome) : Group :=
  let n := s.nodes a
  { s.setNode a
      { n with host := fun b => if b = peer then out.host else n.host b,
               replication := n.replication.map fun r => collect r peer out.fulfilled } with
    net := s.net ++
      match out.request with
      | some req =>
          [.appendReq a peer out.host.rid req
            (n.part.wal.full.take (req.lastLogIdSent + req.logStrList.length))]
      | none => []
    acked := (out.fulfilled.filter fun f => f.2 = .succeeded).map fun f => (a, peer, f.1) }

/-- A call of `Host::appendLogs` runs on its io thread. -/
def hostAppendLogs (cfg : Config) (s : Group) (a : HostAddr) (i : ℕ) : Option Group :=
  let n := s.nodes a
  match n.calls[i]? with
  | some (peer, c) =>
      some (hostOutcome (s.setNode a { n with calls := n.calls.eraseIdx i }) a peer
        (Host.appendLogs cfg.flags n.part (n.host peer) c))
  | none => none

/-- What a partition passes to `commitLogs`, for the record. -/
def passedBy (batch : List (Entry LogMsg × ℕ)) :
    List (HostAddr × ℕ × Entry LogMsg) :=
  batch.map fun e => (a, e.2, e.1)

/-- A partition whose last log is of its own term holds the log of the leader of
that term up to there. -/
def acceptedBy (p : RaftPart) : List (HostAddr × ℕ × ℕ) :=
  if p.lastLogTerm = p.term then [(p.addr, p.term, p.lastLogId)] else []

def recvAppendRequest (i : ℕ) (recent commitOk : Bool) : Option Group :=
  match s.net[i]? with
  | some (.appendReq src dst rid req _) =>
      let n := s.nodes dst
      if n.dead then none
      else
        let out := n.part.processAppendLogRequest req recent commitOk
        some { s.setNode dst { n with part := out.part, dead := out.crashed } with
          net := s.net.eraseIdx i ++
            if out.crashed then [] else [.appendResp dst src rid out.resp]
          passed := passedBy dst out.passed ++ s.passed
          accepted := acceptedBy out.part ++ s.accepted }
  | _ => none

/-- An append response arrives.  The answer to a request the `Host` has given up
is dropped. -/
def recvAppendResponse (cfg : Config) (s : Group) (i : ℕ) : Option Group :=
  match s.net[i]? with
  | some (.appendResp src dst rid resp) =>
      let n := s.nodes dst
      if n.dead then none
      else
        let s' := { s with net := s.net.eraseIdx i }
        if (n.host src).requestOnGoing ∧ (n.host src).rid = rid then
          some (hostOutcome s' dst src (Host.onResponse cfg.flags n.part (n.host src) resp))
        else some s'
  | _ => none

/-- The rpc of the running append request fails. -/
def appendException (a peer : HostAddr) : Option Group :=
  if ((s.nodes a).host peer).requestOnGoing then
    some (hostOutcome s a peer ((s.nodes a).host peer).onException)
  else none

/-- The learners do not count. -/
def numSucceeded (p : RaftPart) (results : List (HostAddr × ErrorCode)) : ℕ :=
  results.countP fun r => p.isFollower r.1 && decide (r.2 = .succeeded)

/-- `collectNSucceeded` is done and `processAppendLogResponses` runs. -/
def processAppendLogResponses (commitOk : Bool) : Option Group :=
  let n := s.nodes a
  let p := n.part
  match n.replication with
  | some r =>
      if r.round = none ∨
          (numSucceeded p r.results < p.quorum ∧ r.results.length < p.hosts.length) then none
      else if numSucceeded p r.results < p.quorum then
        -- not enough hosts accepted the log: try again
        some (s.setNode a { n with replication := some { r with round := none } })
      else if p.status ≠ .running ∨ p.role ≠ .leader ∨ r.currTerm ≠ p.term then
        some (s.setNode a { n with replication := none })
      else
        let p' := p.leaderCommit r.currTerm r.committedId r.lastLogId commitOk
        some { s.setNode a
            { n with part := p', replication := if commitOk then none else some r,
                     dead := !commitOk } with
          passed := passedBy a (p.leaderBatch r.committedId r.lastLogId) ++ s.passed
          accepted := (a, r.currTerm, r.lastLogId) :: s.accepted }
  | none => none

/-- `cleanWAL` removes the files of the first `k` logs.  It never removes the
last file, and `needToCleanWal` keeps it away from a snapshot. -/
def cleanWAL (s : Group) (a : HostAddr) (k : ℕ) : Option Group :=
  let n := s.nodes a
  if n.part.wal.entries.length ≤ k ∨ n.part.status = .starting ∨
      n.part.status = .waitingSnapshot ∨
      n.part.hosts.any fun h => (n.host h.addr).sendingSnapshot then none
  else some (s.setNode a { n with part := { n.part with wal := n.part.wal.cleanWAL k } })

end Group

/-! ### Steps -/

inductive Action
  | startElection (a : HostAddr) (timeout : Bool)
  | transferLeader (a : HostAddr)
  | prepareElection (a : HostAddr) (eid : ℕ)
  | giveUpElection (a : HostAddr) (eid : ℕ)
  | recvVoteRequest (i : ℕ) (recent : Bool)
  | recvVoteResponse (i : ℕ)
  | voteException (a peer : HostAddr) (eid : ℕ)
  | processElection (a : HostAddr) (eid : ℕ)
  | announceLeader (a : HostAddr) (eid : ℕ)
  | appendLogs (a : HostAddr) (logs : List (ClusterID × LogMsg))
  | replicateLogs (a : HostAddr)
  | hostAppendLogs (a : HostAddr) (i : ℕ)
  | recvAppendRequest (i : ℕ) (recent commitOk : Bool)
  | recvAppendResponse (i : ℕ)
  | appendException (a peer : HostAddr)
  | processAppendLogResponses (a : HostAddr) (commitOk : Bool)
  | cleanWAL (a : HostAddr) (k : ℕ)
  | crash (a : HostAddr)
  deriving DecidableEq

/-- The partition that acts, for the actions that are not triggered by a
message. -/
def Action.actor? : Action → Option HostAddr
  | .startElection a _ | .transferLeader a | .prepareElection a _ | .giveUpElection a _
  | .voteException a _ _ | .processElection a _ | .announceLeader a _ | .appendLogs a _
  | .replicateLogs a | .hostAppendLogs a _ | .appendException a _
  | .processAppendLogResponses a _ | .cleanWAL a _ | .crash a => some a
  | .recvVoteRequest _ _ | .recvVoteResponse _ | .recvAppendRequest _ _ _
  | .recvAppendResponse _ => none

/-- An action of a member that is alive, or the arrival of a message. -/
def Group.canAct (cfg : Config) (s : Group) (act : Action) : Bool :=
  match act.actor? with
  | some a => decide (a ∈ cfg.members) && !(s.nodes a).dead
  | none => true

/-- The effect of an action that can happen. -/
def Group.perform (cfg : Config) (s : Group) : Action → Option Group
  | .startElection a timeout => s.startElection a timeout
  | .transferLeader a => s.transferLeader a
  | .prepareElection a eid => s.prepareElection a eid
  | .giveUpElection a eid => s.giveUpElection a eid
  | .recvVoteRequest i recent => s.recvVoteRequest i recent
  | .recvVoteResponse i => s.recvVoteResponse i
  | .voteException a peer eid => some (s.collectVote a peer eid none)
  | .processElection a eid => s.processElection a eid
  | .announceLeader a eid => s.announceLeader a eid
  | .appendLogs a logs => s.appendLogs a logs
  | .replicateLogs a => s.replicateLogs a
  | .hostAppendLogs a i => s.hostAppendLogs cfg a i
  | .recvAppendRequest i recent commitOk => s.recvAppendRequest i recent commitOk
  | .recvAppendResponse i => s.recvAppendResponse cfg i
  | .appendException a peer => s.appendException a peer
  | .processAppendLogResponses a commitOk => s.processAppendLogResponses a commitOk
  | .cleanWAL a k => s.cleanWAL a k
  | .crash a => some (s.setNode a { s.nodes a with dead := true })

/-- A group of three, for the runs that are given in full. -/
def trio : Config where
  members := [(1, 1), (2, 2), (3, 3)]

/-- One step: an action that cannot happen is not a step. -/
def Group.step (cfg : Config) (s : Group) (act : Action) : Option Group :=
  if s.canAct cfg act then Group.perform cfg { s with acked := [] } act else none

end K2Graph.Raft
