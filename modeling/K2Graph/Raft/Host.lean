import K2Graph.Raft.Part

/-!
# What a leader keeps for each peer: `Host`

A `Host` sends one `AppendLogRequest` at a time.  Calls of `appendLogs` that come
in meanwhile wait in `cachingPromise_`, and only the last of them is remembered
in `pendingReq_`.  A promise is modelled by the list of the calls waiting for it,
and each function returns the calls it fulfils.

`rid` numbers the requests; it stands for the connection between a request and
the callback that handles its answer.
-/

namespace K2Graph.Raft

/-- The flags of `Host.cpp`. -/
structure Flags where
  /-- `max_appendlog_batch_size`. -/
  maxAppendlogBatchSize : ℕ := 128
  /-- `max_outstanding_requests`. -/
  maxOutstandingRequests : ℕ := 1024

/-- A call of `Host::appendLogs` whose future is held by `collectNSucceeded`. -/
structure Call where
  /-- The call of `replicateLogs` it belongs to. -/
  round : ℕ
  /-- The term of the leader. -/
  term : ℕ
  /-- The last log to be sent. -/
  logId : ℕ
  deriving DecidableEq

/-- The arguments of a call of `Host::appendLogs`. -/
structure CallArgs extends Call where
  /-- The committed log id of the leader. -/
  committedLogId : ℕ
  /-- The term of the last log before the batch. -/
  prevLogTerm : ℕ
  /-- The id of the last log before the batch. -/
  prevLogId : ℕ

/-- The state of a `Host`. -/
structure Host where
  paused : Bool := false
  stopped : Bool := false
  requestOnGoing : Bool := false
  /-- The calls waiting for `promise_`. -/
  promise : List Call := []
  /-- The calls waiting for `cachingPromise_`. -/
  cachingPromise : List Call := []
  /-- `pendingReq_`: term, log id and committed log id. -/
  pendingReq : ℕ × ℕ × ℕ := (0, 0, 0)
  logIdToSend : ℕ := 0
  logTermToSend : ℕ := 0
  lastLogIdSent : ℕ := 0
  lastLogTermSent : ℕ := 0
  committedLogId : ℕ := 0
  sendingSnapshot : Bool := false
  followerCommittedLogId : ℕ := 0
  /-- How many requests have been sent. -/
  rid : ℕ := 0

namespace Host

/-- What a function of `Host` does. -/
structure Outcome where
  /-- The state it leaves. -/
  host : Host
  /-- The calls it fulfils, with their results. -/
  fulfilled : List (Call × ErrorCode) := []
  /-- The request it sends. -/
  request : Option AppendLogRequest := none

def checkStatus (h : Host) : ErrorCode :=
  if h.stopped then .eHostStopped else if h.paused then .eNotALeader else .succeeded

def noRequest (h : Host) : Bool := h.pendingReq == (0, 0, 0)

/-- `setResponse`: fulfils both promises. -/
def setResponse (h : Host) (code : ErrorCode) : Outcome where
  host := { h with promise := [], cachingPromise := [], pendingReq := (0, 0, 0),
                   requestOnGoing := false }
  fulfilled := (h.promise ++ h.cachingPromise).map fun c => (c, code)

variable (flags : Flags) (p : RaftPart) (h : Host)

/-- The logs of `prepareAppendLogRequest`: from the log after the last one sent,
as long as the term stays the same. -/
def logsToSend : List (Entry LogMsg) :=
  match p.wal.iterator (h.lastLogIdSent + 1) h.logIdToSend with
  | [] => []
  | (e, id) :: es =>
      ((((e, id) :: es).map Prod.fst).takeWhile fun e' => e'.term == e.term).take
        flags.maxAppendlogBatchSize

def prepareAppendLogRequest : Host × AppendLogRequest :=
  let req : AppendLogRequest :=
    { currentTerm := h.logTermToSend, lastLogId := h.logIdToSend,
      committedLogId := h.committedLogId, leader := p.addr,
      lastLogTermSent := h.lastLogTermSent, lastLogIdSent := h.lastLogIdSent }
  if p.wal.lastLogId < h.lastLogIdSent + 1 then (h, req)
  else
    match p.wal.iterator (h.lastLogIdSent + 1) h.logIdToSend with
    | [] => ({ h with sendingSnapshot := true }, { req with sendingSnapshot := true })
    | (e, _) :: _ =>
        (h, { req with logTerm := e.term,
                       logStrList := (logsToSend flags p h).map fun e => (e.cluster, e.msg) })

def send (fulfilled : List (Call × ErrorCode) := []) : Outcome where
  host := { (prepareAppendLogRequest flags p h).1 with requestOnGoing := true, rid := h.rid + 1 }
  fulfilled := fulfilled
  request := some (prepareAppendLogRequest flags p h).2

/-- `appendLogs`.  A call that is not fulfilled at once waits for a promise. -/
def appendLogs (c : CallArgs) : Outcome :=
  if c.logId ≤ h.lastLogIdSent then
    -- the log has been sent already
    { host := h, fulfilled := [(c.toCall, .succeeded)] }
  else if h.requestOnGoing ∧ h.checkStatus = .succeeded then
    if h.cachingPromise.length ≤ flags.maxOutstandingRequests then
      { host := { h with pendingReq := (c.term, c.logId, c.committedLogId),
                         cachingPromise := h.cachingPromise ++ [c.toCall] } }
    else { host := h, fulfilled := [(c.toCall, .eTooManyRequests)] }
  else if h.checkStatus ≠ .succeeded then
    { host := h, fulfilled := [(c.toCall, h.checkStatus)] }
  else
    let h' :=
      if h.lastLogIdSent = 0 ∧ h.lastLogTermSent = 0 then
        -- the first time logs are sent to this host
        { h with lastLogIdSent := c.prevLogId, lastLogTermSent := c.prevLogTerm }
      else h
    send flags p
      { h' with logTermToSend := c.term, logIdToSend := c.logId,
                committedLogId := c.committedLogId, pendingReq := (0, 0, 0),
                promise := h.cachingPromise ++ [c.toCall], cachingPromise := [] }

/-- The callback of `appendLogsInternal` when the rpc fails. -/
def onException : Outcome :=
  let out := h.setResponse .eException
  { out with host := { out.host with lastLogIdSent := h.logIdToSend - 1 } }

variable (resp : AppendLogResponse)

/-- The `SUCCEEDED` case of the callback. -/
def onSucceeded : Outcome :=
  if h.checkStatus ≠ .succeeded then h.setResponse h.checkStatus
  else if resp.lastLogId ≤ h.lastLogIdSent then
    -- nothing was sent in the last request
    { h with followerCommittedLogId := resp.committedLogId }.setResponse .succeeded
  else
    let h' := { h with lastLogIdSent := resp.lastLogId, lastLogTermSent := resp.lastLogTerm,
                       followerCommittedLogId := resp.committedLogId }
    if resp.lastLogId < h.logIdToSend then send flags p h'
    else
      let fulfilled := h.promise.map fun c => (c, ErrorCode.succeeded)
      if h.noRequest then
        { host := { h' with promise := [], requestOnGoing := false }, fulfilled := fulfilled }
      else
        send flags p
          { h' with logTermToSend := h.pendingReq.1, logIdToSend := h.pendingReq.2.1,
                    committedLogId := h.pendingReq.2.2, promise := h.cachingPromise,
                    cachingPromise := [], pendingReq := (0, 0, 0) }
          fulfilled

/-- The `E_LOG_GAP` case of the callback. -/
def onLogGap : Outcome :=
  if h.checkStatus ≠ .succeeded then h.setResponse h.checkStatus
  else if h.lastLogIdSent = resp.lastLogId then
    { h with lastLogTermSent := resp.lastLogTerm,
             followerCommittedLogId := resp.committedLogId }.setResponse .succeeded
  else
    send flags p
      { h with lastLogIdSent := min resp.lastLogId (h.logIdToSend - 1),
               lastLogTermSent := resp.lastLogTerm,
               followerCommittedLogId := resp.committedLogId }

/-- The `E_WAITING_SNAPSHOT` case of the callback. -/
def onWaitingSnapshot : Outcome :=
  if h.checkStatus ≠ .succeeded then h.setResponse h.checkStatus
  else
    send flags p
      { h with lastLogIdSent := h.committedLogId, lastLogTermSent := h.logTermToSend,
               followerCommittedLogId := resp.committedLogId }

/-- The `E_LOG_STALE` case of the callback. -/
def onLogStale : Outcome :=
  if h.checkStatus ≠ .succeeded then h.setResponse h.checkStatus
  else if h.logIdToSend ≤ resp.lastLogId then
    -- the request has been received by the follower
    { h with lastLogIdSent := h.logIdToSend - 1, lastLogTermSent := resp.lastLogTerm,
             followerCommittedLogId := resp.committedLogId }.setResponse .succeeded
  else
    send flags p
      { h with lastLogIdSent := min resp.lastLogId (h.logIdToSend - 1),
               lastLogTermSent := resp.lastLogTerm,
               followerCommittedLogId := resp.committedLogId }

/-- The callback of `appendLogsInternal` when an answer arrives. -/
def onResponse : Outcome :=
  match resp.errorCode with
  | .succeeded => onSucceeded flags p h resp
  | .eLogGap => onLogGap flags p h resp
  | .eWaitingSnapshot => onWaitingSnapshot flags p h resp
  | .eLogStale => onLogStale flags p h resp
  | code =>
      let out := h.setResponse code
      { out with host := { out.host with lastLogIdSent := h.logIdToSend - 1 } }

end Host

end K2Graph.Raft
