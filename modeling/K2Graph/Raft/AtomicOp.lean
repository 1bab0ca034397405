import K2Graph.Raft.Applied

/-!
# Atomic operations

`atomicOpAsync` hands the leader an operation that reads the storage engine and
says what to log, or that it fails.  `AppendLogsIterator` calls it while the batch
is put together, so it sees what has been applied by then; it should see
exactly the entries before its own.

The iterator sees to that within one term: an operation only ever leads a batch,
and no batch is put together before the one before is applied.  But a new leader
may hold logs of earlier terms that it has not applied, and `canAppendLogs` lets
it put a batch together at once.

The group is taken together with its storage engines here.  Reading the engine is
a step of its own, since neither `raftLock_` nor anything else is held between
`canAppendLogs`, the iterator and `appendLogsInternal`.

## Main results

* `Store.isolated_of_isolationOk` — the property, in runs of such steps.
* `Store.not_isolated_catchUpRun` — a run in which an operation misses a log.
-/

namespace K2Graph.Raft

open List TermLog

/-! ### The iterator -/

/-- A log handed to `appendLogAsync`, with its `LogType`. -/
inductive Task (σ : Type)
  | normal (source : ClusterID) (msg : LogMsg)
  | command (source : ClusterID) (msg : LogMsg)
  | atomicOp (source : ClusterID) (op : σ → Option LogMsg)

/-- The logs an iterator runs over until it is not valid any more. -/
structure TaskBatch (σ : Type) where
  /-- The logs. -/
  logs : List (ClusterID × LogMsg)
  /-- The operation that leads the batch, with the state it was called on. -/
  op : Option ((σ → Option LogMsg) × σ)
  /-- What is left for `resume`. -/
  rest : List (Task σ)

section Iterator

variable {σ : Type} {state : σ} {tasks : List (Task σ)} {batch : TaskBatch σ}

/-- `processAtomicOp`: operations that fail are skipped. -/
def processAtomicOp (state : σ) : List (Task σ) → List (Task σ)
  | .atomicOp source op :: tasks =>
      if (op state).isSome then .atomicOp source op :: tasks else processAtomicOp state tasks
  | tasks => tasks

/-- `operator++` until the iterator is not valid: it stops at an operation, and
after a command. -/
def follow (lastIsCommand : Bool) : List (Task σ) → List (ClusterID × LogMsg) × List (Task σ)
  | .normal source msg :: tasks =>
      if lastIsCommand then ([], .normal source msg :: tasks)
      else ((source, msg) :: (follow false tasks).1, (follow false tasks).2)
  | .command source msg :: tasks =>
      if lastIsCommand then ([], .command source msg :: tasks)
      else ((source, msg) :: (follow true tasks).1, (follow true tasks).2)
  | tasks => ([], tasks)

/-- What a new or resumed iterator runs over; `none` if it is not valid. -/
def nextBatch (state : σ) (tasks : List (Task σ)) : Option (TaskBatch σ) :=
  match processAtomicOp state tasks with
  | [] => none
  | .normal source msg :: rest =>
      some ⟨(source, msg) :: (follow false rest).1, none, (follow false rest).2⟩
  | .command source msg :: rest =>
      some ⟨(source, msg) :: (follow true rest).1, none, (follow true rest).2⟩
  | .atomicOp source op :: rest =>
      match op state with
      | some msg =>
          some ⟨(source, msg) :: (follow false rest).1, some (op, state), (follow false rest).2⟩
      | none => none

/-- **An operation leads its batch**, and what it logs it has computed from the
state it was called on. -/
structure TaskBatch.LedBy (batch : TaskBatch σ) (state : σ) : Prop where
  logs : batch.logs ≠ []
  op : ∀ op x, batch.op = some (op, x) →
    x = state ∧ ∃ source msg rest, batch.logs = (source, msg) :: rest ∧ op x = some msg

theorem ledBy_of_nextBatch (h : nextBatch state tasks = some batch) : batch.LedBy state := by
  unfold nextBatch at h
  split at h
  · cases h
  · cases h
    exact ⟨cons_ne_nil _ _, fun op x hop => nomatch hop⟩
  · cases h
    exact ⟨cons_ne_nil _ _, fun op x hop => nomatch hop⟩
  split at h
  · rename_i msg hmsg
    cases h
    refine ⟨cons_ne_nil _ _, fun op x hop => ?_⟩
    cases hop
    exact ⟨rfl, _, msg, _, rfl, hmsg⟩
  · cases h

end Iterator

/-! ### The group with its engines -/

/-- The state machine the partitions keep. -/
structure Machine (σ : Type) where
  /-- The state of an engine nothing was applied to. -/
  init : σ
  /-- What applying an entry does. -/
  apply : σ → Entry LogMsg → σ

/-- The state after the entries. -/
def Machine.run {σ : Type} (M : Machine σ) (es : List (Entry LogMsg)) : σ :=
  es.foldl M.apply M.init

/-- How far the loop that `replicatingLogs_` guards has come. -/
inductive AppendLoop (σ : Type)
  | idle
  /-- The iterator is to be made or resumed. -/
  | collected (termId : ℕ) (tasks : List (Task σ))
  /-- The iterator is valid, and handed to `appendLogsInternal`. -/
  | built (termId : ℕ) (batch : TaskBatch σ)
  /-- Its logs are written and replicated. -/
  | replicating (termId : ℕ) (rest : List (Task σ))

/-- An operation that was logged. -/
structure Logged (σ : Type) where
  /-- The term of its log. -/
  term : ℕ
  /-- The id of its log. -/
  id : ℕ
  /-- The operation. -/
  op : σ → Option LogMsg
  /-- The state it was called on. -/
  state : σ

/-- The group with its engines. -/
structure Store (σ : Type) where
  /-- The group. -/
  group : Group
  /-- The storage engine of each partition. -/
  engine : HostAddr → σ
  /-- The loop of each partition. -/
  loop : HostAddr → AppendLoop σ
  /-- The operations logged so far. -/
  logged : List (Logged σ)

/-- One step. -/
inductive StoreAction (σ : Type)
  /-- Anything but writing a leader's logs. -/
  | raft (act : Action)
  /-- `appendLogAsync` takes the logs of the buffer; `canAppendLogs` asks for a
  running leader. -/
  | collect (a : HostAddr) (tasks : List (Task σ))
  /-- The iterator is made or resumed; `more` are the logs that have come in the
  meantime, which it goes on with when nothing is left. -/
  | build (a : HostAddr) (more : List (Task σ))
  /-- `appendLogsInternal` writes the logs. -/
  | write (a : HostAddr)

/-- A leader writes logs. -/
def Action.isAppendLogs : Action → Bool
  | .appendLogs _ _ => true
  | _ => false

/-- `reset` is called, which cleans up the storage engine. -/
def RaftPart.cleansUp (p : RaftPart) (req : AppendLogRequest) (recent : Bool) : Bool :=
  match p.verifyLeader req recent with
  | (q, .succeeded) =>
      decide (q.status = .running ∧ (req.sendingSnapshot ∨
        req.lastLogIdSent < q.committedLogId ∧ q.term < req.lastLogTermSent))
  | _ => false

/-- The engine of a partition is cleaned up. -/
def Group.cleansUp (s : Group) (act : Action) (b : HostAddr) : Bool :=
  match act with
  | .recvAppendRequest i recent _ =>
      match s.net[i]? with
      | some (.appendReq _ dst _ req _) =>
          decide (dst = b) && (s.nodes dst).part.cleansUp req recent
      | _ => false
  | _ => false

namespace Store

variable {σ : Type}

/-- Fresh partitions with empty engines. -/
def init (cfg : Config) (M : Machine σ) : Store σ where
  group := Group.init cfg
  engine := fun _ => M.init
  loop := fun _ => .idle
  logged := []

variable (s : Store σ) (a : HostAddr)

def setLoop (l : AppendLoop σ) : Store σ :=
  { s with loop := fun b => if b = a then l else s.loop b }

/-- The loop of a partition after a step that leads the group to `g`: one whose
logs are committed goes on, and one whose replication is given up is over. -/
def loopAfter (act : Action) (g : Group) (b : HostAddr) : AppendLoop σ :=
  match s.loop b with
  | .replicating termId rest =>
      if (g.nodes b).replication.isSome then .replicating termId rest
      else if act = .processAppendLogResponses b true ∧ (s.group.committing b).isSome then
        .collected termId rest
      else .idle
  | l => l

/-- What a step of the group that leads to `g` does to engines and loops. -/
def after (M : Machine σ) (s : Store σ) (act : Action) (g : Group) : Store σ where
  group := g
  engine := fun b => (s.group.applied act b).foldl M.apply
    (if s.group.cleansUp act b then M.init else s.engine b)
  loop := s.loopAfter act g
  logged := s.logged

variable (cfg : Config)

/-- `appendLogAsync` takes the logs of the buffer. -/
def collect (s : Store σ) (a : HostAddr) (tasks : List (Task σ)) :
    Option (Store σ) :=
  match s.loop a with
  | .idle =>
      if a ∉ cfg.members ∨ (s.group.nodes a).dead ∨
          (s.group.nodes a).part.status ≠ .running ∨
          (s.group.nodes a).part.role ≠ .leader then none
      else some (s.setLoop a (.collected (s.group.nodes a).part.term tasks))
  | _ => none

/-- The batch a partition puts together. -/
def batchOf (tasks more : List (Task σ)) : Option (TaskBatch σ) :=
  (nextBatch (s.engine a) tasks).or (nextBatch (s.engine a) more)

/-- The iterator is made or resumed. -/
def build (s : Store σ) (a : HostAddr) (more : List (Task σ)) :
    Option (Store σ) :=
  match s.loop a with
  | .collected termId tasks =>
      if a ∉ cfg.members ∨ (s.group.nodes a).dead then none
      else
        match s.batchOf a tasks more with
        | some batch => some (s.setLoop a (.built termId batch))
        | none => some (s.setLoop a .idle)
  | _ => none

/-- The record of the operation a batch is led by, if it is. -/
def record (termId : ℕ) (batch : TaskBatch σ) : List (Logged σ) :=
  match batch.op with
  | some (op, x) => [⟨termId, (s.group.nodes a).part.lastLogId + 1, op, x⟩]
  | none => []

/-- `appendLogsInternal`. -/
def write (s : Store σ) (a : HostAddr) : Option (Store σ) :=
  match s.loop a with
  | .built termId batch =>
      if (s.group.nodes a).part.status = .running ∧ (s.group.nodes a).part.role = .leader ∧
          (s.group.nodes a).part.term = termId then
        match s.group.step cfg (.appendLogs a batch.logs) with
        | some g =>
            if (g.nodes a).replication.isSome then
              some { s.setLoop a (.replicating termId batch.rest) with
                group := g, logged := s.record a termId batch ++ s.logged }
            else some { s.setLoop a .idle with group := g }
        | none => none
      else some (s.setLoop a .idle)
  | _ => none

def step (cfg : Config) (M : Machine σ) (s : Store σ) : StoreAction σ → Option (Store σ)
  | .raft act => if act.isAppendLogs then none else (s.group.step cfg act).map (s.after M act)
  | .collect a tasks => s.collect cfg a tasks
  | .build a more => s.build cfg a more
  | .write a => s.write cfg a

/-! ### The property and the condition -/

/-- What an operation has logged it has computed from the state that the entries
before its own lead to, in every log it is committed in. -/
def Isolated (M : Machine σ) (s : Store σ) : Prop :=
  ∀ x ∈ s.logged, ∀ b e, x.id ≤ (s.group.nodes b).part.committedLogId →
    (s.group.nodes b).part.log[x.id - 1]? = some e → e.term = x.term →
    x.op x.state = some e.msg ∧ x.state = M.run ((s.group.nodes b).part.log.take (x.id - 1))

/-- The group meets the conditions of state machine safety, and a leader puts no
batch with an operation together while it holds logs it has not applied. -/
def isolationOk (s : Store σ) : StoreAction σ → Bool
  | .raft act => s.group.safetyOk cfg act
  | .build a more =>
      match s.loop a with
      | .collected termId tasks =>
          match s.batchOf a tasks more with
          | some batch =>
              batch.op.isNone || decide ((s.group.nodes a).part.role = .leader →
                (s.group.nodes a).part.term = termId →
                (s.group.nodes a).part.committedLogId = (s.group.nodes a).part.lastLogId)
          | none => true
      | _ => true
  | _ => true

/-- The group meets the conditions of state machine safety. -/
def groupOk (s : Store σ) : StoreAction σ → Bool
  | .raft act => s.group.safetyOk cfg act
  | _ => true

end Store

/-! ### The invariant -/

section Invariant

variable {σ : Type} {M : Machine σ} {cfg : Config}

/-- The state an operation was called on is that of the leader's log, as long as it
leads in the same term. -/
def AppendLoop.Current (M : Machine σ) (p : RaftPart) : AppendLoop σ → Prop
  | .idle => True
  | .collected termId _ => termId ≤ p.term
  | .replicating termId _ => termId ≤ p.term
  | .built termId batch =>
      termId ≤ p.term ∧ batch.logs ≠ [] ∧
        ∀ op x, batch.op = some (op, x) →
          (∃ source msg rest, batch.logs = (source, msg) :: rest ∧ op x = some msg) ∧
          (p.role = .leader → p.term = termId → x = M.run p.log)

def AppendLoop.Waits : AppendLoop σ → Prop
  | .replicating _ _ => True
  | _ => False

/-- The operation was called on the state of the log of its leader. -/
def Logged.Recorded (M : Machine σ) (L : ℕ → List (Entry LogMsg)) (x : Logged σ) : Prop :=
  0 < x.id ∧ x.state = M.run ((L x.term).take (x.id - 1)) ∧
    ∃ e, (L x.term)[x.id - 1]? = some e ∧ x.op x.state = some e.msg

theorem Logged.Recorded.mono (hL : ∀ t, L t <+: L' t) {x : Logged σ} (h : x.Recorded M L) :
    x.Recorded M L' := by
  obtain ⟨hpos, hstate, e, he, hop⟩ := h
  have hlt : x.id - 1 < (L x.term).length := (List.getElem?_eq_some_iff.mp he).1
  refine ⟨hpos, ?_, e, getElem?_of_isPrefix (hL x.term) he, hop⟩
  rw [hstate, take_eq_of_isPrefix (hL x.term) hlt.le]

theorem AppendLoop.Current.moves {n : Node} {l : AppendLoop σ} (h : l.Current M n.part)
    (hm : n.Moves n' es) (hidle : ¬ l.Waits → n.replication = none) : l.Current M n'.part := by
  have hle := hm.term
  cases l with
  | idle => trivial
  | collected termId tasks | replicating termId rest => exact le_trans h hle
  | built termId batch =>
    obtain ⟨hterm, hne, hop⟩ := h
    refine ⟨hterm.trans hle, hne, fun op x hx => ⟨(hop op x hx).1, fun hrole ht => ?_⟩⟩
    -- the partition has led in this term before, and has written nothing since
    have hsame : n'.part.term = n.part.term := by omega
    rw [hm.log hrole hsame (hidle id)]
    exact (hop op x hx).2 (hm.leads hrole hsame) (by omega)

namespace Group

variable {s : Group}

theorem Sound.termLog_isPrefix (h : Sound cfg s) (hnd : cfg.members.Nodup)
    (hok : s.safetyOk cfg act = true) (hs : s.step cfg act = some s') (t : ℕ) :
    s.termLog t <+: s'.termLog t := by
  have hfresh : s.freshElection act = true := by
    simp only [safetyOk, sendingOk, matchingOk, Bool.and_eq_true] at hok
    exact hok.1.1.1.1.1.1.1
  have heff := step_effect hs
  have hf := h.forget
  cases heff with
  | win ha hasking hwon =>
    obtain ⟨hlt, -⟩ := lt_of_freshElection hasking hwon hfresh
    have hnew := hf.election.win_fresh hf.fixed hnd ha hasking hwon hlt
    dsimp only
    split_ifs with ht
    · have hnil : s.termLog t = [] := by
        by_contra hne
        obtain ⟨w, hw, hwt⟩ := h.log.won t hne
        exact hnew w hw (hwt.trans ht)
      rw [hnil]
      exact nil_prefix
    · exact prefix_rfl
  | append _ hlogs hrole happ =>
    dsimp only
    split_ifs with ht
    · obtain ⟨-, -, hfull, -⟩ := (hf.log.wf _).appendToWal happ hlogs
      have hold := hf.log.termLog_eq_log hrole happ hlogs
      rw [ht, hfull]
      exact hold ▸ prefix_append _ _
    · exact prefix_rfl
  | _ => exact prefix_rfl

theorem Sound.cleansUp_eq_false (h : Sound cfg s) (hok : s.safetyOk cfg act = true)
    (b : HostAddr) : s.cleansUp act b = false := by
  unfold cleansUp
  split
  · rename_i i recent commitOk
    split
    · rename_i src dst rid req cut hmsg
      have hmatch : s.matchingOk (.recvAppendRequest i recent commitOk) = true := by
        simp only [safetyOk, sendingOk, Bool.and_eq_true] at hok
        exact hok.1.1.1.1.1
      obtain ⟨hsnap, hle⟩ := h.lastLogTermSent_le hmsg hmatch
      have hnot : (s.nodes dst).part.cleansUp req recent = false := by
        unfold RaftPart.cleansUp
        rcases (s.nodes dst).part.verifyLeader_cases req recent with ⟨code, heq, hcode⟩ |
          ⟨q, heq, hq⟩
        · rw [heq]
          rcases hcode with rfl | rfl
          · rfl
          · rfl
        · rw [heq]
          obtain ⟨wal, role, leader, hqeq, -⟩ := hq.eq
          have hterm : q.term = req.currentTerm := by rw [hqeq]
          simp only [hsnap, Bool.false_eq_true, false_or, decide_eq_false_iff_not]
          omega
      rw [hnot, Bool.and_false]
    · rfl
  · rfl

end Group

namespace Store

variable {s : Store σ} {act : StoreAction σ}

structure Inv (cfg : Config) (M : Machine σ) (s : Store σ) : Prop where
  reach : Reach (Group.step cfg) (fun s act => s.safetyOk cfg act = true) (Group.init cfg) s.group
  fits : ∀ a, (s.group.nodes a).Fits
  engine : ∀ a, s.engine a = M.run
    ((s.group.nodes a).part.log.take (s.group.nodes a).part.committedLogId)
  idle : ∀ a, ¬ (s.loop a).Waits → (s.group.nodes a).replication = none
  current : ∀ a, (s.loop a).Current M (s.group.nodes a).part
  logged : ∀ x ∈ s.logged, x.Recorded M s.group.termLog

theorem inv_init (cfg : Config) (M : Machine σ) : Inv cfg M (init cfg M) where
  reach := .refl
  fits := fun _ _ hr => nomatch hr
  engine := fun _ => rfl
  idle := fun _ _ => rfl
  current := fun _ => trivial
  logged := fun _ hx => nomatch hx

theorem Inv.raft (h : Inv cfg M s) (hnd : cfg.members.Nodup) {act : Action}
    (hact : act.isAppendLogs = false) (hok : s.group.safetyOk cfg act = true)
    (hs : s.group.step cfg act = some g) : Inv cfg M (s.after M act g) := by
  have hsound := Group.sound_of_reach hnd h.reach
  have happend : ∀ a logs, act ≠ .appendLogs a logs := by
    rintro a logs rfl
    cases hact
  have hmoves := hsound.moves h.fits hok happend hs
  have hwaits : ∀ a, ¬ (s.loopAfter act g a).Waits → (g.nodes a).replication = none := by
    intro a hnot
    unfold loopAfter at hnot
    split at hnot
    · split at hnot
      · exact absurd trivial hnot
      · rename_i hrep
        exact Option.not_isSome_iff_eq_none.mp hrep
    · exact (hmoves a).idle (h.idle a hnot)
  refine ⟨h.reach.tail hok hs, fun a => (hmoves a).fits, fun a => ?_, hwaits, fun a => ?_,
    fun x hx => (h.logged x hx).mono (hsound.termLog_isPrefix hnd hok hs)⟩
  · have hcommits : _ = _ := (hmoves a).commits
    simp only [after, hsound.cleansUp_eq_false hok a, Bool.false_eq_true, if_false]
    rw [hcommits, h.engine a, Machine.run, Machine.run, foldl_append]
  have hcur := (h.current a).moves (hmoves a) (h.idle a)
  simp only [after, loopAfter]
  split
  · rename_i termId rest hloop
    rw [hloop] at hcur
    split
    · exact hcur
    · split
      · exact hcur
      · trivial
  · exact hcur

variable {a : HostAddr}

theorem Inv.setLoop (h : Inv cfg M s) (hidle : (s.group.nodes a).replication = none)
    (hcur : l.Current M (s.group.nodes a).part) : Inv cfg M (s.setLoop a l) := by
  refine ⟨h.reach, h.fits, h.engine, fun b => ?_, fun b => ?_, h.logged⟩
  · simp only [Store.setLoop]
    split_ifs with hb
    · exact fun _ => hb ▸ hidle
    · exact h.idle b
  · simp only [Store.setLoop]
    split_ifs with hb
    · exact hb ▸ hcur
    · exact h.current b

theorem Inv.collect (h : Inv cfg M s) {tasks : List (Task σ)}
    (hs : s.collect cfg a tasks = some s') : Inv cfg M s' := by
  unfold Store.collect at hs
  split at hs
  · rename_i hloop
    split at hs
    · cases hs
    · cases hs
      exact h.setLoop (h.idle a (by rw [hloop]; exact id)) (le_refl _)
  · cases hs

theorem Inv.build (h : Inv cfg M s) (hnd : cfg.members.Nodup)
    (hok : s.isolationOk cfg (.build a more) = true) (hs : s.build cfg a more = some s') :
    Inv cfg M s' := by
  have hsound := Group.sound_of_reach hnd h.reach
  unfold Store.build at hs
  split at hs
  · rename_i termId tasks hloop
    have hidle := h.idle a (by rw [hloop]; exact id)
    have hcur := h.current a
    rw [hloop] at hcur
    split at hs
    · cases hs
    split at hs
    · rename_i batch hbatch
      cases hs
      simp only [isolationOk, hloop, hbatch, Bool.or_eq_true, decide_eq_true_eq] at hok
      have hled : batch.LedBy (s.engine a) := by
        rcases Option.or_eq_some_iff.mp hbatch with hb | ⟨-, hb⟩
        · exact ledBy_of_nextBatch hb
        · exact ledBy_of_nextBatch hb
      refine h.setLoop hidle ⟨hcur, hled.logs, fun op x hop => ?_⟩
      obtain ⟨hx, hmsg⟩ := hled.op op x hop
      refine ⟨hmsg, fun hrole hterm => ?_⟩
      have hall : (s.group.nodes a).part.committedLogId = (s.group.nodes a).part.lastLogId := by
        rcases hok with hnone | hall
        · rw [hop] at hnone
          cases hnone
        · exact hall hrole hterm
      rw [hx, h.engine a, hall, ← (hsound.log.wf a).length_log, take_length]
    · cases hs
      exact h.setLoop hidle trivial
  · cases hs

/-- How a leader writes its logs. -/
theorem appendLogs_cases {s s' : Group} (h : s.step cfg (.appendLogs a logs) = some s') :
    ∃ n, s'.nodes = (s.setNode a n).nodes ∧
      (n = s.nodes a ∧ s'.termLog = s.termLog ∧ (s.nodes a).replication = none ∨
        ∃ r, logs ≠ [] ∧ (s.nodes a).part.role = .leader ∧
          (s.nodes a).part.appendToWal ((s.nodes a).part.lastLogId + 1) (s.nodes a).part.term
            logs = (n.part, true) ∧
          n.replication = some r ∧ r.committedId = (s.nodes a).part.committedLogId ∧
          s'.termLog = fun t => if t = (s.nodes a).part.term then n.part.wal.full
            else s.termLog t) := by
  unfold Group.step at h
  split at h
  · simp only [Group.perform, Group.appendLogs] at h
    split at h
    · cases h
    rename_i hg
    simp only [not_or, Bool.not_eq_true, Option.isSome_eq_false_iff, Option.isNone_iff_eq_none,
      not_not] at hg
    split at h
    · rename_i p' happ
      cases h
      rcases RaftPart.appendToWal_cases happ with ⟨-, rfl⟩ | ⟨h0, -⟩ | ⟨h0, -⟩
      · exact ⟨_, rfl, .inl ⟨rfl, rfl, hg.1⟩⟩
      · cases h0
      · cases h0
    · rename_i p' happ
      cases h
      exact ⟨_, rfl, .inr ⟨_, hg.2.1, hg.2.2.2, happ, rfl, rfl, rfl⟩⟩
  · cases h

theorem Inv.write (h : Inv cfg M s) (hnd : cfg.members.Nodup) (hs : s.write cfg a = some s') :
    Inv cfg M s' := by
  have hsound := Group.sound_of_reach hnd h.reach
  unfold Store.write at hs
  split at hs
  · rename_i termId batch hloop
    have hidle := h.idle a (by rw [hloop]; exact id)
    have hcur := h.current a
    rw [hloop] at hcur
    obtain ⟨hle, hne, hop⟩ := hcur
    split_ifs at hs with hlead
    · split at hs
      · rename_i g hg
        have hreach := h.reach.tail rfl hg
        have hmono := hsound.termLog_isPrefix hnd rfl hg
        obtain ⟨n, hnodes, ⟨rfl, htl, hrep⟩ | ⟨r, -, -, happ, hrep, hcid, htl⟩⟩ :=
          appendLogs_cases hg
        · -- nothing was written
          rw [Group.setNode_self] at hnodes
          simp only [hnodes, hrep] at hs
          cases hs
          have hlog : ∀ x ∈ s.logged, x.Recorded M g.termLog :=
            fun x hx => (h.logged x hx).mono hmono
          have hset := h.setLoop (l := .idle) hidle trivial
          refine ⟨hreach, ?_, ?_, ?_, ?_, hlog⟩
          · rw [hnodes]; exact hset.fits
          · rw [hnodes]; exact hset.engine
          · rw [hnodes]; exact hset.idle
          · rw [hnodes]; exact hset.current
        have hself : g.nodes a = n := by rw [hnodes, Group.setNode_nodes_self]
        have hother : ∀ b, b ≠ a → g.nodes b = s.group.nodes b := by
          intro b hb
          rw [hnodes, Group.setNode_nodes_of_ne _ _ hb]
        have hwf := hsound.log.wf a
        obtain ⟨-, hlog⟩ := hwf.leader_append happ hne
        obtain ⟨-, -, hfull, -⟩ := hwf.appendToWal happ hne
        have heq := RaftPart.appendToWal_eq happ
        have hcomm : n.part.committedLogId = (s.group.nodes a).part.committedLogId := by rw [heq]
        have hterm : n.part.term = (s.group.nodes a).part.term := by rw [heq]
        simp only [hself, hrep] at hs
        cases hs
        refine ⟨hreach, fun b => ?_, fun b => ?_, fun b => ?_, fun b => ?_, fun x hx => ?_⟩
        · by_cases hb : b = a
          · rw [hb, hself]
            intro r' hr' _ _
            rw [hrep] at hr'
            cases hr'
            rw [hcid, hcomm]
          · rw [hother b hb]
            exact h.fits b
        · by_cases hb : b = a
          · rw [hb, hself, hlog, hcomm]
            exact h.engine a
          · rw [hother b hb]
            exact h.engine b
        · by_cases hb : b = a
          · rw [hb]
            simp only [Store.setLoop]
            exact fun hnot => absurd trivial hnot
          · rw [hother b hb]
            simp only [Store.setLoop, if_neg hb]
            exact h.idle b
        · by_cases hb : b = a
          · rw [hb, hself]
            simp only [Store.setLoop]
            exact hle.trans hterm.ge
          · rw [hother b hb]
            simp only [Store.setLoop, if_neg hb]
            exact h.current b
        rcases mem_append.mp hx with hx | hx
        · -- the operation that was written just now
          unfold record at hx
          split at hx
          · rename_i op state hbatch
            rw [mem_singleton] at hx
            obtain ⟨⟨source, msg, rest, hlogs, hmsg⟩, hstate⟩ := hop op state hbatch
            have hlen := hwf.length_log
            have htermLog : g.termLog termId = (s.group.nodes a).part.log ++
                batch.logs.map fun l => ⟨(s.group.nodes a).part.term, l.1, l.2⟩ := by
              rw [htl, ← hfull]
              exact if_pos hlead.2.2.symm
            rw [hx]
            refine ⟨Nat.succ_pos _, ?_, ⟨(s.group.nodes a).part.term, source, msg⟩, ?_, hmsg⟩
            · simp only [Nat.add_sub_cancel, htermLog]
              rw [← hlen, take_left]
              exact hstate hlead.2.1 hlead.2.2
            · simp only [Nat.add_sub_cancel, htermLog]
              rw [← hlen, getElem?_append_right (le_refl _), Nat.sub_self, hlogs]
              rfl
          · cases hx
        · exact (h.logged x hx).mono hmono
      · cases hs
    · cases hs
      exact h.setLoop hidle trivial
  · cases hs

theorem Inv.step (h : Inv cfg M s) (hnd : cfg.members.Nodup) (hok : s.isolationOk cfg act = true)
    (hs : s.step cfg M act = some s') : Inv cfg M s' := by
  cases act with
  | raft act =>
    simp only [Store.step] at hs
    split at hs
    · cases hs
    · rename_i hact
      obtain ⟨g, hg, rfl⟩ := Option.map_eq_some_iff.mp hs
      exact h.raft hnd (Bool.eq_false_iff.mpr hact) hok hg
  | collect a tasks => exact h.collect hs
  | build a more => exact h.build hnd hok hs
  | write a => exact h.write hnd hs

/-- A log that has an entry of the operation's term at its id is the log of the
operation's leader up to there. -/
theorem Inv.isolated (h : Inv cfg M s) (hnd : cfg.members.Nodup) : s.Isolated M := by
  have hsound := Group.sound_of_reach hnd h.reach
  intro x hx b e _ he hterm
  obtain ⟨hpos, hstate, e', he', hop⟩ := h.logged x hx
  have hbuilt : Built Entry.term s.group.termLog (s.group.nodes b).part.log :=
    (hsound.log.built b).take _
  have hpre := hbuilt (x.id - 1) e he
  rw [hterm] at hpre
  have hlt : x.id - 1 < (s.group.nodes b).part.log.length := (List.getElem?_eq_some_iff.mp he).1
  have hsame : e' = e := by
    have := getElem?_of_isPrefix hpre (by rw [getElem?_take_of_lt (Nat.lt_succ_self _)]; exact he)
    rw [this] at he'
    exact (Option.some.inj he').symm
  refine ⟨hsame ▸ hop, ?_⟩
  rw [hstate]
  rw [take_eq_of_isPrefix hpre (by rw [length_take]; omega), take_take,
    min_eq_left (Nat.le_succ _)]

/-- **Atomic operations are isolated.**  In every run that meets the conditions of
state machine safety, and in which a leader puts no batch with an operation
together while it holds logs it has not applied, what an operation logs it has
computed from the state that exactly the entries before its own lead to. -/
theorem isolated_of_isolationOk (cfg : Config) (hnd : cfg.members.Nodup) (M : Machine σ)
    {s : Store σ}
    (h : Reach (Store.step cfg M) (fun s act => s.isolationOk cfg act = true) (init cfg M) s) :
    s.Isolated M :=
  (h.invariant (inv_init cfg M) fun _ _ _ hinv hok hs => hinv.step hnd hok hs).isolated hnd

end Store

end Invariant

/-! ### Runs -/

namespace Store

/-- A state machine that keeps everything it is given. -/
def journal : Machine (List (Entry LogMsg)) where
  init := []
  apply := fun es e => es ++ [e]

variable (es : List (Entry LogMsg))

/-- An operation that logs how many entries have been applied. -/
def countApplied : Option LogMsg := some (.data [UInt8.ofNat es.length])

def writes (a : HostAddr) (task : Task (List (Entry LogMsg))) :
    List (StoreAction (List (Entry LogMsg))) :=
  [.collect a [task], .build a [], .write a]

/-- The first partition becomes leader and commits a log, and then the given one,
which only the second partition gets. -/
def firstTerm (task : Task (List (Entry LogMsg))) : List (StoreAction (List (Entry LogMsg))) :=
  [.startElection (1, 1) false, .prepareElection (1, 1) 0, .recvVoteRequest 0 false,
   .recvVoteResponse 1, .processElection (1, 1) 0, .announceLeader (1, 1) 0].map .raft ++
  writes (1, 1) (.normal 0 (.data [1])) ++
  [.replicateLogs (1, 1), .hostAppendLogs (1, 1) 0,
   .hostAppendLogs (1, 1) 0, .recvAppendRequest 1 false true, .recvAppendRequest 1 false true,
   .recvAppendResponse 1, .recvAppendResponse 1,
   .processAppendLogResponses (1, 1) true].map .raft ++
  [.build (1, 1) [task], .write (1, 1)] ++
  [.replicateLogs (1, 1), .hostAppendLogs (1, 1) 0, .recvAppendRequest 1 false true,
   .recvAppendResponse 1, .processAppendLogResponses (1, 1) true].map .raft

/-- The second partition becomes leader with two logs, of which it has applied only
the first, and commits an operation. -/
def catchUpRun : List (StoreAction (List (Entry LogMsg))) :=
  firstTerm (.normal 0 (.data [2])) ++
  [.startElection (2, 2) true, .prepareElection (2, 2) 0, .recvVoteRequest 2 false,
   .recvVoteResponse 2, .processElection (2, 2) 0, .announceLeader (2, 2) 0].map .raft ++
  writes (2, 2) (.atomicOp 0 countApplied) ++
  [.replicateLogs (2, 2), .hostAppendLogs (2, 2) 1,
   .recvAppendRequest 2 false true, .recvAppendResponse 2, .recvAppendRequest 2 false true,
   .recvAppendResponse 2, .recvAppendRequest 2 false true, .recvAppendResponse 2,
   .processAppendLogResponses (2, 2) true].map .raft

theorem isolated_firstTerm :
    ∃ s, Reach (Store.step trio journal) (fun s act => s.isolationOk trio act = true)
        (init trio journal) s ∧
      s.logged.map (fun x => (x.id, x.state.length)) = [(2, 1)] ∧
      (s.group.nodes (1, 1)).part.committedLogId = 2 ∧ s.Isolated journal := by
  obtain ⟨s, hreach, hs⟩ := exists_reach_of_run (Store.step trio journal)
    (fun s act => s.isolationOk trio act = true) (init trio journal)
    (fun s => decide (s.logged.map (fun x => (x.id, x.state.length)) = [(2, 1)] ∧
      (s.group.nodes (1, 1)).part.committedLogId = 2))
    (firstTerm (.atomicOp 0 countApplied)) (by decide +kernel)
  obtain ⟨hlogged, hcommitted⟩ := of_decide_eq_true hs
  exact ⟨s, hreach, hlogged, hcommitted, isolated_of_isolationOk trio (by decide) journal hreach⟩

theorem journal_run : journal.run es = es := by
  have hfold : ∀ acc : List (Entry LogMsg), es.foldl journal.apply acc = acc ++ es := by
    induction es with
    | nil => intro acc; rw [foldl_nil, append_nil]
    | cons e es ih =>
      intro acc
      rw [foldl_cons, ih]
      simp [journal]
  exact hfold []

/-- **An operation of a new leader may miss a log**, even though the group is safe:
it is committed as log 3, but was called on the state after log 1. -/
theorem not_isolated_catchUpRun :
    ∃ s, Reach (Store.step trio journal) (fun s act => s.groupOk trio act = true)
        (init trio journal) s ∧ ¬ s.Isolated journal := by
  obtain ⟨s, hreach, hs⟩ := exists_reach_of_run (Store.step trio journal)
    (fun s act => s.groupOk trio act = true) (init trio journal)
    (fun s => decide (s.logged.map (fun x => (x.term, x.id, x.state.length)) = [(2, 3, 1)] ∧
      (s.group.nodes (2, 2)).part.log.map Entry.term = [1, 1, 2] ∧
      (s.group.nodes (2, 2)).part.committedLogId = 3))
    catchUpRun (by decide +kernel)
  obtain ⟨hlogged, hlog, hcommitted⟩ := of_decide_eq_true hs
  refine ⟨s, hreach, fun hiso => ?_⟩
  obtain ⟨x, hx, hfields⟩ := mem_map.mp (hlogged ▸ mem_singleton_self (2, 3, 1))
  simp only [Prod.mk.injEq] at hfields
  obtain ⟨hterm, hid, hlen⟩ := hfields
  have hget : ((s.group.nodes (2, 2)).part.log.map Entry.term)[2]? = some 2 := by rw [hlog]; rfl
  rw [getElem?_map, Option.map_eq_some_iff] at hget
  obtain ⟨e, he, het⟩ := hget
  have hstate := (hiso x hx (2, 2) e (by omega) (by rw [hid]; exact he) (by omega)).2
  have hlength := congrArg length hlog
  rw [length_map] at hlength
  rw [hstate, journal_run, hid, length_take, hlength] at hlen
  cases hlen

end Store

end K2Graph.Raft
