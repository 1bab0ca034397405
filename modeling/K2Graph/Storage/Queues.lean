import Mathlib.Data.List.Flatten
import K2Graph.Lib.Run
import K2Graph.Storage.K2

/-!
# The request queues of the K2 client

A handler does not call the K2 client.  It pushes requests onto the queues of
`k2_queue_defs.h`, one queue for each kind of request, and waits for the futures it
chooses to wait for.  A poller in another thread empties the queues, one after the
other, in each turn of `_pollForWork`: `BeginTxnQ` first, then `EndTxnQ`, and
`WriteRequestQ` last.  A turn is over when all requests it started are complete.

So a write that still lies in its queue when the end of its transaction is pushed is
started behind that end.  `future_addEdges` never waits for the in-edge records it
writes, and `future_addVertices` does not wait for a vertex-to-tag record if the tag
record's future threw.

## Main results

* `System.effect_of_step` — all a step can do.
* `written_before_end` — **if no handler pushes its end before its writes have left the
  queue, every write comes before the end of its transaction.**
* `not_written_before_end` — an edge that is written behind the commit.
-/

namespace K2Graph.Storage

open List Function

/-! ### Handlers -/

/-- What a handler does next, while its transaction is open. -/
inductive Instr where
  /-- Push a write.  The writes of a handler are numbered. -/
  | push
  /-- Wait for the `k`-th write.  A bad status clears `isSucceed` if it is looked at; an
  exception is caught, clears `isSucceed` and skips the given number of waits. -/
  | wait (k : ℕ) (checked : Bool) (skip : ℕ)
  /-- Wait for the `k`-th write where nothing catches an exception. -/
  | waitOrLeave (k : ℕ)

/-- A handler, from the begin of its transaction to its answer. -/
structure Handler where
  /-- What it does while its transaction is open. -/
  script : List Instr
  /-- It commits, and answers without a failed code, whatever became of its calls. -/
  unchecked : Bool

namespace Handler

/-- `future_addVertices`: the two records of a turn are pushed, then waited for. -/
def addVertices (batchSize : ℕ) : Handler where
  script := (List.range batchSize).flatMap fun i =>
    [.push, .push, .wait (2 * i) true 1, .wait (2 * i + 1) false 0]
  unchecked := false

/-- `future_addEdges`: the vertex-to-edge-type records are pushed, then the two records
of each edge, of which the first is waited for. -/
def addEdges (vid2Edges batch : ℕ) : Handler where
  script := List.replicate vid2Edges .push ++ (List.range batch).flatMap fun i =>
    [.push, .push, .wait (vid2Edges + 2 * i) true 0]
  unchecked := false

/-- The writes of `future_deleteVertices` from the `k`-th on: a single one, or the two
records of an edge. -/
def deletions (k : ℕ) : List Bool → List Instr
  | [] => []
  | false :: rest => .push :: .waitOrLeave k :: deletions (k + 1) rest
  | true :: rest =>
    .push :: .push :: .waitOrLeave k :: .waitOrLeave (k + 1) :: deletions (k + 2) rest

/-- `future_deleteVertices`, whose writes are single ones and pairs. -/
def deleteVertices (writes : List Bool) : Handler where
  script := deletions 0 writes
  unchecked := true

end Handler

inductive Phase where
  | idle
  /-- It waits for the begin of its transaction. -/
  | beginning
  | running
  /-- It waits for the end of its transaction. -/
  | ending
  /-- It is through, with or without success. -/
  | done (success : Bool)
  deriving DecidableEq

/-- A thread. -/
structure Thread where
  unchecked : Bool
  phase : Phase
  rest : List Instr
  isSucceed : Bool
  /-- How many writes it has pushed. -/
  pushed : ℕ

/-- A thread that is to run the handler. -/
def Handler.thread (h : Handler) : Thread := ⟨h.unchecked, .idle, h.script, true, 0⟩

/-! ### The system -/

/-- A request that was taken from its queue.  A transaction is named by its thread. -/
inductive Request where
  | beginTxn (i : ℕ)
  | endTxn (i : ℕ)
  | write (i k : ℕ)
  deriving DecidableEq

/-- A request that was executed: handed over to the handle of a known transaction. -/
inductive Event where
  | ended (i : ℕ)
  | wrote (i k : ℕ)
  deriving DecidableEq

/-- The queues, among those of `_pollForWork`, that a transaction which writes uses. -/
inductive Queue where
  | beginTxnQ | endTxnQ | writeRequestQ

inductive Poller where
  /-- Between two turns of `_pollForWork`. -/
  | idle
  /-- Inside a turn, with these queues to go. -/
  | ready (qs : List Queue)
  /-- Inside `pollQ`, with the lock. -/
  | draining (q : Queue) (qs : List Queue)

/-- The state of the handlers' threads, the queues and the client. -/
structure System where
  threads : ℕ → Thread
  beginTxnQ : List ℕ
  /-- The thread, and `shouldCommit`. -/
  endTxnQ : List (ℕ × Bool)
  writeRequestQ : List (ℕ × ℕ)
  poller : Poller
  /-- The requests the current turn has started. -/
  inFlight : List Request
  /-- `_txns`. -/
  txns : List ℕ
  /-- The promises: whether the transaction was begun, and how the other calls ended. -/
  begun : ℕ → Option Bool
  written : ℕ → ℕ → Option Outcome
  finished : ℕ → Option Outcome
  /-- What was executed, in order. -/
  log : List Event

namespace System

/-- The system before any thread has started. -/
def init (handlers : ℕ → Handler) : System where
  threads i := (handlers i).thread
  beginTxnQ := []
  endTxnQ := []
  writeRequestQ := []
  poller := .idle
  inFlight := []
  txns := []
  begun _ := none
  written _ _ := none
  finished _ := none
  log := []

section

variable (s : System)

def setThread (i : ℕ) (th : Thread) : System :=
  { s with threads := update s.threads i th }

/-- `requestQMutex` is free. -/
def unlocked : Bool :=
  match s.poller with
  | .draining _ _ => false
  | _ => true

/-- The thread waits for a write, whose future is there. -/
def afterWait (th : Thread) (rest : List Instr) (checked : Bool) (skip : ℕ) : Outcome → Thread
  | .ok => { th with rest := rest }
  | .failed => { th with rest := rest, isSucceed := th.isSucceed && !checked }
  | .threw => { th with rest := rest.drop skip, isSucceed := false }

def threadStep (i : ℕ) : Option System :=
  let th := s.threads i
  match th.phase with
  | .idle =>
    if s.unlocked then
      some { s.setThread i { th with phase := .beginning } with beginTxnQ := s.beginTxnQ ++ [i] }
    else none
  | .beginning =>
    match s.begun i with
    | none => none
    | some true => some (s.setThread i { th with phase := .running })
    | some false => some (s.setThread i { th with phase := .done false })
  | .running =>
    match th.rest with
    | .push :: rest =>
      if s.unlocked then
        some { s.setThread i { th with rest := rest, pushed := th.pushed + 1 } with
          writeRequestQ := s.writeRequestQ ++ [(i, th.pushed)] }
      else none
    | .wait k checked skip :: rest =>
      match s.written i k with
      | none => none
      | some o => some (s.setThread i (afterWait th rest checked skip o))
    | .waitOrLeave k :: rest =>
      match s.written i k with
      | none => none
      | some .threw => some (s.setThread i { th with phase := .done false })
      | some _ => some (s.setThread i { th with rest := rest })
    | [] =>
      if s.unlocked then
        some { s.setThread i { th with phase := .ending } with
          endTxnQ := s.endTxnQ ++ [(i, th.unchecked || th.isSucceed)] }
      else none
  | .ending =>
    match s.finished i with
    | none => none
    | some .threw => some (s.setThread i { th with phase := .done false })
    | some o =>
      some (s.setThread i
        { th with phase := .done (th.unchecked || (th.isSucceed && decide (o = .ok))) })
  | .done _ => none

/-- `pollQ`, its loop body for each of the queues; with an empty queue, its end. -/
def drainStep (qs : List Queue) : Queue → System
  | .beginTxnQ =>
    match s.beginTxnQ with
    | [] => { s with poller := .ready qs }
    | i :: rest => { s with beginTxnQ := rest, inFlight := s.inFlight ++ [.beginTxn i] }
  | .endTxnQ =>
    match s.endTxnQ with
    | [] => { s with poller := .ready qs }
    | (i, shouldCommit) :: rest =>
      if i ∈ s.txns then
        { s with endTxnQ := rest, inFlight := s.inFlight ++ [.endTxn i],
                 log := s.log ++ [.ended i] }
      else
        { s with endTxnQ := rest, finished := update s.finished i
                   (some (if shouldCommit then .failed else .ok)) }
  | .writeRequestQ =>
    match s.writeRequestQ with
    | [] => { s with poller := .ready qs }
    | (i, k) :: rest =>
      if i ∈ s.txns then
        { s with writeRequestQ := rest, inFlight := s.inFlight ++ [.write i k],
                 log := s.log ++ [.wrote i k] }
      else
        { s with writeRequestQ := rest, written := update s.written i
                   (update (s.written i) k (some .failed)) }

/-- One step of the poller.  A new turn waits for the requests of the last one. -/
def pollerStep : Option System :=
  match s.poller with
  | .idle =>
    if s.inFlight = [] then
      some { s with poller := .ready [.beginTxnQ, .endTxnQ, .writeRequestQ] }
    else none
  | .ready [] => some { s with poller := .idle }
  | .ready (q :: qs) => some { s with poller := .draining q qs }
  | .draining q qs => some (s.drainStep qs q)

def complete (o : Outcome) : Request → System
  | .beginTxn i =>
    -- `beginTxn` returns a handle or throws
    { s with inFlight := s.inFlight.erase (.beginTxn i),
             txns := if o = .threw then s.txns else i :: s.txns,
             begun := update s.begun i (some (decide (o ≠ .threw))) }
  | .endTxn i =>
    { s with inFlight := s.inFlight.erase (.endTxn i),
             txns := if o = .threw then s.txns else s.txns.filter (· ≠ i),
             finished := update s.finished i (some o) }
  | .write i k =>
    { s with inFlight := s.inFlight.erase (.write i k),
             written := update s.written i
               (update (s.written i) k (some o)) }

/-- What may happen next. -/
inductive Action where
  | thread (i : ℕ)
  | poll
  | complete (r : Request) (o : Outcome)

def step : Action → Option System
  | .thread i => s.threadStep i
  | .poll => s.pollerStep
  | .complete r o => if r ∈ s.inFlight then some (s.complete o r) else none

/-! ### What is to hold -/

/-- No write of a transaction is executed after the end of the transaction. -/
def WritesBeforeEnd : Prop :=
  ∀ i l₁ l₂, s.log = l₁ ++ .ended i :: l₂ → ∀ k, .wrote i k ∉ l₂

/-- All the writes of a handler that reports success were executed before the end of its
transaction. -/
def SuccessWritten : Prop :=
  ∀ i, (s.threads i).phase = .done true → ∀ k < (s.threads i).pushed,
    ∃ l₁ l₂, s.log = l₁ ++ .ended i :: l₂ ∧ .wrote i k ∈ l₁

/-- When a handler pushes the end of its transaction, none of its writes is still in the
queue. -/
def endsAlone : Action → Bool
  | .thread i =>
    (s.threads i).phase ≠ .running || (s.threads i).rest ≠ [] ||
      s.writeRequestQ.all fun w => w.1 ≠ i
  | _ => true

end

/-! ### All a step can do -/

/-- A thread goes on without pushing a write or an end. -/
inductive Moves (s : System) (i : ℕ) : Phase → Phase → Prop
  | start : Moves s i .idle .beginning
  | begun : s.begun i = some true → Moves s i .beginning .running
  | notBegun : Moves s i .beginning (.done false)
  | waited : Moves s i .running .running
  | left : Moves s i .running (.done false)
  | finished (success : Bool) : s.finished i ≠ none → Moves s i .ending (.done success)

inductive Effect (s : System) : System → Prop
  | move {i : ℕ} {th : Thread} (q : List ℕ) : th.pushed = (s.threads i).pushed →
      Moves s i (s.threads i).phase th.phase →
      Effect s { s.setThread i th with beginTxnQ := q }
  | pushWrite {i : ℕ} {th : Thread} : (s.threads i).phase = .running → th.phase = .running →
      th.pushed = (s.threads i).pushed + 1 →
      Effect s { s.setThread i th with writeRequestQ := s.writeRequestQ ++
        [(i, (s.threads i).pushed)] }
  | pushEnd {i : ℕ} {th : Thread} (shouldCommit : Bool) : (s.threads i).phase = .running →
      th.phase = .ending → th.pushed = (s.threads i).pushed → (∀ k, (i, k) ∉ s.writeRequestQ) →
      Effect s { s.setThread i th with endTxnQ := s.endTxnQ ++ [(i, shouldCommit)] }
  | poll (p : Poller) : Effect s { s with poller := p }
  | takeBegin (i : ℕ) (q : List ℕ) :
      Effect s { s with beginTxnQ := q, inFlight := s.inFlight ++ [.beginTxn i] }
  | takeEnd {i : ℕ} {b : Bool} {rest : List (ℕ × Bool)} : s.endTxnQ = (i, b) :: rest → i ∈ s.txns →
      Effect s { s with endTxnQ := rest, inFlight := s.inFlight ++ [.endTxn i],
                        log := s.log ++ [.ended i] }
  | refuseEnd {i : ℕ} {b : Bool} {rest : List (ℕ × Bool)} (o : Outcome) :
      s.endTxnQ = (i, b) :: rest → i ∉ s.txns →
      Effect s { s with endTxnQ := rest, finished := update s.finished i (some o) }
  | takeWrite {i k : ℕ} {rest : List (ℕ × ℕ)} : s.writeRequestQ = (i, k) :: rest → i ∈ s.txns →
      Effect s { s with writeRequestQ := rest, inFlight := s.inFlight ++ [.write i k],
                        log := s.log ++ [.wrote i k] }
  | refuseWrite {i k : ℕ} {rest : List (ℕ × ℕ)} (written : ℕ → ℕ → Option Outcome) :
      s.writeRequestQ = (i, k) :: rest → i ∉ s.txns →
      Effect s { s with writeRequestQ := rest, written := written }
  | begun (i : ℕ) (r : List Request) (ok : Bool) : (∀ x ∈ r, x ∈ s.inFlight) →
      Effect s { s with inFlight := r, txns := if ok then i :: s.txns else s.txns,
                        begun := update s.begun i (some ok) }
  | finished {i : ℕ} (r : List Request) (txns : List ℕ) (o : Outcome) : (∀ x ∈ r, x ∈ s.inFlight) →
      .endTxn i ∈ s.inFlight → (∀ j, j ≠ i → j ∈ s.txns → j ∈ txns) →
      Effect s { s with inFlight := r, txns := txns,
                        finished := update s.finished i (some o) }
  | written (r : List Request) (written : ℕ → ℕ → Option Outcome) : (∀ x ∈ r, x ∈ s.inFlight) →
      Effect s { s with inFlight := r, written := written }

variable {s : System}

theorem afterWait_eq (th : Thread) (rest : List Instr) (checked : Bool) (skip : ℕ) (o : Outcome) :
    (afterWait th rest checked skip o).pushed = th.pushed ∧
      (afterWait th rest checked skip o).phase = th.phase := by
  cases o <;> exact ⟨rfl, rfl⟩

theorem effect_of_threadStep (hok : s.endsAlone (.thread i) = true) (h : s.threadStep i = some t) :
    s.Effect t := by
  have hmove : ∀ th : Thread, th.pushed = (s.threads i).pushed →
      Moves s i (s.threads i).phase th.phase → s.Effect (s.setThread i th) :=
    fun th hpushed hm => .move s.beginTxnQ hpushed hm
  rw [threadStep] at h
  cases hp : (s.threads i).phase with
  | idle =>
    rw [hp] at h
    dsimp only at h
    split at h
    · cases h
      exact .move _ rfl (hp ▸ .start)
    · cases h
  | beginning =>
    rw [hp] at h
    dsimp only at h
    split at h
    · cases h
    · rename_i hb
      cases h
      exact hmove _ rfl (hp ▸ .begun hb)
    · cases h
      exact hmove _ rfl (hp ▸ .notBegun)
  | running =>
    rw [hp] at h
    dsimp only at h
    split at h
    · split at h
      · cases h
        exact .pushWrite hp rfl rfl
      · cases h
    · split at h
      · cases h
      cases h
      refine hmove _ (afterWait_eq ..).1 ?_
      rw [(afterWait_eq ..).2, hp]
      exact .waited
    · split at h
      · cases h
      · cases h
        exact hmove _ rfl (hp ▸ .left)
      cases h
      refine hmove _ rfl ?_
      rw [hp]
      exact .waited
    · rename_i hrest
      split at h
      · cases h
        simp only [endsAlone, hp, hrest, ne_eq, not_true_eq_false, decide_false, Bool.false_or,
          all_eq_true, decide_eq_true_eq] at hok
        exact .pushEnd _ hp rfl rfl fun k hk => hok (i, k) hk rfl
      · cases h
  | ending =>
    rw [hp] at h
    dsimp only at h
    have hfin : s.finished i ≠ none := by
      intro hnone
      rw [hnone] at h
      cases h
    split at h
    · cases h
    · cases h
      exact hmove _ rfl (hp ▸ .finished false hfin)
    · cases h
      exact hmove _ rfl (hp ▸ .finished _ hfin)
  | done b =>
    rw [hp] at h
    cases h

theorem effect_of_drainStep (qs : List Queue) (q : Queue) : s.Effect (s.drainStep qs q) := by
  cases q with
  | beginTxnQ =>
    rw [drainStep]
    split
    · exact .poll _
    · exact .takeBegin _ _
  | endTxnQ =>
    rw [drainStep]
    split
    · exact .poll _
    rename_i hq
    split
    · rename_i hi
      exact .takeEnd hq hi
    · rename_i hi
      exact .refuseEnd _ hq hi
  | writeRequestQ =>
    rw [drainStep]
    split
    · exact .poll _
    rename_i hq
    split_ifs with hi
    · exact .takeWrite hq hi
    · exact .refuseWrite _ hq hi

theorem effect_of_pollerStep (h : s.pollerStep = some t) : s.Effect t := by
  rw [pollerStep] at h
  split at h
  · split at h
    · cases h
      exact .poll _
    · cases h
  · cases h
    exact .poll _
  · cases h
    exact .poll _
  · cases h
    exact effect_of_drainStep _ _

theorem effect_of_complete (hr : r ∈ s.inFlight) (o : Outcome) : s.Effect (s.complete o r) := by
  have hsub : ∀ x ∈ s.inFlight.erase r, x ∈ s.inFlight := fun x hx => mem_of_mem_erase hx
  cases r with
  | beginTxn i =>
    cases o with
    | threw => exact .begun i _ false hsub
    | ok | failed => exact .begun i _ true hsub
  | endTxn i =>
    refine .finished _ _ o hsub hr fun j hj hmem => ?_
    split
    · exact hmem
    · exact mem_filter.mpr ⟨hmem, decide_eq_true hj⟩
  | write i k => exact .written _ _ hsub

/-- **All a step can do**, as long as handlers end their transactions alone. -/
theorem effect_of_step (hok : s.endsAlone a = true) (h : s.step a = some t) : s.Effect t := by
  cases a with
  | thread i => exact effect_of_threadStep hok h
  | poll => exact effect_of_pollerStep h
  | complete r o =>
    rw [step] at h
    split at h
    · rename_i hr
      cases h
      exact effect_of_complete hr o
    · cases h

/-! ### The invariant -/

/-- The end of the thread's transaction was not pushed yet. -/
def Early (s : System) (i : ℕ) : Prop :=
  (∀ b, (i, b) ∉ s.endTxnQ) ∧ .endTxn i ∉ s.inFlight ∧ .ended i ∉ s.log

/-- Every write comes before the end of its transaction, and the transaction is known
until then. -/
structure Inv (s : System) : Prop where
  fresh : ∀ i, (s.threads i).phase = .idle ∨ (s.threads i).phase = .beginning →
    s.Early i ∧ (s.begun i = some true → i ∈ s.txns)
  running : ∀ i, (s.threads i).phase = .running → s.Early i ∧ i ∈ s.txns
  queued : ∀ i k, (i, k) ∈ s.writeRequestQ → s.Early i ∧ i ∈ s.txns
  ending : ∀ i b, (i, b) ∈ s.endTxnQ → i ∈ s.txns ∧ .endTxn i ∉ s.inFlight ∧ .ended i ∉ s.log
  nodup : (s.endTxnQ.map Prod.fst).Nodup
  pushed : ∀ i k, k < (s.threads i).pushed → (i, k) ∈ s.writeRequestQ ∨ .wrote i k ∈ s.log
  ordered : ∀ i l₁ l₂, s.log = l₁ ++ .ended i :: l₂ →
    (∀ k < (s.threads i).pushed, .wrote i k ∈ l₁) ∧ ∀ k, .wrote i k ∉ l₂
  inFlight : ∀ i, .endTxn i ∈ s.inFlight → .ended i ∈ s.log
  finished : ∀ i, s.finished i ≠ none → .ended i ∈ s.log
  success : ∀ i, (s.threads i).phase = .done true → .ended i ∈ s.log

theorem inv_init (handlers : ℕ → Handler) : (init handlers).Inv where
  fresh _ _ := by simp [init, Early]
  running _ h := by cases h
  queued _ _ h := by cases h
  ending _ _ h := by cases h
  nodup := nodup_nil
  pushed _ _ h := absurd h (Nat.not_lt_zero _)
  ordered _ l₁ l₂ h := by cases l₁ <;> cases h
  inFlight _ h := by cases h
  finished _ h := absurd rfl h
  success _ h := by cases h

theorem threads_setThread (s : System) (i : ℕ) (th : Thread) (j : ℕ) :
    (s.setThread i th).threads j = if j = i then th else s.threads j := by
  by_cases h : j = i
  · rw [if_pos h, h]
    exact update_self ..
  · rw [if_neg h]
    exact update_of_ne h ..

theorem pushed_setThread (hpushed : th.pushed = (s.threads i).pushed) (j : ℕ) :
    ((s.setThread i th).threads j).pushed = (s.threads j).pushed := by
  rw [threads_setThread]
  split_ifs with h
  · rw [h, hpushed]
  · rfl

theorem Moves.fresh (h : Moves s i p p') (hp' : p' = .idle ∨ p' = .beginning) :
    p = .idle := by
  cases h <;> simp_all

theorem Moves.running (h : Moves s i p p') (hp' : p' = .running) :
    p = .beginning ∧ s.begun i = some true ∨ p = .running := by
  cases h <;> simp_all

theorem Moves.success (h : Moves s i p p') (hp' : p' = .done true) :
    s.finished i ≠ none := by
  cases h <;> simp_all

theorem Inv.move (hinv : s.Inv) (q : List ℕ) (hpushed : th.pushed = (s.threads i).pushed)
    (hm : Moves s i (s.threads i).phase th.phase) :
    Inv { s.setThread i th with beginTxnQ := q } where
  fresh j hj := by
    simp only [threads_setThread] at hj
    split_ifs at hj with h
    · exact h ▸ hinv.fresh i (.inl (hm.fresh hj))
    · exact hinv.fresh j hj
  running j hj := by
    simp only [threads_setThread] at hj
    split_ifs at hj with h
    · subst h
      obtain ⟨hp, hbegun⟩ | hp := hm.running hj
      · exact (hinv.fresh j (.inr hp)).imp_right fun h => h hbegun
      · exact hinv.running j hp
    · exact hinv.running j hj
  queued := hinv.queued
  ending := hinv.ending
  nodup := hinv.nodup
  pushed j k hk := hinv.pushed j k (pushed_setThread hpushed j ▸ hk)
  ordered j l₁ l₂ h := by
    have := hinv.ordered j l₁ l₂ h
    exact ⟨fun k hk => this.1 k (pushed_setThread hpushed j ▸ hk), this.2⟩
  inFlight := hinv.inFlight
  finished := hinv.finished
  success j hj := by
    simp only [threads_setThread] at hj
    split_ifs at hj with h
    · exact h ▸ hinv.finished i (hm.success hj)
    · exact hinv.success j hj

theorem Inv.pushWrite (hinv : s.Inv) (hphase : (s.threads i).phase = .running)
    (hth : th.phase = .running) (hpushed : th.pushed = (s.threads i).pushed + 1) :
    Inv { s.setThread i th with
      writeRequestQ := s.writeRequestQ ++ [(i, (s.threads i).pushed)] } := by
  have hrun := hinv.running i hphase
  -- the phases stay
  have hphases : ∀ j, ((s.setThread i th).threads j).phase = (s.threads j).phase := by
    intro j
    rw [threads_setThread]
    split_ifs with h
    · rw [h, hth, hphase]
    · rfl
  refine ⟨fun j hj => ?_, fun j hj => ?_, fun j k hk => ?_, hinv.ending, hinv.nodup,
    fun j k hk => ?_,
    fun j l₁ l₂ h => ?_, hinv.inFlight, hinv.finished, fun j hj => hinv.success j (hphases j ▸ hj)⟩
  · exact hinv.fresh j (hphases j ▸ hj)
  · exact hinv.running j (hphases j ▸ hj)
  · obtain hk | hk := mem_append.mp hk
    · exact hinv.queued j k hk
    · cases mem_singleton.mp hk
      exact hrun
  · simp only [threads_setThread] at hk
    split_ifs at hk with h
    · subst h
      rw [hpushed] at hk
      obtain rfl | hlt := Nat.lt_succ_iff_lt_or_eq.mp hk |>.symm
      · exact .inl (mem_append_right _ (mem_singleton_self _))
      · exact (hinv.pushed j k hlt).imp_left fun h => mem_append_left _ h
    · exact (hinv.pushed j k hk).imp_left fun h => mem_append_left _ h
  · have hne : j ≠ i := by
      rintro rfl
      exact hrun.1.2.2 (h ▸ mem_append_right _ mem_cons_self)
    have := hinv.ordered j l₁ l₂ h
    simp only [threads_setThread, if_neg hne]
    exact this

theorem Inv.pushEnd (hinv : s.Inv) (shouldCommit : Bool) (hphase : (s.threads i).phase = .running)
    (hth : th.phase = .ending) (hpushed : th.pushed = (s.threads i).pushed)
    (halone : ∀ k, (i, k) ∉ s.writeRequestQ) :
    Inv { s.setThread i th with endTxnQ := s.endTxnQ ++ [(i, shouldCommit)] } := by
  have hrun := hinv.running i hphase
  -- the others are as early as they were
  have hearly : ∀ j, j ≠ i → s.Early j →
      Early { s.setThread i th with endTxnQ := s.endTxnQ ++ [(i, shouldCommit)] } j := by
    intro j hj h
    refine ⟨fun b hb => ?_, h.2⟩
    obtain hb | hb := mem_append.mp hb
    · exact h.1 b hb
    · exact hj (Prod.ext_iff.mp (mem_singleton.mp hb)).1
  refine ⟨fun j hj => ?_, fun j hj => ?_, fun j k hk => ?_, fun j b hb => ?_, ?_, fun j k hk => ?_,
    fun j l₁ l₂ h => ?_, hinv.inFlight, hinv.finished, fun j hj => ?_⟩
  · simp only [threads_setThread] at hj
    split_ifs at hj with hne
    · simp [hth] at hj
    · exact ⟨hearly j hne (hinv.fresh j hj).1, (hinv.fresh j hj).2⟩
  · simp only [threads_setThread] at hj
    split_ifs at hj with hne
    · simp [hth] at hj
    · exact ⟨hearly j hne (hinv.running j hj).1, (hinv.running j hj).2⟩
  · have hne : j ≠ i := by
      rintro rfl
      exact halone k hk
    exact ⟨hearly j hne (hinv.queued j k hk).1, (hinv.queued j k hk).2⟩
  · obtain hb | hb := mem_append.mp hb
    · exact hinv.ending j b hb
    · cases mem_singleton.mp hb
      exact ⟨hrun.2, hrun.1.2⟩
  · simp only [map_append, map_cons]
    refine nodup_append.mpr ⟨hinv.nodup, nodup_singleton _, fun a ha b hb hab => ?_⟩
    obtain ⟨p, hp, rfl⟩ := mem_map.mp ha
    rw [mem_singleton.mp hb] at hab
    exact hrun.1.1 p.2 (hab ▸ hp)
  · exact hinv.pushed j k (pushed_setThread hpushed j ▸ hk)
  · have := hinv.ordered j l₁ l₂ h
    exact ⟨fun k hk => this.1 k (pushed_setThread hpushed j ▸ hk), this.2⟩
  · simp only [threads_setThread] at hj
    split at hj
    · simp [hth] at hj
    · exact hinv.success j hj

theorem Inv.calm (hinv : s.Inv) {p : Poller} {txns : List ℕ} {begun : ℕ → Option Bool}
    {written : ℕ → ℕ → Option Outcome} (hflight : ∀ i, .endTxn i ∈ r → .endTxn i ∈ s.inFlight)
    (htxns : ∀ i ∈ s.txns, i ∈ txns)
    (hbegun : ∀ i, begun i = some true → s.begun i = some true ∨ i ∈ txns) :
    Inv { s with poller := p, beginTxnQ := q, inFlight := r, txns := txns, begun := begun,
                 written := written } := by
  have hearly : ∀ i, s.Early i → Early { s with
      poller := p, beginTxnQ := q, inFlight := r, txns := txns, begun := begun,
      written := written } i :=
    fun i h => ⟨h.1, fun hi => h.2.1 (hflight i hi), h.2.2⟩
  refine ⟨fun i hi => ?_, fun i hi => (hinv.running i hi).imp (hearly i) (htxns i),
    fun i k hk => (hinv.queued i k hk).imp (hearly i) (htxns i), fun i b hb => ?_, hinv.nodup,
    hinv.pushed, hinv.ordered, fun i hi => hinv.inFlight i (hflight i hi), hinv.finished,
    hinv.success⟩
  · have h := hinv.fresh i hi
    exact ⟨hearly i h.1, fun hb => (hbegun i hb).elim (fun hb => htxns i (h.2 hb)) id⟩
  · have h := hinv.ending i b hb
    exact ⟨htxns i h.1, fun hi => h.2.1 (hflight i hi), h.2.2⟩

theorem split_concat {log : List Event} (h : log ++ [e'] = l₁ ++ e :: l₂) :
    (l₂ = [] ∧ e = e' ∧ l₁ = log) ∨ ∃ l, l₂ = l ++ [e'] ∧ log = l₁ ++ e :: l := by
  obtain rfl | ⟨l, x, rfl⟩ := eq_nil_or_concat' l₂
  · obtain ⟨h₁, h₂⟩ := append_inj' h rfl
    exact .inl ⟨rfl, (cons.inj h₂).1.symm, h₁.symm⟩
  rw [← cons_append, ← append_assoc] at h
  obtain ⟨h₁, h₂⟩ := append_inj' h rfl
  cases h₂
  exact .inr ⟨l, rfl, h₁⟩

theorem Inv.takeEnd (hinv : s.Inv) (hq : s.endTxnQ = (i, b) :: rest) :
    Inv { s with endTxnQ := rest, inFlight := s.inFlight ++ [.endTxn i],
                 log := s.log ++ [.ended i] } := by
  have hmem : (i, b) ∈ s.endTxnQ := hq ▸ mem_cons_self
  have hnodup := hinv.nodup
  rw [hq, map_cons, nodup_cons] at hnodup
  -- no thread that is early is this one
  have hne : ∀ j, s.Early j → j ≠ i := fun j h hj => h.1 b (hj ▸ hmem)
  have hnew : ∀ j, j ≠ i → .endTxn j ∉ s.inFlight ∧ .ended j ∉ s.log →
      .endTxn j ∉ s.inFlight ++ [.endTxn i] ∧ .ended j ∉ s.log ++ [.ended i] := by
    intro j hj h
    simpa [hj] using h
  have hearly : ∀ j, s.Early j → Early { s with
      endTxnQ := rest, inFlight := s.inFlight ++ [.endTxn i], log := s.log ++ [.ended i] } j :=
    fun j h => ⟨fun b hb => h.1 b (hq ▸ mem_cons_of_mem _ hb), hnew j (hne j h) h.2⟩
  have hlog : ∀ {e : Event}, e ∈ s.log → e ∈ s.log ++ [.ended i] := fun h => mem_append_left _ h
  constructor
  · exact fun j hj => (hinv.fresh j hj).imp_left (hearly j)
  · exact fun j hj => (hinv.running j hj).imp_left (hearly j)
  · exact fun j k hk => (hinv.queued j k hk).imp_left (hearly j)
  · intro j b' hb
    have hj : j ≠ i := by
      rintro rfl
      exact hnodup.1 (mem_map.mpr ⟨_, hb, rfl⟩)
    exact (hinv.ending j b' (hq ▸ mem_cons_of_mem _ hb)).imp_right (hnew j hj)
  · exact hnodup.2
  · exact fun j k hk => (hinv.pushed j k hk).imp_right hlog
  · intro j l₁ l₂ h
    obtain ⟨rfl, hj, rfl⟩ | ⟨l, rfl, hl⟩ := split_concat h
    · cases hj
      refine ⟨fun k hk => (hinv.pushed i k hk).resolve_left fun hw => ?_, by simp⟩
      exact hne i (hinv.queued i k hw).1 rfl
    · have := hinv.ordered j l₁ l hl
      exact ⟨this.1, fun k hk => this.2 k (by simpa using hk)⟩
  · intro j hj
    obtain hj | hj := mem_append.mp hj
    · exact hlog (hinv.inFlight j hj)
    · cases mem_singleton.mp hj
      exact mem_append_right _ (mem_singleton_self _)
  · exact fun j hj => hlog (hinv.finished j hj)
  · exact fun j hj => hlog (hinv.success j hj)

theorem Inv.takeWrite (hinv : s.Inv) (hq : s.writeRequestQ = (i, k) :: rest) :
    Inv { s with writeRequestQ := rest, inFlight := s.inFlight ++ [.write i k],
                 log := s.log ++ [.wrote i k] } := by
  have hmem : (i, k) ∈ s.writeRequestQ := hq ▸ mem_cons_self
  have hnew : ∀ j, .endTxn j ∉ s.inFlight ∧ .ended j ∉ s.log →
      .endTxn j ∉ s.inFlight ++ [.write i k] ∧ .ended j ∉ s.log ++ [.wrote i k] := by
    intro j h
    simpa using h
  have hearly : ∀ j, s.Early j → Early { s with
      writeRequestQ := rest, inFlight := s.inFlight ++ [.write i k], log := s.log ++
        [.wrote i k] } j :=
    fun j h => ⟨h.1, hnew j h.2⟩
  have hlog : ∀ {e : Event}, e ∈ s.log → e ∈ s.log ++ [.wrote i k] := fun h => mem_append_left _ h
  constructor
  · exact fun j hj => (hinv.fresh j hj).imp_left (hearly j)
  · exact fun j hj => (hinv.running j hj).imp_left (hearly j)
  · exact fun j k' hk => (hinv.queued j k' (hq ▸ mem_cons_of_mem _ hk)).imp_left (hearly j)
  · exact fun j b hb => (hinv.ending j b hb).imp_right (hnew j)
  · exact hinv.nodup
  · intro j k' hk'
    obtain hw | hw := hinv.pushed j k' hk'
    · rw [hq] at hw
      obtain hw | hw := mem_cons.mp hw
      · cases hw
        exact .inr (mem_append_right _ (mem_singleton_self _))
      · exact .inl hw
    · exact .inr (hlog hw)
  · intro j l₁ l₂ h
    obtain ⟨-, hj, -⟩ | ⟨l, rfl, hl⟩ := split_concat h
    · cases hj
    have hj : j ≠ i := by
      rintro rfl
      exact (hinv.queued j k hmem).1.2.2 (hl ▸ mem_append_right _ mem_cons_self)
    have := hinv.ordered j l₁ l hl
    exact ⟨this.1, fun k' hk' => this.2 k' (by simpa [hj] using hk')⟩
  · intro j hj
    exact hlog (hinv.inFlight j (by simpa using hj))
  · exact fun j hj => hlog (hinv.finished j hj)
  · exact fun j hj => hlog (hinv.success j hj)

theorem Inv.finish (hinv : s.Inv) (r : List Request) (txns : List ℕ) (o : Outcome)
    (hr : ∀ x ∈ r, x ∈ s.inFlight) (hi : .endTxn i ∈ s.inFlight)
    (htxns : ∀ j, j ≠ i → j ∈ s.txns → j ∈ txns) :
    Inv { s with inFlight := r, txns := txns,
                 finished := update s.finished i (some o) } := by
  have hearly : ∀ j, s.Early j → Early { s with
      inFlight := r, txns := txns, finished := update s.finished i (some o) } j :=
    fun j h => ⟨h.1, fun hj => h.2.1 (hr _ hj), h.2.2⟩
  -- the transaction of a thread that is early stays
  have hstay : ∀ j, s.Early j → j ∈ s.txns → j ∈ txns := by
    intro j h
    refine htxns j ?_
    rintro rfl
    exact h.2.1 hi
  constructor
  · intro j hj
    have h := hinv.fresh j hj
    exact ⟨hearly j h.1, fun hb => hstay j h.1 (h.2 hb)⟩
  · intro j hj
    have h := hinv.running j hj
    exact ⟨hearly j h.1, hstay j h.1 h.2⟩
  · intro j k hk
    have h := hinv.queued j k hk
    exact ⟨hearly j h.1, hstay j h.1 h.2⟩
  · intro j b hb
    have h := hinv.ending j b hb
    refine ⟨htxns j ?_ h.1, fun hj => h.2.1 (hr _ hj), h.2.2⟩
    rintro rfl
    exact h.2.1 hi
  · exact hinv.nodup
  · exact hinv.pushed
  · exact hinv.ordered
  · exact fun j hj => hinv.inFlight j (hr _ hj)
  · intro j hj
    by_cases hji : j = i
    · exact hji ▸ hinv.inFlight i hi
    · exact hinv.finished j (by simpa [update_of_ne hji] using hj)
  · exact hinv.success

theorem Inv.effect (hinv : s.Inv) (h : s.Effect t) : t.Inv := by
  cases h with
  | move q hpushed hm => exact hinv.move q hpushed hm
  | pushWrite hphase hth hpushed => exact hinv.pushWrite hphase hth hpushed
  | pushEnd b hphase hth hpushed halone => exact hinv.pushEnd b hphase hth hpushed halone
  | poll p => exact hinv.calm (fun _ h => h) (fun _ h => h) fun _ h => .inl h
  | takeBegin i q =>
    exact hinv.calm (fun j h => by simpa using h) (fun _ h => h) fun _ h => .inl h
  | takeEnd hq hi => exact hinv.takeEnd hq
  | refuseEnd o hq hi => exact absurd (hinv.ending _ _ (hq ▸ mem_cons_self)).1 hi
  | takeWrite hq hi => exact hinv.takeWrite hq
  | refuseWrite written hq hi => exact absurd (hinv.queued _ _ (hq ▸ mem_cons_self)).2 hi
  | begun i r ok hr =>
    refine hinv.calm (fun j h => hr _ h) (fun j hj => ?_) fun j hj => ?_
    · split
      · exact mem_cons_of_mem _ hj
      · exact hj
    by_cases hji : j = i
    · subst hji
      rw [update_self] at hj
      cases hj
      exact .inr mem_cons_self
    · exact .inl (by simpa [update_of_ne hji] using hj)
  | finished r txns o hr hi htxns => exact hinv.finish r txns o hr hi htxns
  | written r written hr =>
    exact hinv.calm (fun j h => hr _ h) (fun _ h => h) fun _ h => .inl h

/-- **In every run in which no handler pushes the end of its transaction before its
writes have left the queue**, no write is executed after the end of its transaction,
and a handler that reports success has had all its writes executed before the end. -/
theorem written_before_end {handlers : ℕ → Handler}
    (h : Reach step (fun s a => s.endsAlone a = true) (init handlers) s) :
    s.WritesBeforeEnd ∧ s.SuccessWritten := by
  have hinv : s.Inv := h.invariant (inv_init handlers) fun _ _ _ hinv hok hstep =>
    hinv.effect (effect_of_step hok hstep)
  refine ⟨fun i l₁ l₂ hlog => (hinv.ordered i l₁ l₂ hlog).2, fun i hi k hk => ?_⟩
  obtain ⟨l₁, l₂, hlog⟩ := append_of_mem (hinv.success i hi)
  exact ⟨l₁, l₂, hlog, (hinv.ordered i l₁ l₂ hlog).1 k hk⟩

def completeAll (rs : List Request) : List Action := rs.map fun r => .complete r .ok

/-- A turn of the poller, all but its last step, that takes the given number of requests
from each queue. -/
def turn (begins ends writes : ℕ) : List Action :=
  List.replicate (2 + begins + (2 + ends) + (2 + writes) + 1) .poll

/-- The first steps of thread 0, up to the begin of its transaction. -/
def opening : List Action :=
  [.thread 0] ++ turn 1 0 0 ++ completeAll [.beginTxn 0] ++ [.poll, .thread 0]

/-- A run of `future_addVertices` that writes two records and ends its transaction behind
them. -/
theorem written_before_end_sample : ∃ s : System,
    ((s.threads 0).phase = .done true ∧ (s.threads 0).pushed = 2) ∧
      s.WritesBeforeEnd ∧ s.SuccessWritten := by
  obtain ⟨s, hreach, hs⟩ := exists_reach_of_run step (fun s a => s.endsAlone a = true)
    (init fun _ => .addVertices 1)
    (fun s => (s.threads 0).phase = .done true ∧ (s.threads 0).pushed = 2)
    (opening ++ [.thread 0, .thread 0] ++ turn 0 0 2 ++ completeAll [.write 0 0, .write 0 1] ++
      [.poll, .thread 0, .thread 0, .thread 0] ++ turn 0 1 0 ++ completeAll [.endTxn 0] ++
      [.thread 0])
    (by decide +kernel)
  exact ⟨s, by simpa using hs, written_before_end hreach⟩

/-- A run of `future_addEdges` with one edge: the poller comes by between the pushes of
its two records, so the second one is executed behind the commit, and the handler
reports success. -/
theorem not_written_before_end : ∃ s : System,
    Reach step (fun _ _ => True) (init fun _ => .addEdges 2 1) s ∧
      ¬s.WritesBeforeEnd ∧ ¬s.SuccessWritten := by
  obtain ⟨s, hreach, hs⟩ := exists_reach_of_run step (fun _ _ => True)
    (init fun _ => .addEdges 2 1)
    (fun s => s.log = [.wrote 0 0, .wrote 0 1, .wrote 0 2, .ended 0, .wrote 0 3] ∧
      (s.threads 0).phase = .done true ∧ (s.threads 0).pushed = 4)
    (opening ++ [.thread 0, .thread 0, .thread 0] ++ turn 0 0 3 ++
      completeAll [.write 0 0, .write 0 1, .write 0 2] ++
        [.poll, .thread 0, .thread 0, .thread 0] ++
      turn 0 1 1 ++ completeAll [.endTxn 0, .write 0 3] ++ [.thread 0])
    (by decide +kernel)
  obtain ⟨hlog, hdone, hpushed⟩ := of_decide_eq_true hs
  refine ⟨s, hreach, fun h => ?_, fun h => ?_⟩
  · exact h 0 [.wrote 0 0, .wrote 0 1, .wrote 0 2] [.wrote 0 3] hlog 3 (by simp)
  obtain ⟨l₁, l₂, hsplit, hmem⟩ := h 0 hdone 3 (by omega)
  -- the one end stands in the fourth place
  rw [hlog] at hsplit
  match l₁ with
  | [] => cases hmem
  | [a] => simp at hsplit
  | [a, b] => simp at hsplit
  | [a, b, c] =>
    obtain ⟨rfl, rfl, rfl, -⟩ := by simpa using hsplit
    simp at hmem
  | [a, b, c, d] => simp at hsplit
  | a :: b :: c :: d :: e :: l => simp at hsplit

end System
end K2Graph.Storage
