import Mathlib.Data.List.Perm.Basic
import K2Graph.Lib.Run

/-!
# The promises of the K2 client's requests

A thread that pushes a request waits for its promise.  The poller goes round the queues and
empties each of them; the visitor of a queue answers a request at once or calls the client,
whose answer comes later, and a round ends with the last answer.  One visitor does neither:
`_pollReadQ` does not return if the key is empty.  Two others look at what need not be there.

`gracefulStop` lets the poller go one last round.  `pushQ` does not look whether there is
still one to come.

## Main results

* `answersOnce_of_reach` — **every request is answered, and once, and the queues keep their
  order**, if no request is one that a visitor fails on or comes too late.
* `not_answersOnce` — a read of an empty key that is never answered.
* `not_answered_late` — a request that is pushed after the last round.
-/

namespace K2Graph.Storage.Promises

open List

/-! ### The visitors -/

inductive Queue
  | collectionCreateQ | schemaCreateQ | schemaGetQ | beginTxnQ | endTxnQ | readTxQ | updateTxQ
  | scanReadCreateTxQ | scanReadTxQ | writeRequestQ
  deriving DecidableEq

/-- A request, with what its visitor looks at.  Transactions are numbered. -/
inductive Request
  | collectionCreate (clusterEndpoints : List (List UInt8))
  | schemaCreate
  | schemaGet
  | beginTxn
  | endTxn (mtr : ℕ)
  | read (mtr : ℕ) (partitionKey : List UInt8)
  | update (mtr : ℕ)
  | scanReadCreate
  /-- `query` is a pointer that may be null. -/
  | scanRead (mtr : ℕ) (query : Option ℕ)
  | write (mtr : ℕ)
  deriving DecidableEq

def Request.queue : Request → Queue
  | .collectionCreate _ => .collectionCreateQ
  | .schemaCreate => .schemaCreateQ
  | .schemaGet => .schemaGetQ
  | .beginTxn => .beginTxnQ
  | .endTxn _ => .endTxnQ
  | .read .. => .readTxQ
  | .update _ => .updateTxQ
  | .scanReadCreate => .scanReadCreateTxQ
  | .scanRead .. => .scanReadTxQ
  | .write _ => .writeRequestQ

/-- What a promise is fulfilled with. -/
inductive Answer
  /-- For `beginTxn`, of the transaction. -/
  | value (mtr : ℕ)
  | exception

/-- What a visitor does. -/
inductive Visit
  | answers (answer : Answer)
  /-- It calls the client, which answers later or throws. -/
  | calls
  | undefined

/-- A visitor that looks for the transaction, and what it does with one. -/
def visitTxn (txns : List ℕ) (mtr : ℕ) (visit : Visit) : Visit :=
  if mtr ∈ txns then visit else .answers (.value mtr)

/-- The visitors. -/
def visit (stop : Bool) (txns : List ℕ) : Request → Visit
  | .collectionCreate clusterEndpoints =>
      -- `_stop` is only printed
      if clusterEndpoints = [] then .undefined else .calls
  | r =>
      if stop then .answers .exception
      else
        match r with
        | .endTxn mtr | .update mtr | .write mtr => visitTxn txns mtr .calls
        | .read mtr partitionKey =>
            -- without a key the end of the visitor is reached
            visitTxn txns mtr (if partitionKey = [] then .undefined else .calls)
        | .scanRead mtr query => visitTxn txns mtr (if query = none then .undefined else .calls)
        | _ => .calls

/-- The request has what its visitor looks at. -/
def Request.defined : Request → Bool
  | .collectionCreate clusterEndpoints => clusterEndpoints ≠ []
  | .read _ partitionKey => partitionKey ≠ []
  | .scanRead _ query => query ≠ none
  | _ => true

theorem visit_ne_undefined {r : Request} (h : r.defined) : visit stop txns r ≠ .undefined := by
  cases r <;> simp_all [visit, visitTxn, Request.defined] <;> split_ifs <;> nofun

/-! ### The system -/

/-- The queues in the order of `_pollForWork`. -/
def pollForWork : List Queue :=
  [.collectionCreateQ, .schemaCreateQ, .schemaGetQ, .beginTxnQ, .endTxnQ, .readTxQ, .updateTxQ,
    .scanReadCreateTxQ, .scanReadTxQ, .writeRequestQ]

theorem mem_pollForWork (q : Queue) : q ∈ pollForWork := by
  cases q <;> decide

/-- Where the poller is. -/
inductive Poller
  /-- Before it looks at `_stop`. -/
  | idle
  /-- Between two queues; `rest` are those of this round that it has not been to. -/
  | polling (rest : List Queue)
  /-- In `pollQ`, with the lock. -/
  | visiting (q : Queue) (rest : List Queue)
  deriving DecidableEq

/-- The queues that the poller empties before this round ends. -/
def Poller.ahead : Poller → List Queue
  | .idle => pollForWork
  | .polling rest => rest
  | .visiting q rest => q :: rest

/-- How many steps of its own the poller takes in this round. -/
def Poller.steps : Poller → ℕ
  | .idle => 2 * pollForWork.length + 1
  | .polling rest => 2 * rest.length
  | .visiting _ rest => 2 * rest.length + 1

def Poller.locked : Poller → Bool
  | .visiting .. => true
  | _ => false

/-- The queues, the client and the promises.  The requests are numbered. -/
structure System where
  /-- All that was pushed. -/
  pushed : List (ℕ × Request) := []
  /-- What is in the queues, one after the other in the order of the pushes. -/
  queued : List (ℕ × Request) := []
  /-- What visitors were called with. -/
  started : List (ℕ × Request) := []
  inFlight : List (ℕ × Request) := []
  promises : List (ℕ × Answer) := []
  txns : List ℕ := []
  stop : Bool := false
  poller : Poller := .idle
  /-- The round is the one of `gracefulStop`. -/
  draining : Bool := false

/-- What may happen next. -/
inductive Action
  | push (id : ℕ) (r : Request)
  /-- The poller goes on. -/
  | poll
  /-- The client answers. -/
  | complete (x : ℕ × Request) (answer : Answer)
  | gracefulStop

/-- The step is one of the poller or of the client. -/
def Action.serves : Action → Bool
  | .poll | .complete .. => true
  | _ => false

/-- `_txns` after an answer. -/
def txnsAfter (txns : List ℕ) : Request → Answer → List ℕ
  | .beginTxn, .value mtr => mtr :: txns
  | .endTxn mtr, .value _ => txns.filter (· ≠ mtr)
  | _, _ => txns

namespace System

variable (s : System)

def front (q : Queue) : Option (ℕ × Request) := s.queued.find? fun x => x.2.queue = q

/-- The visitor is called with a request that has been taken from its queue. -/
def start (x : ℕ × Request) : System :=
  let s := { s with queued := s.queued.eraseP fun y => y.2.queue = x.2.queue,
                    started := s.started ++ [x] }
  match visit s.stop s.txns x.2 with
  | .answers answer => { s with promises := s.promises ++ [(x.1, answer)] }
  | .calls => { s with inFlight := x :: s.inFlight }
  | .undefined => s

def poll : Option System :=
  match s.poller with
  | .idle => some { s with poller := .polling pollForWork, draining := s.stop }
  | .polling (q :: rest) => some { s with poller := .visiting q rest }
  | .visiting q rest =>
      match s.front q with
      | some x => some (s.start x)
      | none => some { s with poller := .polling rest }
  | .polling [] =>
      -- `when_all_succeed`; nothing follows the round of `gracefulStop`
      if s.inFlight = [] ∧ s.draining = false then some { s with poller := .idle } else none

def step : Action → Option System
  | .push id r =>
      if s.poller.locked = true ∨ id ∈ s.pushed.map Prod.fst then none
      else some { s with pushed := s.pushed ++ [(id, r)], queued := s.queued ++ [(id, r)] }
  | .poll => s.poll
  | .complete x answer =>
      if x ∈ s.inFlight then
        some { s with inFlight := s.inFlight.erase x, promises := s.promises ++ [(x.1, answer)],
                      txns := txnsAfter s.txns x.2 answer }
      else none
  | .gracefulStop => some { s with stop := true }

/-- Neither the poller nor the client has anything to do. -/
def Stuck : Prop := ∀ a : Action, a.serves = true → s.step a = none

/-- No request has two answers or has one and still waits, and the requests of a queue are
started as they were pushed. -/
structure Tracks : Prop where
  distinct : (s.pushed.map Prod.fst).Nodup
  once : (s.queued.map Prod.fst ++ s.inFlight.map Prod.fst ++ s.promises.map Prod.fst).Perm
    (s.pushed.map Prod.fst)
  inOrder : ∀ q, (s.started ++ s.queued).filter (fun x => x.2.queue = q) =
    s.pushed.filter fun x => x.2.queue = q

/-- **Every request is answered once**: also, when the poller and the client have gone on for
long enough, or cannot go on, every request has its answer. -/
structure AnswersOnce : Prop extends s.Tracks where
  answered : ∃ n, ∀ acts s', run step (fun _ a => a.serves = true) s acts = some s' →
    n ≤ acts.length ∨ s'.Stuck → (s'.promises.map Prod.fst).Perm (s'.pushed.map Prod.fst)

/-- A request that is pushed has what its visitor looks at and does not come too late. -/
def InTime : Action → Prop
  | .push _ r => r.defined = true ∧ (s.draining = true → r.queue ∈ s.poller.ahead)
  | _ => True

instance (a : Action) : Decidable (s.InTime a) := by
  cases a <;> unfold InTime <;> infer_instance

/-! ### One step -/

structure Inv : Prop extends s.Tracks where
  defined : ∀ x ∈ s.queued, x.2.defined = true
  ahead : s.draining = true → ∀ x ∈ s.queued, x.2.queue ∈ s.poller.ahead

variable {s s' : System}

/-- Taking the front of a queue keeps the order of all queues. -/
theorem filter_move {as : List (ℕ × Request)} {x : ℕ × Request} (started : List (ℕ × Request))
    (has : ∀ y ∈ as, y.2.queue ≠ x.2.queue) (bs : List (ℕ × Request)) (q : Queue) :
    (started ++ [x] ++ (as ++ bs)).filter (fun y => y.2.queue = q) =
      (started ++ (as ++ x :: bs)).filter fun y => y.2.queue = q := by
  by_cases hq : x.2.queue = q
  · have hnone : as.filter (fun y => y.2.queue = q) = [] := by
      simpa [filter_eq_nil_iff, hq] using has
    simp [filter_append, hq, hnone]
  · simp [filter_append, hq]

/-- What is taken from a queue. -/
theorem queued_of_front (hx : s.front q = some x) : ∃ as bs, s.queued = as ++ x :: bs ∧
    s.queued.eraseP (fun y => y.2.queue = x.2.queue) = as ++ bs ∧
    ∀ y ∈ as, y.2.queue ≠ x.2.queue := by
  obtain ⟨hq, as, bs, hqueued, has⟩ := find?_eq_some_iff_append.mp hx
  have hq : x.2.queue = q := by simpa using hq
  subst hq
  have has : ∀ y ∈ as, y.2.queue ≠ x.2.queue := by simpa using has
  refine ⟨as, bs, hqueued, ?_, has⟩
  rw [hqueued, eraseP_append_right _ (by simpa using has), eraseP_cons_of_pos (by simp)]

theorem Inv.start (h : s.Inv) (hx : s.front q = some x) : (s.start x).Inv := by
  obtain ⟨as, bs, hqueued, herase, has⟩ := queued_of_front hx
  have horder (q : Queue) := (filter_move s.started has bs q).trans (hqueued ▸ h.inOrder q)
  have honce := h.once
  have hdefined := h.defined
  have hahead := h.ahead
  rw [hqueued] at honce hdefined hahead
  have hvisit : visit s.stop s.txns x.2 ≠ .undefined :=
    visit_ne_undefined (hdefined x (by simp))
  rw [System.start, herase]
  cases hv : visit s.stop s.txns x.2 with
  | answers answer | calls =>
    refine ⟨⟨h.distinct, ?_, horder⟩, ?_, ?_⟩
    · grind
    · grind
    · grind
  | undefined => exact absurd hv hvisit

theorem Inv.poll (h : s.Inv) (hpoll : s.poll = some s') : s'.Inv := by
  rw [System.poll] at hpoll
  split at hpoll
  · cases hpoll
    exact ⟨⟨h.distinct, h.once, h.inOrder⟩, h.defined, fun _ x _ => mem_pollForWork _⟩
  · rename_i q rest hpoller
    cases hpoll
    have hahead := h.ahead
    rw [hpoller] at hahead
    exact ⟨⟨h.distinct, h.once, h.inOrder⟩, h.defined, hahead⟩
  · rename_i q rest hpoller
    split at hpoll
    · cases hpoll
      exact h.start ‹_›
    · rename_i hfront
      cases hpoll
      refine ⟨⟨h.distinct, h.once, h.inOrder⟩, h.defined, fun hdrain x hx => ?_⟩
      have hahead := h.ahead hdrain x hx
      rw [hpoller] at hahead
      exact (mem_cons.mp hahead).resolve_left (by simpa using find?_eq_none.mp hfront x hx)
  · split_ifs at hpoll
    cases hpoll
    exact ⟨⟨h.distinct, h.once, h.inOrder⟩, h.defined, fun _ x _ => mem_pollForWork _⟩

theorem Inv.step {a : Action} (h : s.Inv) (hok : s.InTime a) (hstep : s.step a = some s') :
    s'.Inv := by
  cases a with
  | push id r =>
    rw [System.step] at hstep
    split_ifs at hstep with hid
    cases hstep
    refine ⟨⟨?_, ?_, fun q => ?_⟩, ?_, fun hdrain => ?_⟩
    · rw [map_append]
      exact (perm_append_singleton ..).nodup_iff.mpr
        (nodup_cons.mpr ⟨fun hmem => hid (.inr hmem), h.distinct⟩)
    · have honce := h.once
      grind
    · rw [← append_assoc, filter_append, h.inOrder, filter_append]
    · exact forall_mem_append.mpr ⟨h.defined, forall_mem_singleton.mpr hok.1⟩
    · exact forall_mem_append.mpr ⟨h.ahead hdrain, forall_mem_singleton.mpr (hok.2 hdrain)⟩
  | poll => exact h.poll hstep
  | complete x answer =>
    rw [System.step] at hstep
    split_ifs at hstep with hmem
    cases hstep
    refine ⟨⟨h.distinct, ?_, h.inOrder⟩, h.defined, h.ahead⟩
    have hflight := (perm_cons_erase hmem).map Prod.fst
    have honce := h.once
    grind
  | gracefulStop =>
    cases hstep
    exact ⟨⟨h.distinct, h.once, h.inOrder⟩, h.defined, h.ahead⟩

theorem inTime_of_serves {a : Action} (h : a.serves = true) : s.InTime a := by
  cases a with
  | push | gracefulStop => cases h
  | poll | complete => trivial

/-! ### Coming to rest -/

/-- How much is behind the poller and waits for its next round. -/
def behind (s : System) : ℕ := s.queued.countP fun x => !s.poller.ahead.contains x.2.queue

/-- A bound on the steps to come. -/
def work (s : System) : ℕ :=
  2 * s.queued.length + s.inFlight.length + s.poller.steps +
    (2 * pollForWork.length + 2) * s.behind

def AtRest (s : System) : Prop := s.queued = [] ∧ s.inFlight = []

theorem work_start (hx : s.front q = some x) : (s.start x).work < s.work := by
  obtain ⟨as, bs, hqueued, herase, -⟩ := queued_of_front hx
  have hbehind : (as ++ bs).countP (fun y => !s.poller.ahead.contains y.2.queue) ≤ s.behind := by
    rw [behind, hqueued]
    exact ((sublist_cons_self x bs).append_left as).countP_le
  have hlen : s.queued.length = (as ++ bs).length + 1 := by
    rw [hqueued]
    simp [Nat.add_assoc]
  have hround := Nat.mul_le_mul_left (2 * pollForWork.length + 2) hbehind
  rw [start, herase]
  cases visit s.stop s.txns x.2 with
  | answers | calls | undefined =>
    simp only [work, behind, length_cons] at hround ⊢
    omega

/-- A step of the poller lessens the work, if there is any. -/
theorem work_poll (hpoll : s.poll = some s') (hwork : ¬ s.AtRest) : s'.work < s.work := by
  rw [poll] at hpoll
  split at hpoll
  · rename_i hpoller
    cases hpoll
    simp only [work, behind, hpoller, Poller.steps, Poller.ahead]
    omega
  · rename_i q rest hpoller
    cases hpoll
    simp only [work, behind, hpoller, Poller.steps, Poller.ahead, length_cons]
    omega
  · rename_i q rest hpoller
    split at hpoll
    · cases hpoll
      exact work_start ‹_›
    · rename_i hfront
      cases hpoll
      -- nothing of the queue is left, so nothing falls behind
      have hbehind : s.queued.countP (fun x => !rest.contains x.2.queue) =
          s.queued.countP fun x => !(q :: rest).contains x.2.queue := by
        refine countP_congr fun x hx => ?_
        have hne : x.2.queue ≠ q := by simpa using find?_eq_none.mp hfront x hx
        simp [hne]
      simp only [work, behind, hpoller, Poller.steps, Poller.ahead, hbehind]
      omega
  · rename_i hpoller
    split_ifs at hpoll with hend
    cases hpoll
    -- all that is queued is behind the poller, and nothing is when the next round begins
    have hqueued : s.queued.length ≠ 0 := fun hlen => hwork ⟨length_eq_zero_iff.mp hlen, hend.1⟩
    have hbefore : s.behind = s.queued.length := by simp [behind, hpoller, Poller.ahead]
    have hafter : behind { s with poller := .idle } = 0 := by
      simp [behind, Poller.ahead, mem_pollForWork]
    simp only [work, hafter, hbefore, hpoller, Poller.steps, pollForWork, length_cons, length_nil]
    omega

theorem work_step {a : Action} (hserves : a.serves = true) (hstep : s.step a = some s')
    (hwork : ¬ s.AtRest) : s'.work < s.work := by
  cases a with
  | push | gracefulStop => cases hserves
  | poll => exact work_poll hstep hwork
  | complete x answer =>
    rw [step] at hstep
    split_ifs at hstep with hmem
    cases hstep
    have hlen := length_erase_add_one hmem
    simp only [work, behind]
    omega

theorem AtRest.step {a : Action} (hserves : a.serves = true) (hstep : s.step a = some s')
    (h : s.AtRest) : s'.AtRest := by
  cases a with
  | push | gracefulStop => cases hserves
  | poll =>
    change s.poll = some s' at hstep
    rw [poll] at hstep
    split at hstep
    · cases hstep
      exact h
    · cases hstep
      exact h
    · rename_i q rest _
      have hfront : s.front q = none := by rw [front, h.1, find?_nil]
      rw [hfront] at hstep
      cases hstep
      exact h
    · split_ifs at hstep
      cases hstep
      exact h
  | complete x answer =>
    rw [System.step, if_neg (by simp [h.2])] at hstep
    cases hstep

/-- When the poller and the client have gone on for long enough, nothing waits. -/
theorem atRest_of_run {acts : List Action}
    (hrun : run step (fun _ a => a.serves = true) s acts = some s')
    (h : s.AtRest ∨ s.work ≤ acts.length) : s'.AtRest := by
  induction acts generalizing s with
  | nil =>
    cases hrun
    refine h.elim id fun hwork => ?_
    simp only [work, length_nil] at hwork
    exact ⟨length_eq_zero_iff.mp (by omega), length_eq_zero_iff.mp (by omega)⟩
  | cons a acts ih =>
    simp only [run] at hrun
    split_ifs at hrun with hserves
    split at hrun
    · rename_i t hstep
      refine ih hrun ?_
      by_cases hrest : s.AtRest
      · exact .inl (hrest.step hserves hstep)
      · have hlt := work_step hserves hstep hrest
        have hle := h.resolve_left hrest
        rw [length_cons] at hle
        exact .inr (by omega)
    · cases hrun

/-- When neither can go on, nothing waits. -/
theorem Inv.atRest_of_stuck (h : s.Inv) (hstuck : s.Stuck) : s.AtRest := by
  have hflight : s.inFlight = [] := by
    refine eq_nil_iff_forall_not_mem.mpr fun x hx => ?_
    have hnone := hstuck (.complete x .exception) rfl
    rw [System.step, if_pos hx] at hnone
    cases hnone
  refine ⟨eq_nil_iff_forall_not_mem.mpr fun x hx => ?_, hflight⟩
  have hpoll : s.poll = none := hstuck .poll rfl
  rw [System.poll] at hpoll
  split at hpoll
  · cases hpoll
  · cases hpoll
  · split at hpoll <;> cases hpoll
  · rename_i hpoller
    have hdrain : s.draining = true := by simpa [hflight] using hpoll
    have hahead := h.ahead hdrain x hx
    rw [hpoller] at hahead
    exact not_mem_nil hahead

theorem Inv.answersOnce (h : s.Inv) : s.AnswersOnce := by
  refine ⟨h.toTracks, s.work, fun acts s' hrun hend => ?_⟩
  have hinv : s'.Inv := (reach_of_run .refl hrun).invariant h fun _ _ _ h hserves hstep =>
    h.step (inTime_of_serves hserves) hstep
  have hrest : s'.AtRest := hend.elim (fun hlen => atRest_of_run hrun (.inr hlen))
    hinv.atRest_of_stuck
  have honce := hinv.once
  rw [hrest.1, hrest.2] at honce
  exact honce

/-- **Every request is answered, and once, and the queues keep their order**, if no request is
one that a visitor fails on or comes too late. -/
theorem answersOnce_of_reach (h : Reach step InTime {} s) : s.AnswersOnce := by
  have hinit : Inv {} := ⟨⟨.nil, .nil, fun _ => rfl⟩, nofun, nofun⟩
  have hinv := h.invariant hinit fun _ _ _ h hok hstep => h.step hok hstep
  exact hinv.answersOnce

/-- A transaction begins, and two of its reads wait, one in its queue and one for the
client. -/
theorem answersOnce_twoReads : ∃ s : System, s.inFlight = [(1, .read 7 [1])] ∧
    s.queued = [(2, .read 7 [2])] ∧ s.AnswersOnce := by
  obtain ⟨s, hreach, hs⟩ := exists_reach_of_run step InTime ({} : System)
    (fun s => s.inFlight = [(1, .read 7 [1])] ∧ s.queued = [(2, .read 7 [2])])
    ([.push 0 .beginTxn] ++ replicate 9 .poll ++ [.complete (0, .beginTxn) (.value 7)] ++
      [.poll, .push 1 (.read 7 [1])] ++ replicate 5 .poll ++ [.push 2 (.read 7 [2])])
    (by decide)
  obtain ⟨hflight, hqueued⟩ := of_decide_eq_true hs
  exact ⟨s, hflight, hqueued, answersOnce_of_reach hreach⟩

/-- **A request is never answered**: a read without a key in a transaction that has begun. -/
theorem not_answersOnce : ∃ s, Reach step (fun _ _ => True) ({} : System) s ∧ s.queued = [] ∧
    s.inFlight = [] ∧ (1, .read 7 []) ∈ s.pushed ∧ 1 ∉ s.promises.map Prod.fst := by
  obtain ⟨s, hreach, h⟩ := exists_reach_of_run step (fun _ _ => True) ({} : System)
    (fun s => s.queued = [] ∧ s.inFlight = [] ∧ (1, .read 7 []) ∈ s.pushed ∧
      1 ∉ s.promises.map Prod.fst)
    ([.push 0 .beginTxn] ++ replicate 9 .poll ++ [.complete (0, .beginTxn) (.value 7)] ++
      replicate 3 .poll ++ [.push 1 (.read 7 [])] ++ replicate 4 .poll) (by decide)
  exact ⟨s, hreach, by simpa using h⟩

/-- **A request comes too late**: it is pushed after the last round, and the poller is gone. -/
theorem not_answered_late : ∃ s, Reach step (fun _ _ => True) ({} : System) s ∧
    s.queued = [(0, .schemaGet)] ∧ s.Stuck := by
  obtain ⟨s, hreach, h⟩ := exists_reach_of_run step (fun _ _ => True) ({} : System)
    (fun s => s.queued = [(0, .schemaGet)] ∧ s.inFlight = [] ∧ s.poll.isNone)
    ([.gracefulStop] ++ replicate 21 .poll ++ [.push 0 .schemaGet]) (by decide)
  obtain ⟨hqueued, hflight, hpoll⟩ := of_decide_eq_true h
  refine ⟨s, hreach, hqueued, fun a hserves => ?_⟩
  cases a with
  | push | gracefulStop => cases hserves
  | poll => exact Option.isNone_iff_eq_none.mp hpoll
  | complete x answer => rw [step, if_neg (by simp [hflight])]

end System
end K2Graph.Storage.Promises
