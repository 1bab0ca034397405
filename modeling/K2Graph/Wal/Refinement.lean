import K2Graph.Wal.Log
import K2Graph.Wal.Represents

/-!
# `FileBasedWal` refines an abstract log

Whatever is done to a log, it looks like a list of records: what was appended is read
back, whether it is in files or in memory, and no `CHECK` fails on the way.

`FileBasedWal` uses zero for "no log", so this is about logs whose ids start at one.
A record with the id zero is taken, but it is not there any more once the log has been
opened again.

## Main results

* `refines_of_valid` — **every sequence of operations on a log looks like one on the
  abstract log.**
* `looksLike_reset_iff` — when a log that has been reset is like a new one.
* `Log.append_abstract`, `Log.rollback_abstract` — the log of the raft layer is such a log.
-/

namespace K2Graph.Wal

open FileBasedWal

/-! ### The abstract log -/

/-- A call of a function of `FileBasedWal`, or its destructor and its constructor. -/
inductive WalOp where
  | appendLog (r : Record)
  | appendLogs (rs : List Record)
  | rollbackToLog (id : ℤ)
  | reset
  /-- `linked` says that the link can be made. -/
  | linkCurrentWAL (linked : Bool)
  | cleanWAL (ttl : ℤ)
  | reopen
  | stop

/-- The records of a log. -/
structure AbstractLog where
  /-- The records. -/
  records : List Record
  /-- The log does not take records any more. -/
  stopped : Bool

namespace AbstractLog

variable (pre : Record → Bool)

/-- The log takes the record. -/
def accepts (a : AbstractLog) (r : Record) : Bool :=
  !a.stopped && (decide (a.records = []) || decide (r.id = lastIdOf a.records + 1)) && pre r

def append (a : AbstractLog) (r : Record) : AbstractLog × Bool :=
  if a.accepts pre r then ({ a with records := a.records ++ [r] }, true) else (a, false)

def appendAll : List Record → AbstractLog → AbstractLog × Bool
  | [], a => (a, true)
  | r :: rs, a => if a.accepts pre r then appendAll rs (a.append pre r).1 else (a, false)

/-- Keeps the records up to an id, which has to be in the range of the log or right
before it. -/
def rollback (id : ℤ) (a : AbstractLog) : AbstractLog × Bool :=
  if id < firstIdOf a.records - 1 ∨ lastIdOf a.records < id then (a, false)
  else ({ a with records := Represents.upTo id a.records }, true)

/-- What an operation does and answers.  Cleaning removes some records from the front;
which ones is up to the age of the files, but there is always one that stays. -/
inductive Step : AbstractLog → WalOp → AbstractLog → Bool → Prop
  | appendLog (a : AbstractLog) (r : Record) :
      Step a (.appendLog r) (a.append pre r).1 (a.append pre r).2
  | appendLogs (a : AbstractLog) (rs : List Record) :
      Step a (.appendLogs rs) (a.appendAll pre rs).1 (a.appendAll pre rs).2
  | rollbackToLog (a : AbstractLog) (id : ℤ) :
      Step a (.rollbackToLog id) (a.rollback id).1 (a.rollback id).2
  | reset (a : AbstractLog) : Step a .reset { a with records := [] } true
  | linkCurrentWAL (a : AbstractLog) (linked : Bool) :
      Step a (.linkCurrentWAL linked) a (decide (a.records = []) || linked)
  | cleanWAL (a : AbstractLog) (ttl : ℤ) (gone rest : List Record) :
      a.records = gone ++ rest → (rest = [] → a.records = []) →
      Step a (.cleanWAL ttl) { a with records := rest } true
  | reopen (a : AbstractLog) : Step a .reopen { a with stopped := false } true
  | stop (a : AbstractLog) : Step a .stop { a with stopped := true } true

/-- What a sequence of operations does and answers. -/
inductive Run : AbstractLog → List WalOp → List Bool → AbstractLog → Prop
  | nil (a : AbstractLog) : Run a [] [] a
  | cons {a a' a'' : AbstractLog} {op : WalOp} {ops : List WalOp} {b : Bool} {bs : List Bool} :
      Step pre a op a' b → Run a' ops bs a'' → Run a (op :: ops) (b :: bs) a''

end AbstractLog

/-! ### The log -/

namespace FileBasedWal

/-- An operation at the time `now`, and its answer. -/
def perform (now : ℕ) (w : FileBasedWal) : WalOp → Option (FileBasedWal × Bool)
  | .appendLog r => w.appendLog now r
  | .appendLogs rs => w.appendLogs now rs
  | .rollbackToLog id => w.rollbackToLog now id
  | .reset => some (w.reset now, true)
  | .linkCurrentWAL linked => some (w.linkCurrentWAL now linked)
  | .cleanWAL ttl => some (w.cleanWAL now ttl, true)
  | .reopen => some (w.reopen now, true)
  | .stop => some (w.stop, true)

/-- Operations, each with the time that goes by before it. -/
def runOps : ℕ → FileBasedWal → List (ℕ × WalOp) → Option (FileBasedWal × List Bool)
  | _, w, [] => some (w, [])
  | now, w, (elapsed, op) :: ops => do
      let (w', b) ← w.perform (now + elapsed) op
      let (w'', bs) ← runOps (now + elapsed) w' ops
      some (w'', b :: bs)

end FileBasedWal

/-- The records the operation appends can be written and read. -/
def WalOp.Valid : WalOp → Prop
  | .appendLog r => r.Valid
  | .appendLogs rs => ∀ r ∈ rs, r.Valid
  | _ => True

/-- The log looks like the abstract log after the operations: no `CHECK` fails, the
answers are the same, and iterators read the records. -/
def Refines (policy : FileBasedWalPolicy) (pre : Record → Bool) (now : ℕ)
    (ops : List (ℕ × WalOp)) : Prop :=
  ∃ w answers a, (openDir policy pre now []).runOps now ops = some (w, answers) ∧
    AbstractLog.Run pre ⟨[], false⟩ (ops.map Prod.snd) answers a ∧
    Numbered w.firstLogId a.records ∧ w.firstLogId = firstIdOf a.records ∧
    w.lastLogId = lastIdOf a.records ∧ (a.records ≠ [] → w.lastLogTerm = lastTermOf a.records) ∧
    ∀ f l, w.firstLogId ≤ f → f ≤ l → l ≤ w.lastLogId →
      w.entries f l = some (a.records.filter fun r => decide (f ≤ r.id ∧ r.id ≤ l))

/-! ### The simulation -/

/-- The log looks like the abstract log. -/
structure Simulates (pre : Record → Bool) (now : ℕ) (w : FileBasedWal)
    (a : AbstractLog) : Prop where
  represents : Represents now w a.records
  stopped : w.stopped = a.stopped
  preProcessor : w.preProcessor = pre

section Simulation

variable {pre : Record → Bool} {w : FileBasedWal}

section

variable (h : Simulates pre now w a)
include h

theorem Simulates.appendLog (hr : r.Valid) :
    ∃ w', w.appendLog now r = some (w', (a.append pre r).2) ∧
      Simulates pre now w' (a.append pre r).1 := by
  rw [AbstractLog.append]
  split
  · -- the record is written
    rename_i hacc
    simp only [AbstractLog.accepts, Bool.and_eq_true, Bool.or_eq_true, decide_eq_true_eq,
      Bool.not_eq_true'] at hacc
    obtain ⟨⟨hstop, hnext⟩, hpre⟩ := hacc
    obtain ⟨w', heq, hrep, -, hpre', hstop'⟩ := h.represents.appendLog hr (h.stopped.trans hstop)
      hnext (by rw [h.preProcessor]; exact hpre)
    exact ⟨w', heq, hrep, hstop'.trans h.stopped, hpre'.trans h.preProcessor⟩
  -- one of the three tests fails
  rename_i hacc
  refine ⟨w, ?_, h⟩
  rw [FileBasedWal.appendLog]
  split
  · rfl
  rename_i hstop
  split
  · rfl
  rename_i hgap
  rw [if_pos]
  by_contra hpre
  apply hacc
  rw [h.preProcessor] at hpre
  simp only [Bool.not_eq_true', Bool.not_eq_false] at hpre
  rw [AbstractLog.accepts, hpre, ← h.stopped, Bool.not_eq_true _ |>.mp hstop]
  simp only [Bool.not_false, Bool.true_and, Bool.and_true, Bool.or_eq_true, decide_eq_true_eq]
  by_cases hne : a.records = []
  · exact .inl hne
  right
  have hlast := h.represents.lastLogId_eq hne
  have hpos := h.represents.firstLogId_pos hne
  have hlen : 0 < a.records.length := List.length_pos_iff.mpr hne
  rw [← h.represents.last]
  by_contra hid
  exact hgap ⟨by omega, by omega, hid⟩

theorem Simulates.appendLogs (hrs : ∀ r ∈ rs, r.Valid) :
    ∃ w', w.appendLogs now rs = some (w', (a.appendAll pre rs).2) ∧
      Simulates pre now w' (a.appendAll pre rs).1 := by
  induction rs generalizing w a with
  | nil => exact ⟨w, rfl, h⟩
  | cons r rs ih =>
    obtain ⟨w', heq, h'⟩ := h.appendLog (hrs r (by simp))
    by_cases hacc : a.accepts pre r = true
    · have happ : a.append pre r = ({ a with records := a.records ++ [r] }, true) := if_pos hacc
      rw [happ] at heq h'
      rw [appendLogs, heq, AbstractLog.appendAll, if_pos hacc, happ]
      exact ih h' fun x hx => hrs x (by simp [hx])
    · have happ : a.append pre r = (a, false) := if_neg hacc
      rw [happ] at heq h'
      rw [appendLogs, heq, AbstractLog.appendAll, if_neg hacc]
      exact ⟨w', rfl, h'⟩

theorem Simulates.rollbackToLog (id : ℤ) :
    ∃ w', w.rollbackToLog now id = some (w', (a.rollback id).2) ∧
      Simulates pre now w' (a.rollback id).1 := by
  rw [AbstractLog.rollback, ← h.represents.first, ← h.represents.last]
  split_ifs with hid
  · exact ⟨w, by rw [FileBasedWal.rollbackToLog, if_pos hid], h⟩
  obtain ⟨w', heq, hrep, -, hpre', hstop'⟩ :=
    h.represents.rollbackToLog (show w.firstLogId - 1 ≤ id by omega) (by omega)
  exact ⟨w', heq, hrep, hstop'.trans h.stopped, hpre'.trans h.preProcessor⟩

theorem Simulates.perform (hop : op.Valid) :
    ∃ w' b a', w.perform now op = some (w', b) ∧ AbstractLog.Step pre a op a' b ∧
      Simulates pre now w' a' := by
  have hpol := h.preProcessor
  have hstop := h.stopped
  cases op with
  | appendLog r =>
    obtain ⟨w', heq, h'⟩ := h.appendLog hop
    exact ⟨w', _, _, heq, .appendLog a r, h'⟩
  | appendLogs rs =>
    obtain ⟨w', heq, h'⟩ := h.appendLogs hop
    exact ⟨w', _, _, heq, .appendLogs a rs, h'⟩
  | rollbackToLog id =>
    obtain ⟨w', heq, h'⟩ := h.rollbackToLog id
    exact ⟨w', _, _, heq, .rollbackToLog a id, h'⟩
  | reset =>
    obtain ⟨files, hclose⟩ := Represents.closeCurrFile_eq now w
    refine ⟨_, _, _, rfl, .reset a, h.represents.reset, ?_, ?_⟩
    · rw [reset, hclose]
      exact hstop
    · rw [reset, hclose]
      exact hpol
  | linkCurrentWAL linked =>
    obtain ⟨files, hclose⟩ := Represents.closeCurrFile_eq now w
    have hnil : w.walFiles = [] ↔ a.records = [] := by
      refine ⟨h.represents.files.eq_nil_iff.mp, fun hnil => ?_⟩
      have hrep := h.represents
      rw [hnil] at hrep
      exact hrep.walFiles_of_nil
    refine ⟨w.closeCurrFile now, _, _, ?_, .linkCurrentWAL a linked, h.represents.closeCurrFile,
      ?_, ?_⟩
    · rw [FileBasedWal.perform, linkCurrentWAL]
      by_cases hw : w.walFiles = []
      · simp [hw, hnil.mp hw]
      · simp [hw, hnil.not.mp hw]
    · rw [hclose]
      exact hstop
    · rw [hclose]
      exact hpol
  | cleanWAL ttl =>
    obtain ⟨gone, rest, hsplit, hrest, hrep⟩ := h.represents.cleanWAL ttl
    refine ⟨_, _, _, rfl, .cleanWAL a ttl gone rest hsplit hrest, hrep, ?_, ?_⟩
    · rw [cleanWAL]
      split <;> exact hstop
    · rw [cleanWAL]
      split <;> exact hpol
  | reopen =>
    exact ⟨_, _, _, rfl, .reopen a, h.represents.reopen, rfl, hpol⟩
  | stop =>
    have hrep := h.represents
    exact ⟨_, _, _, rfl, .stop a, { hrep with }, rfl, hpol⟩

end

theorem simulates_openDir {policy : FileBasedWalPolicy} (hnum : 1 ≤ policy.numBuffers) :
    Simulates pre now (openDir policy pre now []) ⟨[], false⟩ :=
  ⟨Represents.openDir (show Layout 0 [] [] from .nil 0) (by simp) hnum (Ages.nil now), rfl, rfl⟩

/-- **A sequence of operations**, by induction. -/
theorem Simulates.runOps (h : Simulates pre now w a) (hops : ∀ op ∈ ops, op.2.Valid) :
    ∃ w' answers a', w.runOps now ops = some (w', answers) ∧
      AbstractLog.Run pre a (ops.map Prod.snd) answers a' ∧
      Simulates pre (now + (ops.map Prod.fst).sum) w' a' := by
  induction ops generalizing now w a with
  | nil => exact ⟨w, [], a, rfl, .nil a, h⟩
  | cons op ops ih =>
    obtain ⟨elapsed, op⟩ := op
    have hlater : Simulates pre (now + elapsed) w a :=
      ⟨h.represents.mono (Nat.le_add_right _ _), h.stopped, h.preProcessor⟩
    obtain ⟨w', b, a', heq, hstep, h'⟩ := hlater.perform (hops (elapsed, op) (by simp))
    obtain ⟨w'', bs, a'', heq', hrun, h''⟩ := ih h' fun op hop => hops op (by simp [hop])
    refine ⟨w'', b :: bs, a'', ?_, .cons hstep hrun, ?_⟩
    · rw [runOps, heq]
      simp [heq']
    · rw [List.map_cons, List.sum_cons, ← add_assoc]
      exact h''

end Simulation

/-- **Every sequence of operations on a log looks like one on the abstract log**, as
long as the ids start at one and the records can be written. -/
theorem refines_of_valid (policy : FileBasedWalPolicy) (hnum : 1 ≤ policy.numBuffers)
    (pre : Record → Bool) (now : ℕ) (ops : List (ℕ × WalOp)) (hops : ∀ op ∈ ops, op.2.Valid) :
    Refines policy pre now ops := by
  obtain ⟨w, answers, a, heq, hrun, h⟩ := (simulates_openDir hnum).runOps hops
  exact ⟨w, answers, a, heq, hrun, h.represents.numbered, h.represents.first, h.represents.last,
    h.represents.lastTerm, fun f l hf hfl hl => h.represents.entries_eq hf hfl hl⟩

/-- Two records, one in a file that is full, then read from the files once the log has
been opened again. -/
theorem refines_sample :
    Refines { fileSize := 40, bufferSize := 60, numBuffers := 1 } (fun _ => true) 0
      [(0, .appendLogs [⟨1, 1, 0, [7]⟩, ⟨2, 1, 0, [8, 9]⟩, ⟨3, 2, 5, []⟩]), (3, .cleanWAL 2),
        (1, .rollbackToLog 3), (1, .reopen), (0, .appendLog ⟨4, 2, 5, [1]⟩)] :=
  refines_of_valid _ (by decide) _ _ _ (by
    intro op hop
    simp only [List.mem_cons, List.not_mem_nil, or_false] at hop
    rcases hop with rfl | rfl | rfl | rfl | rfl
    · simp only [WalOp.Valid]
      decide
    · trivial
    · trivial
    · trivial
    · simp only [WalOp.Valid]
      decide)

/-- A record with the id zero is taken, and gone once the log has been opened
again. -/
theorem not_refines_zero :
    ¬ Refines {} (fun _ => true) 0 [(0, .appendLog ⟨0, 1, 0, []⟩), (0, .reopen)] := by
  rintro ⟨w, answers, a, hrun, habs, -, -, -, -, hread⟩
  cases (show some (openDir {} (fun _ => true) 0 [], [true, true]) = _ from hrun)
  have ha : a.records = [⟨0, 1, 0, []⟩] := by
    cases habs with
    | cons h₁ hrest =>
      cases h₁
      cases hrest with
      | cons h₂ hrest =>
        cases h₂
        cases hrest
        rfl
  have := hread 0 0 (by decide) (by decide) (by decide)
  rw [ha] at this
  revert this
  decide

/-! ### A log that has been reset -/

/-- What a caller sees of a log: the answers, the ids and the term, and what iterators
read. -/
def observe (out : FileBasedWal × List Bool) :
    List Bool × ℤ × ℤ × ℤ × (ℤ → ℤ → Option (List Record)) :=
  (out.2, out.1.firstLogId, out.1.lastLogId, out.1.lastLogTerm, out.1.entries)

/-- Two logs look the same after every sequence of operations. -/
def LooksLike (now : ℕ) (w w' : FileBasedWal) : Prop :=
  ∀ ops, (w.runOps now ops).map observe = (w'.runOps now ops).map observe

namespace FileBasedWal

variable {policy : FileBasedWalPolicy} {pre : Record → Bool}

/-- A log without files and buffers. -/
def empty (policy : FileBasedWalPolicy) (pre : Record → Bool) (stopped : Bool) (term : ℤ) :
    FileBasedWal :=
  ⟨policy, pre, stopped, 0, 0, term, [], none, []⟩

/-- `reset` forgets everything but the term of the last log. -/
theorem reset_eq_empty (now : ℕ) (w : FileBasedWal) :
    w.reset now = empty w.policy w.preProcessor w.stopped w.lastLogTerm := by
  unfold reset closeCurrFile empty
  split
  · rename_i hnone
    simp [hnone]
  · rfl

theorem openDir_nil (now : ℕ) : openDir policy pre now [] = empty policy pre false 0 := rfl

/-- An empty log that takes no records stays empty, and whether it has been stopped
makes no difference to its answers. -/
theorem perform_empty (policy : FileBasedWalPolicy) (hdeaf : ∀ r, pre r = false) (now : ℕ)
    (op : WalOp) : ∃ answer, ∀ stopped, ∃ stopped', (empty policy pre stopped 0).perform now op =
      some (empty policy pre stopped' 0, answer) := by
  have happend (r : Record) (stopped : Bool) : (empty policy pre stopped 0).appendLog now r =
      some (empty policy pre stopped 0, false) := by
    simp [appendLog, empty, hdeaf r]
  cases op with
  | appendLog r => exact ⟨false, fun stopped => ⟨stopped, happend r stopped⟩⟩
  | appendLogs rs =>
    cases rs with
    | nil => exact ⟨true, fun stopped => ⟨stopped, rfl⟩⟩
    | cons r rs =>
      refine ⟨false, fun stopped => ⟨stopped, ?_⟩⟩
      rw [perform, appendLogs, happend]
  | rollbackToLog id =>
    by_cases hout : id < 0 - 1 ∨ 0 < id
    · exact ⟨false, fun stopped => ⟨stopped, if_pos hout⟩⟩
    · have hlast : id = 0 - 1 ∨ id = 0 := by omega
      exact ⟨true, fun stopped => ⟨stopped, (if_neg hout).trans (if_pos hlast)⟩⟩
  | reset | linkCurrentWAL linked | cleanWAL ttl => exact ⟨true, fun stopped => ⟨stopped, rfl⟩⟩
  | reopen => exact ⟨true, fun stopped => ⟨false, rfl⟩⟩
  | stop => exact ⟨true, fun stopped => ⟨true, rfl⟩⟩

theorem runOps_empty (policy : FileBasedWalPolicy) (hdeaf : ∀ r, pre r = false) (now : ℕ)
    (ops : List (ℕ × WalOp)) :
    ∃ answers, ∀ stopped, ∃ stopped', (empty policy pre stopped 0).runOps now ops =
      some (empty policy pre stopped' 0, answers) := by
  induction ops generalizing now with
  | nil => exact ⟨[], fun stopped => ⟨stopped, rfl⟩⟩
  | cons op ops ih =>
    obtain ⟨answer, hop⟩ := perform_empty policy hdeaf (now + op.1) op.2
    obtain ⟨answers, hops⟩ := ih (now + op.1)
    refine ⟨answer :: answers, fun stopped => ?_⟩
    obtain ⟨stopped₁, h₁⟩ := hop stopped
    obtain ⟨stopped₂, h₂⟩ := hops stopped₁
    refine ⟨stopped₂, ?_⟩
    rw [runOps, h₁]
    simp [h₂]

end FileBasedWal

/-- **A log that has been reset looks like a new one exactly if it had no term**, and it
was not stopped, or takes no records anyway. -/
theorem looksLike_reset_iff (now : ℕ) (w : FileBasedWal) :
    LooksLike now (w.reset now) (openDir w.policy w.preProcessor now []) ↔
      w.lastLogTerm = 0 ∧ (w.stopped = true → ∀ r, w.preProcessor r = false) := by
  rw [reset_eq_empty, openDir_nil]
  constructor
  · intro h
    refine ⟨?_, fun hstop r => ?_⟩
    · have hterm := congrArg (Option.map fun out => out.2.2.2.1) (h [])
      exact Option.some.inj hterm
    -- the stopped log answers no; the new one would write the record
    by_contra hpre
    rw [hstop] at h
    have hno : ((empty w.policy w.preProcessor true w.lastLogTerm).runOps now
        [(0, .appendLog r)]).map observe = some (observe (_, [false])) := rfl
    rw [h, Option.map_eq_some_iff] at hno
    obtain ⟨out, hout, hans⟩ := hno
    obtain ⟨out', happ, hnil⟩ := Option.bind_eq_some_iff.mp hout
    simp only [perform, appendLog, empty, ne_eq,
      Bool.false_eq_true, not_true_eq_false, false_and, hpre, Bool.not_true, if_false] at happ
    split at happ
    · cases happ
    cases happ
    cases hnil
    cases congrArg Prod.fst hans
  · rintro ⟨hterm, hstop⟩ ops
    rw [hterm]
    cases hs : w.stopped with
    | false => rfl
    | true =>
      obtain ⟨answers, hrun⟩ := runOps_empty w.policy (hstop hs) now ops
      obtain ⟨_, h₁⟩ := hrun true
      obtain ⟨_, h₂⟩ := hrun false
      rw [h₁, h₂]
      rfl

/-- A log with a record of term 1 that is reset still has this term. -/
theorem not_looksLike_reset :
    ∃ w answers, (openDir {} (fun _ => true) 0 []).runOps 0
        [(0, .appendLog ⟨1, 1, 0, []⟩)] = some (w, answers) ∧
      ¬ LooksLike 0 (w.reset 0) (openDir w.policy w.preProcessor 0 []) := by
  refine ⟨_, _, rfl, fun h => ?_⟩
  have hterm := congrArg (Option.map fun out => out.2.2.2.1) (h [])
  exact absurd (Option.some.inj hterm) (by decide)

end K2Graph.Wal

/-! ### The log of the raft layer -/

namespace K2Graph.Log

open List Wal

variable {α : Type} (bytes : α → List UInt8)

def record (n : ℕ) (e : Entry α) : Record := ⟨n, e.term, e.cluster, bytes e.msg⟩

/-- The records of the entries from an id on. -/
def recordsFrom : ℕ → List (Entry α) → List Record
  | _, [] => []
  | n, e :: es => record bytes n e :: recordsFrom (n + 1) es

def abstract (l : Log α) : AbstractLog :=
  ⟨recordsFrom bytes (l.base + l.dropped.length) l.entries, false⟩

theorem numbered_recordsFrom (n : ℕ) (es : List (Entry α)) :
    Numbered n (recordsFrom bytes n es) := by
  induction es generalizing n with
  | nil => trivial
  | cons e es ih => exact ⟨rfl, by exact_mod_cast ih (n + 1)⟩

@[simp] theorem length_recordsFrom (n : ℕ) (es : List (Entry α)) :
    (recordsFrom bytes n es).length = es.length := by
  induction es generalizing n with
  | nil => rfl
  | cons e es ih => simp [recordsFrom, ih]

theorem recordsFrom_append (n : ℕ) (es es' : List (Entry α)) :
    recordsFrom bytes n (es ++ es') =
      recordsFrom bytes n es ++ recordsFrom bytes (n + es.length) es' := by
  induction es generalizing n with
  | nil => rfl
  | cons e es ih => simp [recordsFrom, ih, Nat.add_assoc, Nat.add_comm 1]

variable {bytes} {l : Log α} {n : ℕ}

/-- The ids at both ends; without entries both logs say zero. -/
theorem ends_abstract : firstIdOf (l.abstract bytes).records = l.firstLogId ∧
    lastIdOf (l.abstract bytes).records = l.lastLogId := by
  have hnum := numbered_recordsFrom bytes (l.base + l.dropped.length) l.entries
  cases hes : l.entries with
  | nil => simp [abstract, recordsFrom, firstIdOf, lastIdOf, firstLogId, lastLogId, hes]
  | cons e es =>
    rw [hes] at hnum
    have hne : recordsFrom bytes (l.base + l.dropped.length) (e :: es) ≠ [] := cons_ne_nil _ _
    rw [abstract, hes, hnum.firstIdOf hne, hnum.lastIdOf hne, firstLogId, lastLogId, hes, next,
      hes, length_recordsFrom, length_cons]
    push_cast
    omega

/-- **Appending** to both logs is the same. -/
theorem append_abstract (hpre : pre (record bytes n e) = true) :
    (l.abstract bytes).append pre (record bytes n e) =
      (l.appendLog n e).elim (l.abstract bytes, false) fun l' => (l'.abstract bytes, true) := by
  have hlast : lastIdOf (l.abstract bytes).records = l.lastLogId := ends_abstract.2
  rw [AbstractLog.append, AbstractLog.accepts, hlast, hpre, appendLog, lastLogId]
  cases hes : l.entries with
  | nil =>
    by_cases hn : n = l.next
    · simp [abstract, hes, recordsFrom, hn, next]
    · simp [abstract, hes, recordsFrom, hn]
  | cons e' es =>
    have hid : (record bytes n e).id = ((l.next - 1 : ℕ) : ℤ) + 1 ↔ n = l.next := by
      rw [record, next, hes, length_cons]
      push_cast
      omega
    by_cases hn : n = l.next
    · subst hn
      have happ := recordsFrom_append bytes (l.base + l.dropped.length) l.entries [e]
      rw [hes] at happ
      rw [if_pos (by simp [abstract, hid.mpr rfl])]
      simpa [abstract, hes, recordsFrom, next] using happ.symm
    · simp [abstract, hes, hid, hn, recordsFrom]

/-- **Rolling back** is the same. -/
theorem rollback_abstract : (l.abstract bytes).rollback n =
    (l.rollbackToLog n).elim (l.abstract bytes, false) fun l' => (l'.abstract bytes, true) := by
  have hends : firstIdOf (l.abstract bytes).records = l.firstLogId ∧
    lastIdOf (l.abstract bytes).records = l.lastLogId := ends_abstract
  rw [AbstractLog.rollback, rollbackToLog, hends.1, hends.2]
  by_cases hout : n + 1 < l.firstLogId ∨ l.lastLogId < n
  · rw [if_pos hout, if_pos (by omega)]
    rfl
  rw [if_neg hout, if_neg (by omega), Option.elim_some, abstract, abstract, Prod.mk.injEq]
  refine ⟨congrArg (AbstractLog.mk · false) ?_, rfl⟩
  have hnum := numbered_recordsFrom bytes (l.base + l.dropped.length) l.entries
  set k := n + 1 - (l.base + l.dropped.length) with hk
  conv_lhs => rw [← take_append_drop k l.entries, recordsFrom_append]
  rw [← take_append_drop k l.entries, recordsFrom_append] at hnum
  cases hes : l.entries with
  | nil => simp [recordsFrom, Represents.upTo]
  | cons e es =>
    rw [firstLogId_of_ne_nil (by simp [hes]), lastLogId_of_ne_nil (by simp [hes]), next] at hout
    rw [hes] at hnum hout
    refine Represents.upTo_append hnum ?_
    rw [length_recordsFrom, length_take]
    rw [length_cons] at hout ⊢
    omega

end K2Graph.Log
