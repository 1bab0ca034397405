import K2Graph.Kvstore.Snapshot
import K2Graph.Lib.Run

/-!
# The transfer of a snapshot

The leader sends one chunk at a time and goes on to the next when it is told that the
follower has taken it; a chunk may arrive any number of times and at any later time, and
the answer may be lost.  A follower that has waited for too long gives up and runs again.

When the last chunk has been taken, the follower should hold what the leader held when
the log was committed that the snapshot names.  It does not: keys of indexes and UUIDs are
not scanned, what the follower held before is not removed, and the scan begins after the
committed log has been read.  What it holds is what was scanned, and under every other key
what it held before.

## Main results

* `Transfer.lookup_accepted` — what the follower holds when the last chunk is taken.
* `Transfer.exists_accepted` — the last chunk can be taken.
* `snapshotComplete_iff` — when the property holds.
* `not_snapshotComplete` — a key of an index that is lost, and a key that stays.
-/

namespace K2Graph.Kvstore

open List

open Raft (RaftPart SendSnapshotRequest ErrorCode)

/-! ### The system -/

/-- The chunk that is being sent, whether the sender has given up, and the follower. -/
structure Transfer where
  current : ℕ
  stopped : Bool
  follower : Follower

namespace Transfer

/-- The beginning of a transfer: the first chunk is being sent. -/
def start (f : Follower) : Transfer := ⟨0, false, f⟩

inductive Action where
  /-- A chunk that has been sent arrives; `answered` says the answer gets back in time. -/
  | deliver (i : ℕ) (engineOk answered : Bool)
  /-- The follower gives up. -/
  | cleanup

/-- What the sender makes of an answer to the chunk `i`.  It waits for the answer to the
current one only. -/
def answer (s : Transfer) (i : ℕ) (f : Follower) (code : ErrorCode) (answered : Bool) : Transfer :=
  if answered = true ∧ i = s.current ∧ s.stopped = false then
    if code = .succeeded then ⟨s.current + 1, false, f⟩ else ⟨s.current, true, f⟩
  else { s with follower := f }

def step (l : Leader) (s : Transfer) : Action → Option Transfer
  | .deliver i engineOk answered =>
      if i ≤ s.current then do
        let c ← l.chunks[i]?
        let (f, code) ← s.follower.processSendSnapshotRequest l.part (l.request c) engineOk
        return s.answer i f code answered
      else none
  | .cleanup =>
      if s.follower.part.needToCleanupSnapshot true then
        some { s with follower := s.follower.cleanupSnapshot l.part }
      else none

/-- Rows the engine has not taken are missed: what has been counted before is not what the
chunk says. -/
def failureShows (l : Leader) (s : Transfer) : Action → Prop
  | .deliver i engineOk _ => engineOk = true ∨ ∀ c, l.chunks[i]? = some c → c.rows = [] ∨
      s.follower.part.beginSnapshot.lastTotalCount ≠ c.totalCount ∨
      s.follower.part.beginSnapshot.lastTotalSize ≠ c.totalSize
  | .cleanup => True

/-- The follower takes the chunk that is marked done. -/
structure Accepts (l : Leader) (s : Transfer) (f' : Follower) : Prop where
  exists_chunk : ∃ i c engineOk, i ≤ s.current ∧ l.chunks[i]? = some c ∧ c.done = true ∧
    failureShows l s (.deliver i engineOk true) ∧
    s.follower.processSendSnapshotRequest l.part (l.request c) engineOk = some (f', .succeeded)

end Transfer

/-! ### The property -/

/-- Keys of vertices and edges, of indexes and of UUIDs. -/
def contentKey (partId : Int32) (k : Bytes) : Prop :=
  ∃ type : KeyType, type ≠ .system ∧ keyItem partId type <+: k

/-- However the chunks arrive, when the last one has been taken the follower runs, has
committed what the snapshot names and holds what the leader held then. -/
def SnapshotComplete (l : Leader) (f : Follower) : Prop :=
  ∀ s f', Reach (Transfer.step l) (Transfer.failureShows l) (Transfer.start f) s →
    Transfer.Accepts l s f' →
    f'.part.status = .running ∧ f'.part.committedLogId = l.committedLogId ∧
      ∀ k, contentKey l.part.partId k → f'.engine.lookup k = l.atCommit.lookup k

/-- The follower runs, or waits for a snapshot, and follows the leader in its term. -/
structure Follower.Follows (f : Follower) (l : Leader) : Prop where
  status : f.part.status = .running ∨ f.part.status = .waitingSnapshot
  role : f.part.role = .follower ∨ f.part.role = .learner
  leader : f.part.leader = l.addr
  term : f.part.term = l.term

/-! ### Keys -/

theorem head_keyItem (partId : Int32) (type : KeyType) :
    (keyItem partId type).head? = some (UInt8.ofNat type.toInt.toNat) := by
  have hmod : (partId.toInt * 256 + type.toInt) % 256 ^ 4 % 256 = type.toInt := by
    cases type <;> simp only [KeyType.toInt] <;> omega
  have hnat : ((partId.toInt * 256 + type.toInt) % 256 ^ 4).toNat % 256 = type.toInt.toNat := by
    omega
  rw [keyItem, LittleEndian.ofInt, LittleEndian.ofNat, head?_cons, hnat]

variable {k : Bytes}

theorem contentKey.ne (h : contentKey partId k) : k ≠ systemCommitKey partId := by
  rintro rfl
  obtain ⟨type, hne, hpre⟩ := h
  obtain ⟨rest, hrest⟩ := hpre
  have hhead := congrArg head? hrest
  rw [systemCommitKey, head?_append, head?_append, head_keyItem, head_keyItem,
    Option.some_or] at hhead
  cases type with
  | system => exact hne rfl
  | data | index | uuid => exact absurd hhead (by decide)

/-! ### One chunk -/

theorem process_of_receives (h : receives p req = true) (engineOk : Bool) :
    p.processSendSnapshotRequest req engineOk =
      if (p.beginSnapshot.receiveRows req engineOk).lastTotalCount ≠ req.totalCount ∨
          (p.beginSnapshot.receiveRows req engineOk).lastTotalSize ≠ req.totalSize then
        (p.beginSnapshot.receiveRows req engineOk, .ePersistSnapshotFailed) else if req.done then
        ((p.beginSnapshot.receiveRows req engineOk).finishSnapshot req, .succeeded)
      else (p.beginSnapshot.receiveRows req engineOk, .succeeded) := by
  obtain ⟨hstop, hstart, hrole, hleader, hterm⟩ := of_decide_eq_true h
  have hterm' : ¬ (p.leader ≠ req.leader ∨ p.term ≠ req.term) :=
    fun hne => hne.elim (· hleader) (· hterm)
  rw [RaftPart.processSendSnapshotRequest, if_neg hstop, if_neg hstart,
    if_neg (fun hne => hrole.elim hne.1 hne.2), if_neg hterm']

theorem process_of_not_receives (h : ¬ receives p req = true) (engineOk : Bool) :
    (p.processSendSnapshotRequest req engineOk).1 = p ∧
      (p.processSendSnapshotRequest req engineOk).2 ≠ .succeeded := by
  unfold RaftPart.processSendSnapshotRequest
  split
  · exact ⟨rfl, nofun⟩
  split
  · exact ⟨rfl, nofun⟩
  split
  · exact ⟨rfl, nofun⟩
  split
  · exact ⟨rfl, nofun⟩
  rename_i hstop hstart hrole hterm
  refine absurd (decide_eq_true ⟨hstop, hstart, ?_, ?_, ?_⟩) h
  · by_contra hno
    exact hrole (not_or.mp hno)
  · exact not_not.mp fun hno => hterm (.inl hno)
  · exact not_not.mp fun hno => hterm (.inr hno)

theorem Part.lookup_cleanup (p : Part) (engine : Engine) (engineOk : Bool)
    (hk : k ≠ systemCommitKey p.partId) :
    (p.cleanup engine engineOk).lookup k = engine.lookup k := by
  cases engineOk with
  | false => rfl
  | true =>
    refine (Engine.lookup_apply engine (p.putCommitMsg 0 0) k).trans ?_
    exact if_neg (Ne.symm hk)

theorem Follower.process_cases {l : Leader} (hc : c ∈ l.chunks) (f : Follower) (engineOk : Bool) :
    ∃ engine', f.processSendSnapshotRequest l.part (l.request c) engineOk =
        some (⟨(f.part.processSendSnapshotRequest (l.request c) engineOk).1, engine'⟩,
          (f.part.processSendSnapshotRequest (l.request c) engineOk).2) ∧
      (receives f.part (l.request c) = true ∧
          (∀ k, k ≠ systemCommitKey l.part.partId → l.Puts c engineOk f.engine engine' k) ∨
        ¬ receives f.part (l.request c) = true ∧ engine' = f.engine) := by
  rw [Follower.processSendSnapshotRequest]
  by_cases hrec : receives f.part (l.request c) = true
  · obtain ⟨engine', heq, hputs⟩ := l.commitSnapshot_puts hc
      (if f.part.status ≠ .waitingSnapshot then l.part.cleanup f.engine engineOk else f.engine)
      (Int64.ofNat (l.request c).committedLogId) (Int64.ofNat (l.request c).committedLogTerm)
      (l.request c).done engineOk
    refine ⟨engine', ?_, .inl ⟨hrec, fun k hk => ?_⟩⟩
    · rw [if_pos hrec]
      change (do let engine ← l.part.commitSnapshot _ c.rows _ _ _ engineOk; _) = _
      rw [heq]
      rfl
    have hsame : AList.lookup k (if f.part.status ≠ .waitingSnapshot
        then l.part.cleanup f.engine engineOk else f.engine) = f.engine.lookup k := by
      split
      · exact l.part.lookup_cleanup f.engine engineOk hk
      · rfl
    obtain ⟨hcar, hnot, heither⟩ := hputs k hk
    rw [hsame] at hnot heither
    exact ⟨hcar, hnot, heither⟩
  · rw [if_neg hrec]
    exact ⟨f.engine, rfl, .inr ⟨hrec, rfl⟩⟩

/-! ### The invariant -/

theorem Counted.done_iff {count : ℕ} (h : Counted count size cs) (hc : cs[i]? = some c) :
    c.done = true ↔ i + 1 = cs.length := by
  induction cs generalizing count size i with
  | nil => cases hc
  | cons d cs ih =>
    obtain ⟨-, -, hdone, hrest⟩ := h
    cases i with
    | zero =>
      obtain rfl : d = c := Option.some.inj hc
      rw [hdone, length_cons, ← length_eq_zero_iff]
      omega
    | succ i =>
      rw [length_cons, ih hrest hc]
      omega

variable {f' : Follower}

namespace Transfer

variable {l : Leader} {f : Follower} {s : Transfer}

/-- What a follower holds during a transfer. -/
structure Inv (l : Leader) (f : Follower) (s : Transfer) : Prop where
  /-- Keys that are not sent are as they were. -/
  kept : ∀ k, k ≠ systemCommitKey l.part.partId → ¬ l.Sends k →
    s.follower.engine.lookup k = f.engine.lookup k
  /-- The chunks before the current one have been put into the engine. -/
  put : ∀ i c, i < s.current → l.chunks[i]? = some c → ∀ k, k ≠ systemCommitKey l.part.partId →
    l.Carries c k → s.follower.engine.lookup k = l.atScan.lookup k

theorem inv_start (l : Leader) (f : Follower) : Inv l f (start f) where
  kept := fun _ _ _ => rfl
  put := fun i _ hi => absurd hi (Nat.not_lt_zero i)

theorem lookup_of_succeeded (hc : l.chunks[i]? = some c)
    (hok : failureShows l s (.deliver i engineOk answered))
    (hproc : s.follower.processSendSnapshotRequest l.part (l.request c) engineOk =
      some (f', .succeeded))
    (hk : k ≠ systemCommitKey l.part.partId) : l.Puts c true s.follower.engine f'.engine k := by
  have hmem := mem_of_getElem? hc
  obtain ⟨engine', heq, hcases⟩ := s.follower.process_cases hmem engineOk
  rw [heq] at hproc
  injection hproc with hproc
  injection hproc with hf hcode
  subst hf
  rcases hcases with ⟨hrec, hputs⟩ | ⟨hrec, -⟩
  · obtain ⟨hcar, hnot, heither⟩ := hputs k hk
    refine ⟨fun _ hcarries => ?_, hnot, heither⟩
    rcases hok with hok | hok
    · exact hcar hok hcarries
    -- the engine may have refused the rows, and then there were none
    cases engineOk with
    | true => exact hcar rfl hcarries
    | false =>
      rw [process_of_receives hrec] at hcode
      rcases hok c hc with hnil | hcount | hsize
      · obtain ⟨v, -, hrow⟩ := hcarries
        rw [hnil] at hrow
        cases hrow
      · rw [if_pos (.inl hcount)] at hcode
        cases hcode
      · rw [if_pos (.inr hsize)] at hcode
        cases hcode
  · exact absurd hcode (process_of_not_receives hrec engineOk).2

/-- Who changes an engine as a chunk does keeps the invariant. -/
theorem Inv.puts (h : Inv l f s) (c : Chunk) (engineOk : Bool)
    (hputs : ∀ k, k ≠ systemCommitKey l.part.partId → l.Puts c engineOk s.follower.engine engine' k)
    (hengine : s'.follower.engine = engine')
    (hnew : ∀ i c, i < s'.current → ¬ i < s.current → l.chunks[i]? = some c → ∀ k,
      k ≠ systemCommitKey l.part.partId → l.Carries c k → engine'.lookup k = l.atScan.lookup k) :
    Inv l f s' := by
  constructor
  · intro k hk hno
    rw [hengine, (hputs k hk).notSent hno]
    exact h.kept k hk hno
  intro i d hi hd k hk hcar
  rw [hengine]
  by_cases hold : i < s.current
  · have hput := h.put i d hold hd k hk hcar
    rcases (hputs k hk).either with heq | heq
    · rw [heq, hput]
    · exact heq
  · exact hnew i d hi hold hd k hk hcar

theorem current_answer (hj : j < (s.answer i f' code answered).current) (hold : ¬ j < s.current) :
    j = i ∧ code = .succeeded := by
  unfold answer at hj
  split at hj
  · split_ifs at hj with hcode
    · have hj : j < s.current + 1 := hj
      exact ⟨by omega, hcode⟩
    · exact absurd hj hold
  · exact absurd hj hold

theorem Inv.step (h : Inv l f s) {act : Action} (hok : failureShows l s act)
    (hstep : Transfer.step l s act = some s') : Inv l f s' := by
  cases act with
  | deliver i engineOk answered =>
    simp only [Transfer.step] at hstep
    split at hstep
    · obtain ⟨c, hc, hstep⟩ := Option.bind_eq_some_iff.mp hstep
      obtain ⟨⟨f', code⟩, hproc, hstep⟩ := Option.bind_eq_some_iff.mp hstep
      obtain rfl := Option.some.inj hstep
      have hfollower : (s.answer i f' code answered).follower = f' := by
        unfold answer
        split
        · split <;> rfl
        · rfl
      obtain ⟨engine', heq, hcases⟩ :=
        s.follower.process_cases (mem_of_getElem? hc) engineOk
      have hengine : f'.engine = engine' := by
        rw [heq] at hproc
        injection hproc with hproc
        rw [← (Prod.mk.inj hproc).1]
      have hnew : ∀ j d, j < (s.answer i f' code answered).current → ¬ j < s.current →
          l.chunks[j]? = some d → ∀ k, k ≠ systemCommitKey l.part.partId → l.Carries d k →
          engine'.lookup k = l.atScan.lookup k := by
        intro j d hj hold hd k hk hcar
        obtain ⟨rfl, rfl⟩ := current_answer hj hold
        obtain rfl : c = d := Option.some.inj (hc.symm.trans hd)
        rw [← hengine]
        exact (lookup_of_succeeded hc hok hproc hk).carried rfl hcar
      rcases hcases with ⟨-, hputs⟩ | ⟨-, hsame⟩
      · exact h.puts c engineOk hputs (by rw [hfollower, hengine]) hnew
      · refine h.puts c false (fun k _ => ?_) (by rw [hfollower, hengine]) hnew
        rw [hsame]
        exact ⟨fun hf => absurd hf (by decide), fun _ => rfl, .inl rfl⟩
    · cases hstep
  | cleanup =>
    simp only [Transfer.step] at hstep
    split at hstep
    · obtain rfl := Option.some.inj hstep
      have hsame : ∀ k, k ≠ systemCommitKey l.part.partId →
          (s.follower.cleanupSnapshot l.part).engine.lookup k = s.follower.engine.lookup k :=
        fun k hk => l.part.lookup_cleanup s.follower.engine true hk
      constructor
      · intro k hk hno
        exact (hsame k hk).trans (h.kept k hk hno)
      · intro i c hi hc k hk hcar
        exact (hsame k hk).trans (h.put i c hi hc k hk hcar)
    · cases hstep

section

variable (h : Reach (Transfer.step l) (failureShows l) (start f) s)
include h

theorem inv_of_reach : Inv l f s :=
  Reach.invariant (inv_start l f) (fun _ _ _ ht hok hs => ht.step hok hs) h

/-- **What the follower holds when the last chunk is taken**: what was scanned, and what
it held before. -/
theorem lookup_accepted (hacc : Accepts l s f') (hk : k ≠ systemCommitKey l.part.partId) :
    (l.Sends k → f'.engine.lookup k = l.atScan.lookup k) ∧
      (¬ l.Sends k → f'.engine.lookup k = f.engine.lookup k) := by
  obtain ⟨i, c, engineOk, hle, hc, hdone, hok, hproc⟩ := hacc.exists_chunk
  have hinv := inv_of_reach h
  have hputs := lookup_of_succeeded hc hok hproc hk
  refine ⟨fun hsends => ?_, fun hno => (hputs.notSent hno).trans (hinv.kept k hk hno)⟩
  obtain ⟨d, hd, hcar⟩ := l.exists_carries hsends
  obtain ⟨j, hj⟩ := mem_iff_getElem?.mp hd
  have hlast : i + 1 = l.chunks.length := (l.counted_chunks.done_iff hc).mp hdone
  have hlt : j < l.chunks.length := (List.getElem?_eq_some_iff.mp hj).1
  by_cases hji : j = i
  · subst hji
    obtain rfl : c = d := Option.some.inj (hc.symm.trans hj)
    exact hputs.carried rfl hcar
  · have hput := hinv.put j d (by omega) hj k hk hcar
    rcases hputs.either with heq | heq
    · rw [heq, hput]
    · exact heq

end

end Transfer

/-! ### The last chunk can be taken -/

variable {l : Leader} {f : Follower} {c : Chunk}

theorem Follower.Follows.receives (h : f.Follows l) (c : Chunk) :
    receives f.part (l.request c) = true := by
  refine decide_eq_true ⟨?_, ?_, h.role, h.leader, h.term⟩
  · rcases h.status with hs | hs <;> rw [hs] <;> decide
  · rcases h.status with hs | hs <;> rw [hs] <;> decide

/-- What has been counted is what the chunk says has been sent before it. -/
def Follower.CountsBefore (f : Follower) (c : Chunk) : Prop :=
  c.totalCount = f.part.beginSnapshot.lastTotalCount + c.rows.length ∧
    c.totalSize = f.part.beginSnapshot.lastTotalSize + (c.rows.map List.length).sum

theorem Follower.Follows.process (h : f.Follows l) (hc : c ∈ l.chunks) (hcount : f.CountsBefore c) :
    ∃ engine', f.processSendSnapshotRequest l.part (l.request c) true =
      some (⟨if c.done then (f.part.beginSnapshot.receiveRows (l.request c) true).finishSnapshot
          (l.request c) else f.part.beginSnapshot.receiveRows (l.request c) true, engine'⟩,
        .succeeded) := by
  obtain ⟨engine', heq, -⟩ := f.process_cases hc true
  refine ⟨engine', ?_⟩
  have hmatch : ¬ ((f.part.beginSnapshot.receiveRows (l.request c) true).lastTotalCount ≠
        (l.request c).totalCount ∨
      (f.part.beginSnapshot.receiveRows (l.request c) true).lastTotalSize ≠
        (l.request c).totalSize) := by
    rintro (hne | hne)
    · exact hne hcount.1.symm
    · exact hne hcount.2.symm
  have hreq : (l.request c).done = c.done := rfl
  rw [heq, process_of_receives (h.receives c), if_neg hmatch, hreq]
  cases c.done with
  | true => rfl
  | false => rfl

theorem Follower.Follows.receiveRows (h : f.Follows l) (c : Chunk) (engine' : Engine) :
    (⟨f.part.beginSnapshot.receiveRows (l.request c) true, engine'⟩ : Follower).Follows l ∧
      (f.part.beginSnapshot.receiveRows (l.request c) true).status = .waitingSnapshot := by
  rcases f.part.beginSnapshot_cases with ⟨hst, heq⟩ | ⟨-, heq⟩
  · rw [heq]
    exact ⟨⟨.inr hst, h.role, h.leader, h.term⟩, hst⟩
  · rw [heq]
    exact ⟨⟨.inr rfl, h.role, h.leader, h.term⟩, rfl⟩

namespace Transfer

/-- From the chunk that is next, the last one is reached and taken. -/
theorem exists_accepted_of_next (hne : cs ≠ []) (pre : List Chunk) (hchunks : l.chunks = pre ++ cs)
    (hreach : Reach (Transfer.step l) (failureShows l) (start f) s) (hcur : s.current = pre.length)
    (hstop : s.stopped = false) (hf : s.follower.Follows l)
    (hcount : Counted s.follower.part.beginSnapshot.lastTotalCount
      s.follower.part.beginSnapshot.lastTotalSize cs) :
    ∃ s f', Reach (Transfer.step l) (failureShows l) (start f) s ∧ Accepts l s f' := by
  induction cs generalizing pre s with
  | nil => exact absurd rfl hne
  | cons c cs ih =>
    obtain ⟨htc, hts, hdone, hrest⟩ := hcount
    have hget : l.chunks[s.current]? = some c := by
      rw [hchunks, hcur, getElem?_append_right (le_refl _), Nat.sub_self]
      rfl
    obtain ⟨engine', hproc⟩ := hf.process (mem_of_getElem? hget) ⟨htc, hts⟩
    by_cases hnil : cs = []
    · -- this is the last chunk
      exact ⟨s, _, hreach, ⟨s.current, c, true, le_refl _, hget, hdone.mpr hnil, .inl rfl, hproc⟩⟩
    have hnot : c.done = false := Bool.eq_false_iff.mpr fun hd => hnil (hdone.mp hd)
    rw [hnot] at hproc
    obtain ⟨hf', hst⟩ := hf.receiveRows c engine'
    have hstep : Transfer.step l s (.deliver s.current true true) = some ⟨s.current + 1, false,
        ⟨s.follower.part.beginSnapshot.receiveRows (l.request c) true, engine'⟩⟩ := by
      rw [Transfer.step, if_pos (le_refl _), hget]
      simp only [Option.bind_eq_bind, Option.bind_some, hproc]
      rw [answer, if_pos ⟨rfl, rfl, hstop⟩]
      rfl
    have hok : failureShows l s (.deliver s.current true true) := .inl rfl
    refine ih hnil (pre ++ [c]) (by rw [hchunks, append_assoc]; rfl)
      (.tail hreach hok hstep) (by rw [hcur, length_append]; rfl) rfl hf' ?_
    have hbegin : (s.follower.part.beginSnapshot.receiveRows (l.request c) true).beginSnapshot =
        s.follower.part.beginSnapshot.receiveRows (l.request c) true := by
      rw [RaftPart.beginSnapshot, if_neg (fun hne => hne hst)]
    rw [hbegin]
    change Counted (_ + c.rows.length) (_ + (c.rows.map length).sum) cs
    rw [← htc, ← hts]
    exact hrest

/-- **The last chunk can be taken** by a follower that follows the leader. -/
theorem exists_accepted (hf : f.Follows l) :
    ∃ s f', Reach (Transfer.step l) (failureShows l) (start f) s ∧ Accepts l s f' := by
  rcases hf.status with hst | hst
  · refine exists_accepted_of_next l.chunks_ne_nil [] rfl (.refl) rfl rfl hf ?_
    have hbegin : f.part.beginSnapshot = { f.part.reset with status := .waitingSnapshot } := by
      rw [RaftPart.beginSnapshot, if_pos (by rw [hst]; decide)]
    change Counted f.part.beginSnapshot.lastTotalCount f.part.beginSnapshot.lastTotalSize l.chunks
    rw [hbegin]
    exact l.counted_chunks
  -- it gives up what it may have received and begins again
  have hrole : f.part.role ≠ .leader := by
    rcases hf.role with hr | hr <;> rw [hr] <;> decide
  have hneed : f.part.needToCleanupSnapshot true = true := by
    simp [RaftPart.needToCleanupSnapshot, hst, hrole]
  have hstep : Transfer.step l (start f) .cleanup =
      some ⟨0, false, f.cleanupSnapshot l.part⟩ := if_pos hneed
  have hok : failureShows l (start f) .cleanup := trivial
  refine exists_accepted_of_next l.chunks_ne_nil [] rfl (.tail .refl hok hstep) rfl rfl
    ⟨.inl rfl, hf.role, hf.leader, hf.term⟩ ?_
  exact l.counted_chunks

end Transfer

/-! ### When a snapshot is complete -/

theorem Transfer.Accepts.part (h : Transfer.Accepts l s f') :
    f'.part.status = .running ∧ f'.part.committedLogId = l.committedLogId := by
  obtain ⟨i, c, engineOk, -, hc, hdone, -, hproc⟩ := h.exists_chunk
  obtain ⟨engine', heq, hcases⟩ :=
    s.follower.process_cases (mem_of_getElem? hc) engineOk
  rw [heq] at hproc
  injection hproc with hproc
  injection hproc with hf hcode
  subst hf
  rcases hcases with ⟨hrec, -⟩ | ⟨hrec, -⟩
  · rw [process_of_receives hrec] at hcode ⊢
    have hdone' : (l.request c).done = true := hdone
    split at hcode
    · cases hcode
    · rename_i hmatch
      rw [if_neg hmatch, if_pos hdone']
      exact ⟨rfl, rfl⟩
  · exact absurd hcode (process_of_not_receives hrec engineOk).2

/-- What is sent is what was committed, and under the keys that are not sent the follower
has already held what the leader held. -/
def HeldAlready (l : Leader) (f : Follower) : Prop :=
  ∀ k, contentKey l.part.partId k →
    (l.Sends k → l.atScan.lookup k = l.atCommit.lookup k) ∧
      (¬ l.Sends k → f.engine.lookup k = l.atCommit.lookup k)

theorem SnapshotComplete.heldAlready (h : SnapshotComplete l f) (hf : f.Follows l) :
    HeldAlready l f := by
  obtain ⟨s, f', hreach, hacc⟩ := Transfer.exists_accepted hf
  obtain ⟨-, -, hcontent⟩ := h s f' hreach hacc
  intro k hk
  obtain ⟨hsent, hnot⟩ := Transfer.lookup_accepted hreach hacc hk.ne
  rw [← hcontent k hk]
  exact ⟨fun hs => (hsent hs).symm, fun hs => (hnot hs).symm⟩

theorem snapshotComplete_iff (l : Leader) (f : Follower) (hf : f.Follows l) :
    SnapshotComplete l f ↔ HeldAlready l f := by
  refine ⟨fun h => h.heldAlready hf, fun h s f' hreach hacc => ?_⟩
  obtain ⟨hstatus, hcommitted⟩ := hacc.part
  refine ⟨hstatus, hcommitted, fun k hk => ?_⟩
  obtain ⟨hsent, hnot⟩ := Transfer.lookup_accepted hreach hacc hk.ne
  by_cases hs : l.Sends k
  · exact (hsent hs).trans ((h k hk).1 hs)
  · exact (hnot hs).trans ((h k hk).2 hs)

variable (content : List (Bytes × Bytes))

/-- An engine with the given pairs, and the record of log 5 of term 2. -/
def sampleEngine : Engine :=
  Engine.write ∅ ((content.map fun kv => .put kv.1 kv.2) ++ [Part.putCommitMsg ⟨1, 0⟩ 5 2])

/-- A leader of partition 1 with that engine. -/
def sampleLeader
    (hshort : ∀ x ∈ (sampleEngine content).entries, x.1.length < 2 ^ 32 ∧ x.2.length < 2 ^ 32) :
    Leader where
  part := ⟨1, 0⟩
  addr := (1, 1)
  term := 2
  snapshotBatchSize := 20
  atCommit := sampleEngine content
  atScan := sampleEngine content
  committed := (5, 2)
  committed_eq := by
    refine Part.lastCommittedLogId_of_lookup ?_
    rw [sampleEngine, Engine.write_append]
    exact AList.lookup_insert _
  short := hshort

/-- A follower of that leader, with the given pairs. -/
def sampleFollower : Follower :=
  ⟨{ RaftPart.start (2, 2) [(1, 1)] 0 with leader := (1, 1), term := 2 },
    Engine.write ∅ (content.map fun kv => .put kv.1 kv.2)⟩

theorem follows_sampleFollower (content content' : List (Bytes × Bytes))
    (hshort : ∀ x ∈ (sampleEngine content').entries, x.1.length < 2 ^ 32 ∧ x.2.length < 2 ^ 32) :
    (sampleFollower content).Follows (sampleLeader content' hshort) :=
  ⟨.inl rfl, .inl rfl, rfl, rfl⟩

def dataKey (n : UInt8) : Bytes := keyItem 1 .data ++ [n]

def indexKey (n : UInt8) : Bytes := keyItem 1 .index ++ [n]

/-- The leader has one vertex, of which the follower has an older version. -/
theorem snapshotComplete_sample :
    SnapshotComplete (sampleLeader [(dataKey 1, [7])] (by decide +kernel))
      (sampleFollower [(dataKey 1, [3])]) := by
  refine (snapshotComplete_iff _ _ (follows_sampleFollower _ _ _)).mpr fun k hk =>
    ⟨fun _ => rfl, ?_⟩
  intro hno
  have hsys : systemCommitKey 1 ≠ k := hk.ne.symm
  have hdata : dataKey 1 ≠ k := by
    rintro rfl
    exact hno ⟨[7], Leader.mem_rows.mpr ⟨by decide +kernel, by decide +kernel⟩⟩
  refine (Engine.lookup_write _ _ _).trans (Eq.trans ?_ (Engine.lookup_write _ _ _).symm)
  simp [WriteOp.onKey, Part.putCommitMsg, hdata, hsys]

/-- **A snapshot need not be complete**: a key of an index does not arrive, and a key the
leader does not have stays. -/
theorem not_snapshotComplete :
    ¬ SnapshotComplete (sampleLeader [(dataKey 1, [7]), (indexKey 1, [])] (by decide +kernel))
        (sampleFollower []) ∧
      ¬ SnapshotComplete (sampleLeader [(dataKey 1, [7])] (by decide +kernel))
        (sampleFollower [(dataKey 2, [3])]) := by
  constructor
  · intro h
    have hheld := h.heldAlready (follows_sampleFollower _ _ _) (indexKey 1)
      ⟨.index, nofun, prefix_append _ _⟩
    refine absurd (hheld.2 ?_) (by decide +kernel)
    rintro ⟨v, hv⟩
    have hpre : ¬ snapshotPrefix 1 <+: indexKey 1 := by decide +kernel
    exact hpre (Leader.mem_rows.mp hv).2
  · intro h
    have hheld := h.heldAlready (follows_sampleFollower _ _ _) (dataKey 2)
      ⟨.data, nofun, prefix_append _ _⟩
    refine absurd (hheld.2 ?_) (by decide +kernel)
    rintro ⟨v, hv⟩
    have hnone : (sampleEngine [(dataKey 1, [7])]).lookup (dataKey 2) = none := by decide +kernel
    exact absurd (hnone.symm.trans (Leader.mem_rows.mp hv).1) nofun

end K2Graph.Kvstore
