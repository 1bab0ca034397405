import K2Graph.Raft.LogMatching

/-!
# Partitions that lose nothing they should keep

A partition is *intact* when its log was neither cleaned nor reset: its log then
starts at id 1, and it has committed no more than it holds.  The lemmas say how
the log of an intact partition changes when it handles an append request: it is
kept, it is cut where it conflicts with the log of the sender, or it becomes the
log of the sender.

The code cuts the log whenever the terms of the last logs differ, whether or not
there is a conflict.  That the cut is one at a conflict is a condition here.

## Main results

* `Group.LogInv.receipt` — every request that meets the conditions is handled in
  one of these ways.
-/

namespace K2Graph.Raft

open List TermLog

namespace RaftPart

variable {p q : RaftPart} {req : AppendLogRequest} {wal : Log LogMsg}

/-- The log was neither cleaned nor reset. -/
structure Intact (p : RaftPart) : Prop where
  dropped : p.wal.dropped = []
  walTerm : p.wal.entries = [] → p.wal.lastLogTerm = 0
  lastTerm : p.lastLogId = 0 → p.lastLogTerm = 0
  committed_le : p.committedLogId ≤ p.lastLogId

section

variable (h : p.Intact)
include h

/-- What `Intact` looks at. -/
theorem Intact.congr (hwal : q.wal = p.wal) (hid : q.lastLogId = p.lastLogId)
    (hterm : q.lastLogTerm = p.lastLogTerm) (hcomm : q.committedLogId = p.committedLogId) :
    q.Intact := by
  refine ⟨?_, ?_, ?_, ?_⟩
  · rw [hwal]; exact h.dropped
  · rw [hwal]; exact h.walTerm
  · rw [hid, hterm]; exact h.lastTerm
  · rw [hcomm, hid]; exact h.committed_le

theorem Intact.full_eq : p.wal.full = p.wal.entries := by
  rw [Log.full, h.dropped, nil_append]

theorem Intact.lastTerm_log (hwf : p.WF) :
    TermLog.lastTerm Entry.term p.log = p.lastLogTerm := by
  rcases Nat.eq_zero_or_pos p.lastLogId with h0 | hpos
  · rw [h.lastTerm h0, log, h0]
    rfl
  · exact hwf.lastTerm hpos

theorem Intact.rollback {id : ℕ} (hwf : p.WF) (hwal : p.wal.rollbackToLog id = some wal) :
    wal.dropped = [] ∧ (wal.entries = [] → wal.lastLogTerm = 0) ∧
      wal.full = p.wal.full.take id := by
  obtain ⟨-, hdrop, hent, -, -, hemp⟩ := Log.rollbackToLog_eq_some hwal
  refine ⟨hdrop.trans h.dropped, fun hnil => ((Log.last_rollbackToLog hwf.base hwal).2 hnil).2, ?_⟩
  by_cases hne : p.wal.entries = []
  · rw [Log.full, hdrop, hent, h.full_eq, hne, h.dropped, take_nil, take_nil, append_nil]
  · exact (Log.full_rollbackToLog hwf.base hwal hne).1

theorem Intact.follows (hwf : p.WF) (hq : p.Follows req q) : q.Intact := by
  obtain ⟨wal, role, leader, heq, -, -, -, hwal⟩ := hq.eq
  rcases hwal with rfl | ⟨-, -, hwal⟩
  · rw [heq]
    exact h.congr rfl rfl rfl rfl
  · obtain ⟨hdrop, hterm, -⟩ := h.rollback hwf hwal
    rw [heq]
    exact ⟨hdrop, hterm, h.lastTerm, h.committed_le⟩

theorem Intact.voteFor (hwf : p.WF) (vote : AskForVoteRequest) :
    (p.voteFor vote).Intact := by
  obtain ⟨wal, heq, hwal⟩ := p.stepDown_eq
  rcases hwal with rfl | ⟨-, -, hwal⟩
  · simp only [RaftPart.voteFor, heq]
    exact h.congr rfl rfl rfl rfl
  · obtain ⟨hdrop, hterm, -⟩ := h.rollback hwf hwal
    simp only [RaftPart.voteFor, heq]
    exact ⟨hdrop, hterm, h.lastTerm, h.committed_le⟩

theorem Intact.rollbackToCommitted (hwf : p.WF)
    (hwal : p.wal.rollbackToLog p.committedLogId = some wal) :
    ({ p with wal := wal }.syncLast).Intact ∧
      ({ p with wal := wal }.syncLast).log = p.log.take p.committedLogId := by
  obtain ⟨hdrop, hterm, hfull⟩ := h.rollback hwf hwal
  obtain ⟨hlast, hlast0⟩ := Log.last_rollbackToLog hwf.base hwal
  have hcomm := h.committed_le
  have hle := hwf.le
  have hlen : wal.full.length = p.committedLogId := by
    rw [hfull, length_take_of_le (by omega)]
  have hid : wal.lastLogId = p.committedLogId := by
    by_cases hnil : wal.entries = []
    · rw [(hlast0 hnil).1, ← hlen, Log.full, hdrop, hnil]
      rfl
    · exact (hlast hnil).1
  refine ⟨⟨hdrop, hterm, ?_, ?_⟩, ?_⟩
  · intro h0
    simp only [syncLast] at h0 ⊢
    refine hterm ?_
    rw [hid, ← hlen, Log.full, hdrop] at h0
    exact length_eq_zero_iff.mp h0
  · simp [syncLast, hid]
  · simp only [log, syncLast, hfull, take_take]
    congr 1
    omega

end

theorem appendToWal_dropped {id term : ℕ} (h : p.appendToWal id term logs = (p', ok))
    (hd : p.wal.dropped = []) : p'.wal.dropped = [] := by
  induction logs generalizing p id with
  | nil =>
    simp only [appendToWal, Prod.mk.injEq] at h
    rw [← h.1]
    exact hd
  | cons l logs ih =>
    simp only [appendToWal] at h
    split at h
    · simp only [Prod.mk.injEq] at h
      rw [← h.1]
      exact hd
    rename_i wal happ
    refine ih h ?_
    -- one log: the list of cleaned ones stays, or the log starts again
    unfold Log.appendLog at happ
    split at happ
    · split at happ
      · cases happ; exact hd
      · cases happ; rfl
    · split at happ
      · cases happ; exact hd
      · cases happ

theorem Intact.leader_append (h : p.Intact) (hwf : p.WF) {term : ℕ}
    (happ : p.appendToWal (p.lastLogId + 1) term logs = (p', true)) (hlogs : logs ≠ []) :
    p'.Intact := by
  obtain ⟨-, hne, -, -⟩ := hwf.appendToWal happ hlogs
  have heq := appendToWal_eq happ
  refine ⟨appendToWal_dropped happ h.dropped, fun h0 => absurd h0 hne, ?_, ?_⟩
  · rw [heq]; exact h.lastTerm
  · rw [heq]; exact h.committed_le

theorem Intact.syncLast_append (h : p.Intact) (hwf : p.WF) (hid : p.lastLogId = req.lastLogIdSent)
    (happ : p.appendToWal (req.lastLogIdSent + 1) req.logTerm req.logStrList = (p', true))
    (hlast : req.lastLogIdSent + req.logStrList.length = p'.wal.lastLogId) :
    p'.syncLast.Intact ∧ p'.syncLast.committedLogId = p.committedLogId := by
  have heq := appendToWal_eq happ
  have hcomm : p'.committedLogId = p.committedLogId := by rw [heq]
  have hdrop := appendToWal_dropped happ h.dropped
  have hnil : p'.wal.entries = [] → p'.wal.lastLogTerm = 0 := by
    intro h0
    rcases appendToWal_cases happ with ⟨hok, -⟩ | ⟨-, -, rfl⟩ | ⟨-, -, hne, -⟩
    · cases hok
    · exact h.walTerm h0
    · exact absurd h0 hne
  refine ⟨⟨hdrop, hnil, ?_, ?_⟩, hcomm⟩
  · intro h0
    simp only [syncLast] at h0 ⊢
    refine hnil ?_
    by_contra hne
    have hwf' := (hwf.log_syncLast_append hid happ hlast).1
    have hlen : p'.wal.lastLogId = p'.wal.full.length := hwf'.lastLogId_wal hne
    rw [hlen, Log.full, hdrop] at h0
    exact hne (length_eq_zero_iff.mp h0)
  · have := h.committed_le
    simp only [syncLast]
    omega

end RaftPart

/-! ### Handling an append request -/

/-- Both logs have an entry at the position, and the two are of different terms. -/
def conflictAt (X Y : List (Entry LogMsg)) (c : ℕ) : Bool :=
  match X[c]?, Y[c]? with
  | some e, some f => decide (e.term ≠ f.term)
  | _, _ => false

theorem exists_of_conflictAt (h : conflictAt X Y c = true) :
    ∃ e f, X[c]? = some e ∧ Y[c]? = some f ∧ e.term ≠ f.term := by
  unfold conflictAt at h
  split at h
  · rename_i e f he hf
    exact ⟨e, f, he, hf, of_decide_eq_true h⟩
  · cases h

namespace RaftPart

/-- The partition has joined the term of the request. -/
structure Joins (p : RaftPart) (req : AppendLogRequest) (p' : RaftPart) : Prop where
  le : p.term ≤ req.currentTerm
  term : p'.term = req.currentTerm
  role : p'.role ≠ .leader
  intact : p'.Intact
  committed : p.committedLogId ≤ p'.committedLogId

/-- What handling an append request from a sender with log `cut` does. -/
inductive Receipt (p : RaftPart) (req : AppendLogRequest) (cut : List (Entry LogMsg))
    (out : AppendOutcome) : Prop
  /-- The leader is refused. -/
  | refused : out.part = p → out.passed = [] → Receipt p req cut out
  /-- The log stays as it is. -/
  | kept : p.Joins req out.part → out.part.log = p.log →
      out.part.committedLogId = p.committedLogId → out.passed = [] → Receipt p req cut out
  /-- The log is cut at a conflict with the sender's. -/
  | cut {e f : Entry LogMsg} : p.Joins req out.part → p.log[p.committedLogId]? = some e →
      cut[p.committedLogId]? = some f → e.term ≠ f.term →
      out.part.log = p.log.take p.committedLogId → out.part.committedLogId = p.committedLogId →
      out.passed = [] → Receipt p req cut out
  /-- The log becomes the sender's, and what is known to be committed of it is
  committed. -/
  | extended {n : ℕ} : p.Joins req out.part → p.log <+: cut → out.part.log = cut →
      n ≤ cut.length → n ≤ req.committedLogId →
      (∀ x ∈ out.passed, 0 < x.2 ∧ x.2 ≤ n ∧ cut[x.2 - 1]? = some x.1) →
      (out.part.committedLogId = n ∨ out.part.committedLogId = p.committedLogId) →
      Receipt p req cut out

/-- The entries passed to `commitLogs` are those of the log. -/
theorem WF.mem_iterator {p : RaftPart} (h : p.WF) {start : ℕ}
    (hx : x ∈ p.wal.iterator (start + 1) last) :
    0 < x.2 ∧ x.2 ≤ last ∧ p.wal.full[x.2 - 1]? = some x.1 := by
  obtain ⟨hstart, hlast, hget⟩ := Log.mem_iterator hx
  obtain ⟨-, hfull⟩ := Log.getElem?_full_of_get? hget
  rw [h.base] at hfull
  exact ⟨by omega, hlast, hfull⟩

end RaftPart

namespace Group

variable {req : AppendLogRequest}

/-- No term of the sender's log is later than that of its request, so nothing is
reset. -/
theorem not_reset (hd : describes cut req.lastLogIdSent req.lastLogTermSent = true)
    (hle : ∀ e ∈ cut, e.term ≤ req.currentTerm) : req.lastLogTermSent ≤ req.currentTerm := by
  rcases Nat.eq_zero_or_pos req.lastLogIdSent with h0 | hpos
  · simp only [describes, h0, lt_irrefl, decide_false, Bool.false_and, Bool.or_false,
    decide_eq_true_eq] at hd
    omega
  · obtain ⟨e, he, hterm⟩ := describes_pos hd hpos
    rw [← hterm]
    exact hle e (mem_of_getElem? he)

/-- **How an intact partition handles a request** whose sender's log has no later
term and which cuts the log only at a conflict. -/
theorem LogInv.receipt (h : LogInv s) (hel : ElectionInv cfg s) (hint : (s.nodes dst).part.Intact)
    (hsnap : req.sendingSnapshot = false) (hcut : Built Entry.term s.termLog cut)
    (hdrop : cut.drop req.lastLogIdSent = req.entries)
    (hd : describes cut req.lastLogIdSent req.lastLogTermSent = true)
    (hle : ∀ e ∈ cut, e.term ≤ req.currentTerm)
    (hconf : ((s.nodes dst).part.verifyLeader req recent).2 = .succeeded →
      (s.nodes dst).part.committedLogId ≤ req.lastLogIdSent → (s.nodes dst).part.termsDiffer req =
        true → (s.nodes dst).part.committedLogId < (s.nodes dst).part.lastLogId →
          conflictAt (s.nodes dst).part.log cut (s.nodes dst).part.committedLogId = true)
    (hout : out = (s.nodes dst).part.processAppendLogRequest req recent commitOk) :
    (s.nodes dst).part.Receipt req cut out := by
  rcases RaftPart.processAppendLogRequest_cases (h.running dst) hsnap recent commitOk with
    ⟨hpart, hpassed, -⟩ | ⟨hver, q, hq, hhand⟩
  · exact .refused (hout ▸ hpart) (hout ▸ hpassed)
  rw [← hout] at hhand
  obtain ⟨-, hbuilt, -, hro, hte, hterm⟩ := h.receives hq
  obtain ⟨q₀, hfol, hcase⟩ := hq
  have hwf := h.wf dst
  obtain ⟨hwf', hlog, -⟩ := hwf.follows hfol
  have hint' := hint.follows hwf hfol
  obtain ⟨wal, role, leader, heq, -⟩ := hfol.eq
  -- the partition has not been reset
  have hq₀ : q = q₀ := by
    rcases hcase with h0 | ⟨-, -, hlt⟩
    · exact h0
    · have := not_reset hd hle
      have hte₀ : q₀.term = req.currentTerm := by rw [heq]
      omega
  subst hq₀
  have hlt : q.lastLogTerm = (s.nodes dst).part.lastLogTerm := by rw [heq]
  have hcomm : q.committedLogId = (s.nodes dst).part.committedLogId := by rw [heq]
  rw [hte] at hterm
  cases hhand with
  | kept hpart hpassed _ _ =>
    rw [← hpart] at hte hro hint' hlog hcomm
    exact .kept ⟨hterm, hte, hro, hint', hcomm.ge⟩ hlog hcomm hpassed
  | @rolledBack _ wal' hsent hdiff hwal hpart hpassed _ _ =>
    obtain ⟨hint'', hlog''⟩ := hint'.rollbackToCommitted hwf' hwal
    have hcomm' : out.part.committedLogId = (s.nodes dst).part.committedLogId := by
      rw [hpart]
      exact hcomm
    have hjoin : (s.nodes dst).part.Joins req out.part := by
      refine ⟨hterm, ?_, ?_, ?_, hcomm'.ge⟩
      · rw [hpart]; exact hte
      · rw [hpart]; exact hro
      · rw [hpart]; exact hint''
    rw [← hpart, hlog, hcomm] at hlog''
    by_cases hall : (s.nodes dst).part.lastLogId ≤ (s.nodes dst).part.committedLogId
    · -- nothing is cut off
      refine .kept hjoin ?_ hcomm' hpassed
      rw [hlog'', take_of_length_le]
      rw [hwf.length_log]
      exact hall
    · rw [hcomm] at hsent
      have hdiff' : (s.nodes dst).part.termsDiffer req = true := by
        rw [RaftPart.termsDiffer, hlt] at hdiff
        exact hdiff
      obtain ⟨e, f, he, hf, hne⟩ :=
        exists_of_conflictAt (hconf hver hsent hdiff' (Nat.lt_of_not_le hall))
      exact .cut hjoin he hf hne hlog'' hcomm' hpassed
  | @appended p' resp hdiff hsame happ hlast _ _ =>
    obtain ⟨hwf'', hlog'', -⟩ := hwf'.log_syncLast_append hsame happ hlast
    obtain ⟨hint'', hcomm''⟩ := hint'.syncLast_append hwf' hsame happ hlast
    have halike := RaftPart.appendToWal_alike happ
    have hq : q.log = cut.take req.lastLogIdSent :=
      h.log_eq_take hel hwf' hbuilt hcut hd hdiff hsame
    have hnew : p'.syncLast.log = cut := by
      rw [hlog'', hq, ← hdrop, take_append_drop]
    have hpre : (s.nodes dst).part.log <+: cut := by
      rw [← hlog, hq]
      exact take_prefix _ _
    have hlen : p'.syncLast.lastLogId = cut.length := by
      rw [← hwf''.length_log, hnew]
    have hrole' : p'.syncLast.role ≠ .leader := by
      rw [RaftPart.appendToWal_eq happ]
      exact hro
    have hte' : p'.syncLast.term = req.currentTerm := halike.term.trans hte
    rw [hcomm] at hcomm''
    obtain ⟨-, -, hc⟩ := p'.syncLast.followerCommit_cases req resp commitOk
    rcases hc with ⟨hpart, hpassed⟩ | ⟨hmin, hpassed, hpart⟩
    · refine .extended ⟨hterm, ?_, ?_, ?_, ?_⟩ hpre ?_ (Nat.zero_le _) (Nat.zero_le _) ?_ ?_
      · rw [hpart]; exact hte'
      · rw [hpart]; exact hrole'
      · rw [hpart]; exact hint''
      · rw [hpart]; exact hcomm''.ge
      · rw [hpart]; exact hnew
      · rw [hpassed]; simp
      · rw [hpart]; exact .inr hcomm''
    rw [hcomm''] at hmin
    have hpass : ∀ x ∈ (p'.syncLast.followerCommit req resp commitOk).passed,
        0 < x.2 ∧ x.2 ≤ min p'.syncLast.lastLogId req.committedLogId ∧
          cut[x.2 - 1]? = some x.1 := by
      intro x hx
      rw [hpassed] at hx
      obtain ⟨hpos, hle', hget⟩ := hwf''.mem_iterator hx
      refine ⟨hpos, hle', ?_⟩
      rw [← hnew, RaftPart.log, getElem?_take_of_lt (by omega)]
      exact hget
    rcases hpart with hpart | ⟨role', leader', hpart, hrole''⟩
    · refine .extended ⟨hterm, ?_, ?_, ?_, ?_⟩ hpre ?_ (by omega) (min_le_right _ _) hpass ?_
      · rw [hpart]; exact hte'
      · rw [hpart]; exact hrole'
      · rw [hpart]; exact hint''
      · rw [hpart]; exact hcomm''.ge
      · rw [hpart]; exact hnew
      · rw [hpart]; exact .inr hcomm''
    refine .extended ⟨hterm, ?_, ?_, ?_, ?_⟩ hpre ?_ (by omega) (min_le_right _ _) hpass ?_
    · rw [hpart]; exact hte'
    · rw [hpart]
      rcases hrole'' with h0 | h0
      · simp only [h0]; exact hrole'
      · simp [h0]
    · rw [hpart]
      exact ⟨hint''.dropped, hint''.walTerm, hint''.lastTerm, min_le_left _ _⟩
    · rw [hpart]; exact hmin.le
    · rw [hpart]; exact hnew
    · rw [hpart]; exact .inl rfl

end Group
end K2Graph.Raft
