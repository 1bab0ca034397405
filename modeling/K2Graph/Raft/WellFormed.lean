import K2Graph.Raft.PartSpec

/-!
# The invariant of a single partition

`lastLogId_` and `lastLogTerm_` describe an entry of the log, or nothing at all.
The log may be longer, since a leader writes its logs before they are committed,
and it may be empty while `lastLogId_` is not zero, since a leader may roll back
to the very point up to which the log has been cleaned.

## Main results

* `RaftPart.WF.log_syncLast_append` — a request that is accepted makes the log
  longer by its entries.
* `RaftPart.WF.log_rollback` — a rollback leaves a prefix.
-/

namespace K2Graph

open List TermLog

namespace Log

variable {α : Type} {l : Log α} {id : ℕ}

theorem full_rollbackToLog (hbase : l.base = 1) (h : l.rollbackToLog id = some l')
    (hne : l.entries ≠ []) :
    l'.full = l.full.take id ∧ id ≤ l.full.length ∧ (l'.entries = [] → id = l.dropped.length) := by
  obtain ⟨-, hdrop, hent, -, hid, -⟩ := rollbackToLog_eq_some h
  obtain ⟨hlo, hhi⟩ := hid hne
  rw [next_eq] at hhi
  rw [hbase] at hlo hent
  have hk : id + 1 - (1 + l.dropped.length) = id - l.dropped.length := by omega
  refine ⟨?_, by omega, ?_⟩
  · have hd : l.dropped.take id = l.dropped := take_of_length_le (by omega)
    rw [full, full, hdrop, hent, hk, take_append, hd]
  intro hnil
  rw [hent, take_eq_nil_iff] at hnil
  rcases hnil with h0 | h0
  · omega
  · exact absurd h0 hne

theorem last_rollbackToLog (hbase : l.base = 1) (h : l.rollbackToLog id = some l') :
    (l'.entries ≠ [] → l'.lastLogId = id ∧ l'.lastLogTerm = lastTerm Entry.term l'.full) ∧
      (l'.entries = [] → l'.lastLogId = 0 ∧ l'.lastLogTerm = 0) := by
  obtain ⟨hb, hdrop, hent, hterm, -, -⟩ := rollbackToLog_eq_some h
  constructor
  · intro hne'
    have hne : l.entries ≠ [] := by
      intro h0
      rw [h0, take_nil] at hent
      exact hne' hent
    obtain ⟨hfull, hid, -⟩ := full_rollbackToLog hbase h hne
    constructor
    · rw [lastLogId_of_ne_nil hne', next_eq, hfull, length_take_of_le hid]
      omega
    · rw [hterm, lastTerm, full, getLast?_append_of_ne_nil _ hne']
  · intro hnil
    exact ⟨lastLogId_of_nil hnil, by rw [hterm, hnil]; rfl⟩

end Log

namespace Raft
namespace RaftPart

variable {p q : RaftPart} {req : AppendLogRequest} {wal : Log LogMsg}

structure WF (p : RaftPart) : Prop where
  base : p.wal.base = 1
  le : p.lastLogId ≤ p.wal.full.length
  empty : p.wal.entries = [] → p.lastLogId = 0 ∨ p.lastLogId = p.wal.dropped.length
  lastTerm : 0 < p.lastLogId → lastTerm Entry.term p.log = p.lastLogTerm
  walTerm : p.wal.entries ≠ [] → p.wal.lastLogTerm = TermLog.lastTerm Entry.term p.wal.full

theorem WF.length_log (h : p.WF) : p.log.length = p.lastLogId :=
  length_take_of_le h.le

theorem log_isPrefix (p : RaftPart) : p.log <+: p.wal.full := take_prefix _ _

theorem WF.lastLogId_wal (h : p.WF) (hne : p.wal.entries ≠ []) :
    p.wal.lastLogId = p.wal.full.length := by
  rw [Log.lastLogId_of_ne_nil hne, Log.next_eq, h.base]
  omega

theorem WF.exists_last (h : p.WF) (hpos : 0 < p.lastLogId) :
    ∃ e, p.log[p.lastLogId - 1]? = some e ∧ e.term = p.lastLogTerm := by
  have hlen := h.length_log
  have hlt : p.lastLogId - 1 < p.log.length := by omega
  refine ⟨p.log[p.lastLogId - 1], getElem?_eq_getElem hlt, ?_⟩
  rw [← h.lastTerm hpos]
  exact (lastTerm_eq (getElem?_eq_getElem hlt) (by omega)).symm

theorem WF.congr (h : p.WF) (hwal : q.wal = p.wal) (hid : q.lastLogId = p.lastLogId)
    (hterm : q.lastLogTerm = p.lastLogTerm) : q.WF := by
  have hlog : q.log = p.log := by rw [log, log, hwal, hid]
  refine ⟨?_, ?_, ?_, ?_, ?_⟩
  · rw [hwal]; exact h.base
  · rw [hwal, hid]; exact h.le
  · rw [hwal, hid]; exact h.empty
  · rw [hlog, hid, hterm]; exact h.lastTerm
  · rw [hwal]; exact h.walTerm

theorem wf_reset (p : RaftPart) : p.reset.WF := by
  refine ⟨rfl, le_refl _, fun _ => .inl rfl, ?_, ?_⟩
  · intro h; exact absurd h (lt_irrefl 0)
  · intro h; exact absurd rfl h

/-! ### Rolling back -/

theorem WF.rollbackUncommitted (h : p.WF) (hlt : p.lastLogId < p.wal.lastLogId)
    (hwal : p.wal.rollbackToLog p.lastLogId = some wal) (hqw : q.wal = wal)
    (hid : q.lastLogId = p.lastLogId) (hterm : q.lastLogTerm = p.lastLogTerm) :
    q.WF ∧ q.log = p.log ∧ q.wal.full = p.log := by
  have hne : p.wal.entries ≠ [] := by
    intro h0
    rw [Log.lastLogId_of_nil h0] at hlt
    omega
  obtain ⟨hfull, hle, hnil⟩ := Log.full_rollbackToLog h.base hwal hne
  obtain ⟨hb, hdrop, -⟩ := Log.rollbackToLog_eq_some hwal
  obtain ⟨hlast, -⟩ := Log.last_rollbackToLog h.base hwal
  have hlog : q.log = p.log := by
    rw [log, hqw, hid, hfull, take_take, min_self]
    rfl
  refine ⟨⟨?_, ?_, ?_, ?_, ?_⟩, hlog, by rw [hqw, hfull]; rfl⟩
  · rw [hqw, hb]; exact h.base
  · rw [hqw, hid, hfull, length_take_of_le hle]
  · intro h0
    rw [hqw] at h0 ⊢
    rw [hid, hdrop]
    exact .inr (hnil h0)
  · rw [hlog, hid, hterm]; exact h.lastTerm
  · intro hne'
    rw [hqw] at hne' ⊢
    exact (hlast hne').2

theorem WF.follows (h : p.WF) (hq : p.Follows req q) :
    q.WF ∧ q.log = p.log ∧ (q.wal.full = p.wal.full ∨ q.wal.full = p.log) := by
  obtain ⟨wal, role, leader, heq, -, -, -, hwal⟩ := hq.eq
  rcases hwal with rfl | ⟨-, hlt, hwal⟩
  · rw [heq]
    exact ⟨h.congr rfl rfl rfl, rfl, .inl rfl⟩
  · obtain ⟨hwf, hlog, hfull⟩ :=
      h.rollbackUncommitted (q := q) hlt hwal (by rw [heq]) (by rw [heq]) (by rw [heq])
    exact ⟨hwf, hlog, .inr hfull⟩

theorem WF.voteFor (h : p.WF) (vote : AskForVoteRequest) :
    (p.voteFor vote).WF ∧ (p.voteFor vote).log = p.log ∧
      ((p.voteFor vote).wal.full = p.wal.full ∨ (p.voteFor vote).wal.full = p.log) := by
  obtain ⟨wal, heq, hwal⟩ := p.stepDown_eq
  rcases hwal with rfl | ⟨-, hlt, hwal⟩
  · have hv : (p.voteFor vote).wal = p.wal := by simp only [RaftPart.voteFor, heq]
    refine ⟨h.congr hv ?_ ?_, ?_, .inl (by rw [hv])⟩
    · simp [RaftPart.voteFor, heq]
    · simp [RaftPart.voteFor, heq]
    · simp [log, RaftPart.voteFor, heq]
  · obtain ⟨hwf, hlog, hfull⟩ := h.rollbackUncommitted (q := p.voteFor vote) hlt hwal
      (by simp [RaftPart.voteFor, heq]) (by simp [RaftPart.voteFor, heq])
      (by simp [RaftPart.voteFor, heq])
    exact ⟨hwf, hlog, .inr hfull⟩

/-- Rolling back to what is committed leaves the committed entries, or nothing
when the log has been cleaned up to there. -/
theorem WF.rollbackToCommitted (h : p.WF) (hwal : p.wal.rollbackToLog p.committedLogId = some wal) :
    ({ p with wal := wal }.syncLast).WF ∧
      (({ p with wal := wal }.syncLast).log = p.wal.full.take p.committedLogId ∨
        ({ p with wal := wal }.syncLast).log = [] ∧ wal.entries = []) ∧
      (wal.full = p.wal.full.take p.committedLogId ∨ wal.full = p.wal.full) := by
  obtain ⟨hb, hdrop, hent, -, -, hemp⟩ := Log.rollbackToLog_eq_some hwal
  obtain ⟨hlast, hlast0⟩ := Log.last_rollbackToLog h.base hwal
  have hfull : wal.full = p.wal.full.take p.committedLogId ∨ wal.full = p.wal.full := by
    by_cases hne : p.wal.entries = []
    · right
      rw [Log.full, Log.full, hdrop, hent, hne, take_nil]
    · exact .inl (Log.full_rollbackToLog h.base hwal hne).1
  by_cases hnil : wal.entries = []
  · obtain ⟨hid, -⟩ := hlast0 hnil
    refine ⟨⟨hb.trans h.base, ?_, fun _ => .inl hid, ?_, fun hne => absurd hnil hne⟩,
      .inr ⟨?_, hnil⟩, hfull⟩
    · simp only [syncLast, hid]; exact Nat.zero_le _
    · simp only [syncLast, hid]; intro h0; exact absurd h0 (lt_irrefl 0)
    · simp [syncLast, log, hid]
  obtain ⟨hid, hterm⟩ := hlast hnil
  have hne : p.wal.entries ≠ [] := by
    intro h0
    rw [h0, take_nil] at hent
    exact hnil hent
  obtain ⟨hf, hle, -⟩ := Log.full_rollbackToLog h.base hwal hne
  have hlog : ({ p with wal := wal }.syncLast).log = wal.full := by
    simp [syncLast, log, hid, hf, take_take]
  refine ⟨⟨hb.trans h.base, ?_, fun h0 => absurd h0 hnil, ?_, fun _ => hterm⟩,
    .inl (hlog.trans hf), hfull⟩
  · simp [syncLast, hid, hf, length_take_of_le hle]
  · intro _
    rw [hlog]
    exact hterm.symm

/-! ### Writing -/

variable {logs : List (ℤ × LogMsg)} {term : ℕ}

theorem WF.appendToWal (h : p.WF) (happ : p.appendToWal (p.lastLogId + 1) term logs = (p', true))
    (hlogs : logs ≠ []) :
    p'.wal.base = 1 ∧ p'.wal.entries ≠ [] ∧
      p'.wal.full = p.log ++ logs.map (fun l => ⟨term, l.1, l.2⟩) ∧ p'.wal.lastLogTerm = term := by
  rcases appendToWal_cases happ with ⟨h0, -⟩ | ⟨-, h0, -⟩ | ⟨-, -, hne, -, hterm, hcase⟩
  · cases h0
  · exact absurd h0 hlogs
  rcases hcase with ⟨hid, hb, hfull⟩ | ⟨hemp, hid, hb, hfull⟩
  · rw [Log.next_eq, h.base] at hid
    have hlog : p.log = p.wal.full := by
      rw [log, take_of_length_le (by omega)]
    exact ⟨hb.trans h.base, hne, by rw [hlog]; exact hfull, hterm⟩
  · rw [Log.next_eq, h.base, Log.length_full, hemp, length_nil] at hid
    have h0 : p.lastLogId = 0 := by
      rcases h.empty hemp with h0 | h0 <;> omega
    refine ⟨by rw [hb, h0], hne, ?_, hterm⟩
    rw [hfull, log, h0, take_zero, nil_append]

theorem lastTerm_append_map (hlogs : logs ≠ []) :
    TermLog.lastTerm Entry.term (X ++ logs.map (fun l => ⟨term, l.1, l.2⟩)) = term := by
  have hne : logs.map (fun l => (⟨term, l.1, l.2⟩ : Entry LogMsg)) ≠ [] := by simpa using hlogs
  rw [TermLog.lastTerm, getLast?_append_of_ne_nil _ hne, getLast?_map,
    getLast?_eq_some_getLast hlogs]
  rfl

theorem WF.leader_append (h : p.WF) (happ : p.appendToWal (p.lastLogId + 1) term logs = (p', true))
    (hlogs : logs ≠ []) :
    p'.WF ∧ p'.log = p.log := by
  obtain ⟨hb, hne, hfull, hterm⟩ := h.appendToWal happ hlogs
  have heq := appendToWal_eq happ
  have hid : p'.lastLogId = p.lastLogId := by rw [heq]
  have hlt : p'.lastLogTerm = p.lastLogTerm := by rw [heq]
  have hlog : p'.log = p.log := by
    rw [log, hfull, hid, ← h.length_log, take_left]
  refine ⟨⟨hb, ?_, fun h0 => absurd h0 hne, ?_, fun _ => ?_⟩, hlog⟩
  · rw [hfull, length_append, h.length_log]
    omega
  · rw [hlog, hid, hlt]; exact h.lastTerm
  · rw [hfull, lastTerm_append_map hlogs, hterm]

/-- **A request that is accepted makes the log longer by its entries.** -/
theorem WF.log_syncLast_append (h : p.WF) (hid : p.lastLogId = req.lastLogIdSent)
    (happ : p.appendToWal (req.lastLogIdSent + 1) req.logTerm req.logStrList = (p', true))
    (hlast : req.lastLogIdSent + req.logStrList.length = p'.wal.lastLogId) :
    p'.syncLast.WF ∧ p'.syncLast.log = p.log ++ req.entries ∧
      (p'.wal.full = p.log ++ req.entries ∨ p'.wal.full = p.wal.full ∧ req.entries = []) := by
  rw [← hid] at happ hlast
  by_cases hlogs : req.logStrList = []
  · have hp : p' = p := by
      rw [hlogs] at happ
      simpa [RaftPart.appendToWal] using happ.symm
    subst hp
    have hent : req.entries = [] := by simp [AppendLogRequest.entries, hlogs]
    rw [hlogs, length_nil, Nat.add_zero] at hlast
    have hlog : p'.syncLast.log = p'.log := by simp [log, syncLast, ← hlast]
    rw [hent, append_nil]
    refine ⟨⟨h.base, ?_, ?_, ?_, h.walTerm⟩, hlog, .inr ⟨rfl, rfl⟩⟩
    · simp only [syncLast, ← hlast]; exact h.le
    · simp only [syncLast, ← hlast]; exact h.empty
    intro hpos
    rw [hlog]
    simp only [syncLast, ← hlast] at hpos ⊢
    have hne : p'.wal.entries ≠ [] := by
      intro h0
      rw [Log.lastLogId_of_nil h0] at hlast
      omega
    have hfull : p'.log = p'.wal.full := by
      rw [log, hlast, h.lastLogId_wal hne, take_length]
    rw [hfull, h.walTerm hne]
  · obtain ⟨hb, hne, hfull, hterm⟩ := h.appendToWal happ hlogs
    have hlen : p'.wal.lastLogId = p'.wal.full.length := by
      rw [Log.lastLogId_of_ne_nil hne, Log.next_eq]
      omega
    have hlog : p'.syncLast.log = p'.wal.full := by
      simp [log, syncLast, hlen]
    refine ⟨⟨hb, ?_, fun h0 => absurd h0 hne, ?_, ?_⟩, hlog.trans hfull, .inl hfull⟩
    · simp [syncLast, hlen]
    · intro _
      rw [hlog, hfull, lastTerm_append_map hlogs]
      exact hterm.symm
    · intro _
      simp only [syncLast]
      rw [hfull, lastTerm_append_map hlogs, hterm]

end RaftPart
end Raft
end K2Graph
