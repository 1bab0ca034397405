import K2Graph.Raft.Lifecycle

/-!
# What the log of a partition covers

A partition commits by iterating over its log from right after `committedLogId_`.
The log has to start no later than there, and one without logs has to go on no
later than there.  Every function of `RaftPart` keeps this up, as long as the log is
not cleaned too far, and a snapshot or a restart does not leave a log that starts
too late.

## Main results

* `RaftPart.Ready.processAppendLogRequest` and others — every function keeps the
  invariant.
* `RaftPart.Ready.since_processAppendLogRequest` — what a follower commits is
  complete.
-/

namespace K2Graph.Raft

open Log

/-! ### What the log covers -/

namespace RaftPart

variable {p p' q : RaftPart}

/-- The log starts no later than right after what is committed.  A partition
without logs goes on right after what is committed, or before. -/
structure Covered (p : RaftPart) : Prop where
  first : p.wal.entries ≠ [] → p.wal.firstLogId ≤ p.committedLogId + 1
  last : p.wal.entries = [] → p.lastLogId ≤ p.committedLogId

/-- Logs that are written leave the first id of the log, unless it was empty. -/
theorem firstLogId_appendToWal {id term : ℕ} (hne : logs ≠ [])
    (h : p.appendToWal id term logs = (p', true)) :
    p'.wal.firstLogId = if p.wal.entries = [] then id else p.wal.firstLogId := by
  induction logs generalizing p id with
  | nil => exact absurd rfl hne
  | cons l logs ih =>
    simp only [appendToWal] at h
    split at h
    · cases h
    rename_i wal happ
    have hfirst := firstLogId_appendLog happ
    obtain ⟨hwal, -⟩ := appendLog_eq_some happ
    cases logs with
    | nil =>
      simp only [appendToWal, Prod.mk.injEq, and_true] at h
      rw [← h]
      exact hfirst
    | cons l' logs =>
      rw [ih (by simp) h, if_neg hwal]
      exact hfirst

/-- An iterator from right after what is committed runs over all logs up to
`last`. -/
theorem Covered.map_snd_iterator (h : p.Covered) {last : ℕ} (hlt : p.committedLogId < last)
    (hlast : last ≤ p.wal.lastLogId) :
    (p.wal.iterator (p.committedLogId + 1) last).map Prod.snd =
      List.range' (p.committedLogId + 1) (last - p.committedLogId) := by
  have hne : p.wal.entries ≠ [] := by
    intro h0
    rw [lastLogId_of_nil h0] at hlast
    omega
  rw [Log.map_snd_iterator hne (h.first hne) hlast]
  congr 1
  omega

/-- Rolling back to a log the partition may roll back to keeps the first log, or
leaves nothing. -/
theorem Covered.rollbackToLog (h : p.Covered) {id : ℕ} {wal : Log LogMsg}
    (hr : p.wal.rollbackToLog id = some wal) :
    (wal.entries ≠ [] → wal.firstLogId ≤ p.committedLogId + 1) ∧
      (wal.entries = [] → p.wal.entries ≠ [] → id ≤ p.committedLogId) := by
  obtain ⟨hbase, hdropped, hentries, -, hrange, -⟩ := rollbackToLog_eq_some hr
  constructor
  · intro hne
    have hne' : p.wal.entries ≠ [] := by
      intro h0
      rw [hentries, h0, List.take_nil] at hne
      exact hne rfl
    have hfirst := h.first hne'
    rw [firstLogId_of_ne_nil hne'] at hfirst
    rw [firstLogId_of_ne_nil hne, hbase, hdropped]
    exact hfirst
  · intro h0 hne'
    have hfirst := h.first hne'
    rw [firstLogId_of_ne_nil hne'] at hfirst
    rw [h0] at hentries
    have hlen := congrArg List.length hentries
    rw [List.length_nil, List.length_take] at hlen
    have hpos : 0 < p.wal.entries.length := List.length_pos_iff.mpr hne'
    omega

theorem Covered.follows (h : p.Covered) (hq : p.Follows req q) : q.Covered := by
  obtain ⟨wal, role, leader, hqeq, -, -, -, hwal⟩ := hq.eq
  rw [hqeq]
  rcases hwal with rfl | ⟨-, hlt, hr⟩
  · exact ⟨h.first, h.last⟩
  obtain ⟨hfirst, hlast⟩ := h.rollbackToLog hr
  refine ⟨hfirst, fun h0 => hlast h0 fun h0' => ?_⟩
  rw [lastLogId_of_nil h0'] at hlt
  omega

theorem covered_of_nil (hnil : p.wal.entries = []) (hlast : p.lastLogId ≤ p.committedLogId) :
    p.Covered :=
  ⟨fun hne => absurd hnil hne, fun _ => hlast⟩

theorem Covered.receives (h : p.Covered) (hq : p.Receives req q) : q.Covered := by
  obtain ⟨q₀, hq₀, rfl | ⟨rfl, -⟩⟩ := hq
  · exact h.follows hq₀
  · exact covered_of_nil rfl (le_refl 0)

theorem Covered.syncLast (hfirst : p.wal.entries ≠ [] → p.wal.firstLogId ≤ p.committedLogId + 1) :
    p.syncLast.Covered := by
  refine ⟨hfirst, fun h0 => ?_⟩
  show p.syncLast.wal.lastLogId ≤ p.committedLogId
  rw [lastLogId_of_nil h0]
  exact Nat.zero_le _

theorem Covered.appendToWal (h : q.Covered) {term : ℕ}
    (happ : q.appendToWal (q.lastLogId + 1) term logs = (p', true)) :
    p'.wal.entries ≠ [] → p'.wal.firstLogId ≤ p'.committedLogId + 1 := by
  intro hne
  have hcommitted : p'.committedLogId = q.committedLogId := by rw [appendToWal_eq happ]
  rcases appendToWal_cases happ with ⟨h0, -⟩ | ⟨-, -, rfl⟩ | ⟨-, hlogs, -⟩
  · cases h0
  · exact h.first hne
  rw [firstLogId_appendToWal hlogs happ, hcommitted]
  split_ifs with hnil
  · have hlast := h.last hnil
    omega
  · exact h.first hnil

theorem Covered.handled (h : q.Covered) (hout : Handled q req commitOk out) :
    out.part.Covered := by
  cases hout with
  | kept hpart => rw [hpart]; exact h
  | rolledBack _ _ hr hpart =>
    rw [hpart]
    exact .syncLast (h.rollbackToLog hr).1
  | @appended p' resp _ hlast happ =>
    rw [← hlast] at happ
    have hsync : p'.syncLast.Covered := .syncLast (h.appendToWal happ)
    obtain ⟨-, -, hc⟩ := p'.syncLast.followerCommit_cases req resp commitOk
    rcases hc with ⟨hc, -⟩ | ⟨hlt, -, hc | ⟨role, leader, hc, -⟩⟩
    · rw [hc]; exact hsync
    · rw [hc]; exact hsync
    rw [hc]
    refine ⟨fun hne => ?_, fun h0 => ?_⟩
    · have := hsync.first hne
      simp only at hlt this ⊢
      omega
    · have := hsync.last h0
      omega

/-! ### What a partition keeps up -/

/-- Only a running partition leads, its log is covered, and one that waits for a
snapshot is at the last log it has written. -/
structure Ready (p : RaftPart) : Prop where
  leader : p.role = .leader → p.status = .running
  covered : p.status = .running → p.Covered
  waiting : p.status = .waitingSnapshot → p.lastLogId = p.wal.lastLogId

/-- The term does not go down, and a partition that leads in the same term has led
before and has written and committed nothing. -/
structure Steady (p p' : RaftPart) : Prop where
  term : p.term ≤ p'.term
  leader : p'.role = .leader → p'.term = p.term →
    p.role = .leader ∧ p'.lastLogId = p.lastLogId ∧ p'.committedLogId = p.committedLogId ∧
      p'.wal.lastLogId = p.wal.lastLogId ∧ (p.wal.entries ≠ [] → p'.wal.entries ≠ [])

theorem Steady.refl (p : RaftPart) : p.Steady p :=
  ⟨Nat.le_refl _, fun hrole _ => ⟨hrole, rfl, rfl, rfl, id⟩⟩

theorem Steady.of_not_leader (hterm : p.term ≤ p'.term) (hrole : p'.role ≠ .leader) :
    p.Steady p' :=
  ⟨hterm, fun h => absurd h hrole⟩

theorem Handled.keeps (h : Handled q req commitOk out) :
    out.part.term = q.term ∧ out.part.status = q.status ∧
      (out.part.role = q.role ∨ out.part.role = .follower) := by
  cases h with
  | kept hpart | rolledBack _ _ _ hpart => rw [hpart]; exact ⟨rfl, rfl, .inl rfl⟩
  | @appended p' resp _ _ happ =>
    have hp' := appendToWal_eq happ
    obtain ⟨-, -, hc⟩ := p'.syncLast.followerCommit_cases req resp commitOk
    rcases hc with ⟨hc, -⟩ | ⟨-, -, hc | ⟨role, leader, hc, hrole⟩⟩
    · rw [hc, hp']; exact ⟨rfl, rfl, .inl rfl⟩
    · rw [hc, hp']; exact ⟨rfl, rfl, .inl rfl⟩
    · rw [hp'] at hc hrole
      rw [hp', hc]
      exact ⟨rfl, rfl, hrole⟩

theorem Receives.keeps (h : p.Receives req q) :
    p.term ≤ q.term ∧ q.status = p.status ∧ q.role ≠ .leader := by
  obtain ⟨q₀, hq₀, hq⟩ := h
  obtain ⟨wal, role, leader, hqeq, -, hterm, hrole, -⟩ := hq₀.eq
  rcases hq with rfl | ⟨rfl, -⟩
  · rw [hqeq]; exact ⟨hterm, rfl, hrole⟩
  · rw [hqeq]; exact ⟨hterm, rfl, hrole⟩

theorem ready_of_waiting (hrole : p.role ≠ .leader) (hst : p.status = .waitingSnapshot)
    (hlast : p.lastLogId = p.wal.lastLogId) : p.Ready :=
  ⟨fun hl => absurd hl hrole, fun hr => (nomatch hst.symm.trans hr), fun _ => hlast⟩

theorem ready_of_covered (hst : p.status = .running) (hcov : p.Covered) : p.Ready :=
  ⟨fun _ => hst, fun _ => hcov, fun hw => (nomatch hst.symm.trans hw)⟩

section

variable (h : p.Ready)
include h

/-- An append request keeps a partition that waits for a snapshot at the last log it
has written. -/
theorem Ready.appendWaiting (hst : p.status = .waitingSnapshot) (hq : p.Follows req q)
    (resp : AppendLogResponse) :
    (q.appendWaiting req resp).crashed = true ∨
      (q.appendWaiting req resp).part.Ready ∧ p.Steady (q.appendWaiting req resp).part := by
  obtain ⟨wal, role, leader, hqeq, -, hterm, hrole, hwal⟩ := hq.eq
  have hwal : wal = p.wal := by
    rcases hwal with hwal | ⟨hlead, -⟩
    · exact hwal
    · rw [h.leader hlead] at hst
      cases hst
  have hqterm : p.term ≤ q.term := by rw [hqeq]; exact hterm
  have hqrole : q.role ≠ .leader := by rw [hqeq]; exact hrole
  have hqst : q.status = .waitingSnapshot := by rw [hqeq]; exact hst
  have hqlast : q.lastLogId = q.wal.lastLogId := by
    rw [hqeq, hwal]
    exact h.waiting hst
  obtain ⟨-, -, hc | hc | ⟨p', happ, hc⟩⟩ := q.appendWaiting_cases req resp
  · exact .inl hc
  · rw [hc]
    exact .inr ⟨ready_of_waiting hqrole hqst hqlast, .of_not_leader hqterm hqrole⟩
  · rw [hc, appendToWal_eq happ]
    exact .inr ⟨ready_of_waiting hqrole hqst rfl, .of_not_leader hqterm hqrole⟩

/-- **An append request keeps the log covered**, and a leader that handles it leads
no more. -/
theorem Ready.processAppendLogRequest (req : AppendLogRequest) (recent commitOk : Bool) :
    (p.processAppendLogRequest req recent commitOk).crashed = true ∨
      (p.processAppendLogRequest req recent commitOk).part.Ready ∧
        p.Steady (p.processAppendLogRequest req recent commitOk).part := by
  cases hst : p.status with
  | stopped =>
    rw [(processAppendLogRequest_of_idle (.inl hst) req recent commitOk).1]
    exact .inr ⟨h, Steady.refl p⟩
  | starting =>
    rw [(processAppendLogRequest_of_idle (.inr hst) req recent commitOk).1]
    exact .inr ⟨h, Steady.refl p⟩
  | waitingSnapshot =>
    rcases processAppendLogRequest_waiting hst req recent commitOk with ⟨heq, -⟩ | ⟨q, hq, heq⟩
    · rw [heq]; exact .inr ⟨h, Steady.refl p⟩
    · rw [heq]
      exact h.appendWaiting hst hq p.currentResponse
  | running =>
    right
    cases hsnap : req.sendingSnapshot with
    | true =>
      obtain ⟨-, heq | ⟨q, hq, heq⟩⟩ := processAppendLogRequest_snapshot hst hsnap recent commitOk
      · rw [heq]; exact ⟨h, Steady.refl p⟩
      obtain ⟨wal, role, leader, hqeq, -, hterm, hrole, -⟩ := hq.eq
      have hqrole : q.role ≠ .leader := by rw [hqeq]; exact hrole
      have hqterm : p.term ≤ q.term := by rw [hqeq]; exact hterm
      rw [heq]
      exact ⟨ready_of_waiting hqrole rfl rfl, .of_not_leader hqterm hqrole⟩
    | false =>
      rcases processAppendLogRequest_cases hst hsnap recent commitOk with ⟨heq, -⟩ | ⟨-, q, hq, hh⟩
      · rw [heq]; exact ⟨h, Steady.refl p⟩
      obtain ⟨hqterm, hqst, hqrole⟩ := hq.keeps
      obtain ⟨hterm, hst', hrole⟩ := hh.keeps
      have hrole' : (p.processAppendLogRequest req recent commitOk).part.role ≠ .leader := by
        rcases hrole with hrole | hrole
        · rw [hrole]; exact hqrole
        · rw [hrole]; simp
      exact ⟨ready_of_covered (hst'.trans (hqst.trans hst))
        (((h.covered hst).receives hq).handled hh), .of_not_leader (hterm ▸ hqterm) hrole'⟩

/-- **What a follower commits is complete.** -/
theorem Ready.since_processAppendLogRequest
    (ha : (p.processAppendLogRequest req recent commitOk).since = some a) :
    (p.processAppendLogRequest req recent commitOk).passed.map Prod.snd =
        List.range' (a + 1)
          ((p.processAppendLogRequest req recent commitOk).part.committedLogId - a) ∧
      ∀ e id, (e, id) ∈ (p.processAppendLogRequest req recent commitOk).passed →
        (p.processAppendLogRequest req recent commitOk).part.wal.get? id = some e := by
  have hrun : p.status = .running := by
    cases hst : p.status with
    | running => rfl
    | stopped =>
      rw [(processAppendLogRequest_of_idle (.inl hst) req recent commitOk).2] at ha; cases ha
    | starting =>
      rw [(processAppendLogRequest_of_idle (.inr hst) req recent commitOk).2] at ha; cases ha
    | waitingSnapshot =>
      rcases processAppendLogRequest_waiting hst req recent commitOk with ⟨-, heq⟩ | ⟨q, -, heq⟩
      · rw [heq] at ha; cases ha
      · rw [heq, (q.appendWaiting_cases req p.currentResponse).2.1] at ha
        cases ha
  have hsnap : req.sendingSnapshot = false := by
    cases hsnap : req.sendingSnapshot with
    | false => rfl
    | true =>
      rw [(processAppendLogRequest_snapshot hrun hsnap recent commitOk).1] at ha
      cases ha
  rcases processAppendLogRequest_cases hrun hsnap recent commitOk with
    ⟨-, -, h0, -⟩ | ⟨-, q, hq, hh⟩
  · rw [h0] at ha
    cases ha
  generalize p.processAppendLogRequest req recent commitOk = out at ha hh ⊢
  have hcov := (h.covered hrun).receives hq
  cases hh with
  | kept _ _ h0 | rolledBack _ _ _ _ _ h0 => rw [h0] at ha; cases ha
  | @appended p' resp _ hlast happ =>
    rw [← hlast] at happ
    have hsync : p'.syncLast.Covered := .syncLast (hcov.appendToWal happ)
    obtain ⟨rfl, hlt, hupTo, hwal, hpassed⟩ := followerCommit_since ha
    rw [hupTo, hwal, hpassed]
    refine ⟨hsync.map_snd_iterator hlt (min_le_left _ _), fun e id hmem => ?_⟩
    exact (mem_iterator hmem).2.2

theorem Ready.processAskForVoteRequest (hterm : p.term < vote.term ∨ vote.term ≤ p.voteTerm)
    (recent : Bool) : (p.processAskForVoteRequest vote recent).1.Ready ∧
      p.Steady (p.processAskForVoteRequest vote recent).1 := by
  rcases p.processAskForVoteRequest_cases vote recent with ⟨heq, hg⟩ | ⟨code, heq, -⟩
  · have hlt : p.term < vote.term := by
      have := hg.term
      omega
    have hfollow : ({ p.stepDown with role := .follower } : RaftPart).Ready := by
      obtain ⟨wal, hd, hwal⟩ := p.stepDown_eq
      rw [hd]
      rcases hwal with rfl | ⟨hrole, hlast, hr⟩
      · exact ⟨fun hl => (nomatch hl), fun hst => ⟨(h.covered hst).first, (h.covered hst).last⟩,
          h.waiting⟩
      have hst := h.leader hrole
      obtain ⟨hfirst, hlast'⟩ := (h.covered hst).rollbackToLog hr
      refine ready_of_covered hst ⟨hfirst, fun h0 => hlast' h0 fun h0' => ?_⟩
      rw [lastLogId_of_nil h0'] at hlast
      omega
    rw [heq]
    refine ⟨⟨fun hl => (nomatch hl), fun hst => ?_, hfollow.waiting⟩,
      .of_not_leader hlt.le (by simp [voteFor])⟩
    exact ⟨(hfollow.covered hst).first, (hfollow.covered hst).last⟩
  · rw [heq]
    exact ⟨h, Steady.refl p⟩

theorem Ready.processSendSnapshotRequest {req : SendSnapshotRequest}
    (hcov : req.done = false ∨ p.status ≠ .waitingSnapshot ∨
      p.wal.lastLogId ≤ req.committedLogId ∨ p.wal.firstLogId ≤ req.committedLogId + 1)
    (engineOk : Bool) :
    (p.processSendSnapshotRequest req engineOk).1.Ready ∧
      p.Steady (p.processSendSnapshotRequest req engineOk).1 := by
  -- what has begun to wait for a snapshot, before the rows are counted
  have hbegin : p.beginSnapshot.status = .waitingSnapshot ∧ p.beginSnapshot.role = p.role ∧
      p.beginSnapshot.term = p.term ∧ p.beginSnapshot.lastLogId = p.beginSnapshot.wal.lastLogId ∧
      (req.done = false ∨ p.beginSnapshot.wal.lastLogId ≤ req.committedLogId ∨
        p.beginSnapshot.wal.firstLogId ≤ req.committedLogId + 1) := by
    rcases p.beginSnapshot_cases with ⟨hst, heq⟩ | ⟨hst, heq⟩
    · rw [heq]
      refine ⟨hst, rfl, rfl, h.waiting hst, ?_⟩
      rcases hcov with hd | hne | hc
      · exact .inl hd
      · exact absurd hst hne
      · exact .inr hc
    · rw [heq]
      exact ⟨rfl, rfl, rfl, rfl, .inr (.inl (Nat.zero_le _))⟩
  obtain ⟨hst, hrole, hterm, hlast, hcov⟩ := hbegin
  rcases p.processSendSnapshotRequest_cases req engineOk with heq | ⟨hfollow, heq⟩
  · rw [heq]
    exact ⟨h, Steady.refl p⟩
  have hrole' : p.beginSnapshot.role ≠ .leader := by
    rw [hrole]
    rcases hfollow with hf | hf
    · rw [hf]; simp
    · rw [hf]; simp
  rcases heq with heq | ⟨hdone, heq⟩
  · rw [heq]
    exact ⟨ready_of_waiting hrole' hst hlast, .of_not_leader hterm.ge hrole'⟩
  rw [heq]
  refine ⟨ready_of_covered rfl ?_, .of_not_leader hterm.ge hrole'⟩
  rw [hdone] at hcov
  by_cases hle : p.beginSnapshot.wal.lastLogId ≤ req.committedLogId
  · -- the log is dropped, and the snapshot is all there is
    refine covered_of_nil (congrArg entries (if_pos hle)) ?_
    show (if p.beginSnapshot.lastLogId < req.committedLogId then req.committedLogId
      else p.beginSnapshot.lastLogId) ≤ req.committedLogId
    by_cases hlt : p.beginSnapshot.lastLogId < req.committedLogId
    · rw [if_pos hlt]
    · rw [if_neg hlt, hlast]
      exact hle
  · have hwal : ((p.beginSnapshot.receiveRows req engineOk).finishSnapshot req).wal =
        p.beginSnapshot.wal := if_neg hle
    refine ⟨fun _ => ?_, fun h0 => ?_⟩
    · rw [hwal]
      rcases hcov with hd | hc | hc
      · cases hd
      · exact absurd hc hle
      · exact hc
    · rw [hwal] at h0
      rw [lastLogId_of_nil h0] at hle
      omega

end

theorem ready_restart (addr : HostAddr) (peers : List HostAddr) (asLearner : Bool)
    {wal : Log LogMsg} (startTimeMs : ℕ)
    (hcov : wal.lastLogId < committed ∨ wal.firstLogId ≤ committed + 1) :
    (restart addr peers asLearner wal committed startTimeMs).Ready := by
  refine ready_of_covered rfl ?_
  by_cases hlt : wal.lastLogId < committed
  · exact covered_of_nil (congrArg entries (if_pos hlt)) (if_pos hlt).le
  have hwal : (restart addr peers asLearner wal committed startTimeMs).wal = wal := if_neg hlt
  refine ⟨fun _ => ?_, fun h0 => ?_⟩
  · rw [hwal]
    exact hcov.resolve_left hlt
  rw [hwal] at h0
  have hlast : (restart addr peers asLearner wal committed startTimeMs).lastLogId =
      wal.lastLogId := if_neg hlt
  rw [hlast, lastLogId_of_nil h0]
  exact Nat.zero_le _

section

variable (h : p.Ready)
include h

theorem Ready.cleanWAL (hk : k < p.wal.entries.length)
    (hcov : p.status ≠ .running ∨ p.wal.firstLogId + k ≤ p.committedLogId + 1) :
    ({ p with wal := p.wal.cleanWAL k } : RaftPart).Ready ∧
      p.Steady { p with wal := p.wal.cleanWAL k } := by
  have hne := entries_cleanWAL_ne_nil hk
  have hne' : p.wal.entries ≠ [] := by
    rw [← List.length_pos_iff]
    omega
  have hlast : (p.wal.cleanWAL k).lastLogId = p.wal.lastLogId := by
    rw [lastLogId_of_ne_nil hne, lastLogId_of_ne_nil hne', next_eq, next_eq,
      full_cleanWAL, cleanWAL_base]
  refine ⟨⟨h.leader, fun hst => ⟨fun _ => ?_, fun h0 => absurd h0 hne⟩, fun hst => ?_⟩,
    ⟨le_refl _, fun hrole _ => ⟨hrole, rfl, rfl, hlast, fun _ => hne⟩⟩⟩
  · rcases hcov with hst' | hcov
    · exact absurd hst hst'
    rw [firstLogId_of_ne_nil hne'] at hcov
    rw [firstLogId_of_ne_nil hne]
    simp only [Log.cleanWAL, List.length_append, List.length_take]
    omega
  · exact (h.waiting hst).trans hlast.symm

theorem Ready.demote {role : Role} (hrole : role ≠ .leader) (leader : HostAddr) (tasks : ℕ) :
    ({ p with role := role, leader := leader, transferTasks := tasks } : RaftPart).Ready ∧
      p.Steady { p with role := role, leader := leader, transferTasks := tasks } :=
  ⟨⟨fun hl => absurd hl hrole, fun hst => ⟨(h.covered hst).first, (h.covered hst).last⟩, h.waiting⟩,
    .of_not_leader (Nat.le_refl _) hrole⟩

theorem Ready.needToStartElection (timeout : Bool) :
    (p.needToStartElection timeout).1.Ready ∧ p.Steady (p.needToStartElection timeout).1 := by
  unfold RaftPart.needToStartElection
  split
  · exact h.demote (by simp) noHost p.transferTasks
  · exact ⟨h, Steady.refl p⟩

theorem Ready.prepareElectionRequest :
    p.prepareElectionRequest.1.Ready ∧ p.Steady p.prepareElectionRequest.1 := by
  unfold RaftPart.prepareElectionRequest
  split
  · exact ⟨h, Steady.refl p⟩
  · exact ⟨⟨h.leader, fun hst => ⟨(h.covered hst).first, (h.covered hst).last⟩, h.waiting⟩,
      ⟨le_refl _, fun hrole _ => ⟨hrole, rfl, rfl, rfl, id⟩⟩⟩

theorem Ready.processElectionResponses {proposedTerm : ℕ}
    (hterm : p.isElected numSucceeded = true → p.term < proposedTerm) :
    (p.processElectionResponses numSucceeded proposedTerm).Ready ∧
      p.Steady (p.processElectionResponses numSucceeded proposedTerm) := by
  unfold RaftPart.processElectionResponses
  split_ifs with helected
  · have hlt := hterm helected
    have hst : p.status = .running := by
      simp only [isElected, Bool.and_eq_true, beq_iff_eq] at helected
      exact helected.1.1
    refine ⟨ready_of_covered hst ⟨(h.covered hst).first, (h.covered hst).last⟩,
      ⟨hlt.le, fun _ heq => ?_⟩⟩
    simp only at heq
    omega
  · exact ⟨h, Steady.refl p⟩

theorem Ready.appendToWal {term : ℕ} (hlogs : logs ≠ [])
    (happ : p.appendToWal (p.lastLogId + 1) term logs = (p', true)) :
    p'.wal.entries ≠ [] ∧ (p.status = .running → p'.Ready) := by
  have hne : p'.wal.entries ≠ [] := by
    rcases appendToWal_cases happ with ⟨h0, -⟩ | ⟨-, h0, -⟩ | ⟨-, -, hne, -⟩
    · cases h0
    · exact absurd h0 hlogs
    · exact hne
  refine ⟨hne, fun hst => ?_⟩
  have hst' : p'.status = .running := by rw [appendToWal_eq happ]; exact hst
  exact ready_of_covered hst' ⟨(h.covered hst).appendToWal happ, fun h0 => absurd h0 hne⟩

end

end RaftPart
end K2Graph.Raft
