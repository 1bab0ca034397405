import K2Graph.Raft.Host
import K2Graph.Raft.PartSpec

/-!
# What a `Host` sends

Every request a `Host` sends is made by `prepareAppendLogRequest`, and its logs
are a piece of the leader's log: those right after `last_log_id_sent`.

## Main results

* `Host.Sends.entries_eq` — the logs of a request are a piece of the log.
* `Host.appendLogs_sends`, `Host.onResponse_sends` — every request is made by
  `prepareAppendLogRequest`.
-/

namespace K2Graph.Raft.Host

open List

variable {flags : Flags} {p : RaftPart} {h : Host} {req : AppendLogRequest}

theorem map_fst_iterator {wal : Log LogMsg} (hbase : wal.base = 1) (start last : ℕ) :
    (wal.iterator (start + 1) last).map Prod.fst <+: wal.full.drop start := by
  simp only [Log.iterator]
  generalize (if last ≤ wal.lastLogId then last else wal.lastLogId) = m
  split_ifs with hr
  · exact nil_prefix
  rw [zipIdx_map_fst]
  refine (List.take_prefix _ _).trans ?_
  by_cases hne : wal.entries = []
  · rw [hne, drop_nil]
    exact nil_prefix
  rw [Log.firstLogId_of_ne_nil hne] at hr
  have hle : wal.dropped.length ≤ start := by omega
  have hk : start + 1 - (wal.base + wal.dropped.length) = start - wal.dropped.length := by
    omega
  rw [hk, Log.full, drop_append, drop_of_length_le hle, nil_append]

theorem logsToSend_isPrefix (hbase : p.wal.base = 1) :
    logsToSend flags p h <+: p.wal.full.drop h.lastLogIdSent := by
  have hpre := map_fst_iterator hbase h.lastLogIdSent h.logIdToSend
  unfold logsToSend
  split
  · exact nil_prefix
  · rename_i e id es heq
    rw [heq] at hpre
    exact (List.take_prefix _ _).trans ((List.takeWhile_prefix _).trans hpre)

theorem term_of_mem_logsToSend {id : ℕ}
    (hit : p.wal.iterator (h.lastLogIdSent + 1) h.logIdToSend = (e, id) :: es)
    (he' : e' ∈ logsToSend flags p h) : e'.term = e.term := by
  unfold logsToSend at he'
  rw [hit] at he'
  have := all_eq_true.mp all_takeWhile e' (mem_of_mem_take he')
  simpa using this

section

variable (flags : Flags) (p : RaftPart)

/-- The request is made by `prepareAppendLogRequest`, from a state of the host
that it leaves behind. -/
def Sends (out : Outcome) (req : AppendLogRequest) : Prop :=
  ∃ h, req = (prepareAppendLogRequest flags p h).2 ∧
    out.host.lastLogIdSent = h.lastLogIdSent ∧ out.host.logIdToSend = h.logIdToSend ∧
    out.host.logTermToSend = h.logTermToSend ∧ out.host.committedLogId = h.committedLogId ∧
    out.host.requestOnGoing = true

theorem prepareAppendLogRequest_host (h : Host) :
    ∃ b, (prepareAppendLogRequest flags p h).1 = { h with sendingSnapshot := b } := by
  unfold prepareAppendLogRequest
  split
  · exact ⟨_, rfl⟩
  · split
    · exact ⟨_, rfl⟩
    · exact ⟨_, rfl⟩

theorem prepareAppendLogRequest_req (h : Host) :
    (prepareAppendLogRequest flags p h).2.currentTerm = h.logTermToSend ∧
      (prepareAppendLogRequest flags p h).2.lastLogIdSent = h.lastLogIdSent ∧
      (prepareAppendLogRequest flags p h).2.lastLogTermSent = h.lastLogTermSent ∧
      (prepareAppendLogRequest flags p h).2.committedLogId = h.committedLogId ∧
      (prepareAppendLogRequest flags p h).2.leader = p.addr := by
  unfold prepareAppendLogRequest
  split
  · exact ⟨rfl, rfl, rfl, rfl, rfl⟩
  · split
    · exact ⟨rfl, rfl, rfl, rfl, rfl⟩
    · exact ⟨rfl, rfl, rfl, rfl, rfl⟩

theorem entries_prepareAppendLogRequest (h : Host) :
    (prepareAppendLogRequest flags p h).2.entries = [] ∨
      (prepareAppendLogRequest flags p h).2.entries = logsToSend flags p h := by
  unfold prepareAppendLogRequest
  split
  · exact .inl rfl
  split
  · exact .inl rfl
  rename_i e id es hit
  right
  rw [AppendLogRequest.entries]
  simp only [map_map]
  conv_rhs => rw [← map_id (logsToSend flags p h)]
  refine map_congr_left fun e' he' => ?_
  simp [← term_of_mem_logsToSend hit he']

end

/-- **The logs of a request are a piece of the leader's log.** -/
theorem entries_eq_drop_take (hbase : p.wal.base = 1)
    (hreq : req = (prepareAppendLogRequest flags p h).2) :
    (p.wal.full.take (req.lastLogIdSent + req.logStrList.length)).drop req.lastLogIdSent =
      req.entries := by
  rw [← req.length_entries, drop_take, Nat.add_sub_cancel_left, hreq,
    (prepareAppendLogRequest_req flags p h).2.1]
  rcases entries_prepareAppendLogRequest flags p h with h0 | h0
  · rw [h0, length_nil, take_zero]
  · rw [h0]
    exact (prefix_iff_eq_take.mp (logsToSend_isPrefix hbase)).symm

/-! ### Every request is prepared -/

theorem send_sends (flags : Flags) (p : RaftPart) (h : Host) (fulfilled : List (Call × ErrorCode)) :
    Sends flags p (send flags p h fulfilled) (prepareAppendLogRequest flags p h).2 := by
  obtain ⟨b, hb⟩ := prepareAppendLogRequest_host flags p h
  refine ⟨h, rfl, ?_, ?_, ?_, ?_, rfl⟩
  · simp [send, hb]
  · simp [send, hb]
  · simp [send, hb]
  · simp [send, hb]

theorem sends_of_send (hreq : (send flags p h' fulfilled).request = some req) :
    Sends flags p (send flags p h' fulfilled) req := by
  have heq : (prepareAppendLogRequest flags p h').2 = req := Option.some.inj hreq
  rw [← heq]
  exact send_sends flags p h' fulfilled

theorem appendLogs_sends (hreq : (appendLogs flags p h c).request = some req) :
    Sends flags p (appendLogs flags p h c) req := by
  unfold appendLogs at hreq ⊢
  split
  · rename_i h1
    rw [if_pos h1] at hreq
    cases hreq
  rename_i h1
  rw [if_neg h1] at hreq
  split
  · rename_i h2
    rw [if_pos h2] at hreq
    split at hreq
    · cases hreq
    · cases hreq
  rename_i h2
  rw [if_neg h2] at hreq
  split
  · rename_i h3
    rw [if_pos h3] at hreq
    cases hreq
  · rename_i h3
    rw [if_neg h3] at hreq
    exact sends_of_send hreq

/-! ### What a host remembers -/

/-- The term and the committed log id of the last request, and of the request
that is pending. -/
inductive Remembers (h : Host) : ℕ → ℕ → Prop
  | sent : Remembers h h.logTermToSend h.committedLogId
  | pending : Remembers h h.pendingReq.1 h.pendingReq.2.2

variable {h' : Host} {t k : ℕ}

theorem Remembers.congr (ht : h'.Remembers t k) (hs : h'.logTermToSend = h.logTermToSend)
    (hc : h'.committedLogId = h.committedLogId) (hr : h'.pendingReq = h.pendingReq) :
    h.Remembers t k := by
  cases ht with
  | sent => rw [hs, hc]; exact .sent
  | pending => rw [hr]; exact .pending

/-- `h'` remembers only what `h` does, and cleared requests. -/
def Forgets (h h' : Host) : Prop :=
  ∀ ⦃t k⦄, h'.Remembers t k → (t = 0 ∧ k = 0) ∨ h.Remembers t k

theorem forgets_of_eq (hs : h'.logTermToSend = h.logTermToSend)
    (hc : h'.committedLogId = h.committedLogId) (hr : h'.pendingReq = h.pendingReq) :
    Forgets h h' :=
  fun _ _ ht => .inr (ht.congr hs hc hr)

theorem forgets_of_cleared (hs : h'.logTermToSend = h.logTermToSend)
    (hc : h'.committedLogId = h.committedLogId) (hr : h'.pendingReq = (0, 0, 0)) :
    Forgets h h' := by
  rintro t k (_ | _)
  · rw [hs, hc]; exact .inr .sent
  · rw [hr]; exact .inl ⟨rfl, rfl⟩

theorem remembers_send (ht : (send flags p h' fulfilled).host.Remembers t k) :
    h'.Remembers t k := by
  obtain ⟨b, hb⟩ := prepareAppendLogRequest_host flags p h'
  refine ht.congr ?_ ?_ ?_
  · simp [send, hb]
  · simp [send, hb]
  · simp [send, hb]

theorem appendLogs_remembers (ht : (appendLogs flags p h c).host.Remembers t k) :
    (t = 0 ∧ k = 0) ∨ h.Remembers t k ∨ t = c.term ∧ k = c.committedLogId := by
  revert ht
  generalize hout : appendLogs flags p h c = out
  intro ht
  unfold appendLogs at hout
  split at hout
  · subst hout; exact .inr (.inl ht)
  split at hout
  · split at hout
    · subst hout
      cases ht with
      | sent => exact .inr (.inl .sent)
      | pending => exact .inr (.inr ⟨rfl, rfl⟩)
    · subst hout; exact .inr (.inl ht)
  split at hout
  · subst hout; exact .inr (.inl ht)
  subst hout
  cases remembers_send ht with
  | sent => exact .inr (.inr ⟨rfl, rfl⟩)
  | pending => exact .inl ⟨rfl, rfl⟩

/-- **What an answer leaves of a host**: nothing is sent, or a request of a host
is sent, and that host remembers nothing new. -/
theorem onResponse_cases (flags : Flags) (p : RaftPart) (h : Host) (resp : AppendLogResponse) :
    (onResponse flags p h resp).request = none ∧
        Forgets h (onResponse flags p h resp).host ∨
      ∃ h' fulfilled, onResponse flags p h resp = send flags p h' fulfilled ∧ Forgets h h' := by
  unfold onResponse
  split
  · unfold onSucceeded
    split
    · exact .inl ⟨rfl, forgets_of_cleared rfl rfl rfl⟩
    split
    · exact .inl ⟨rfl, forgets_of_cleared rfl rfl rfl⟩
    split
    · exact .inr ⟨_, _, rfl, forgets_of_eq rfl rfl rfl⟩
    split
    · exact .inl ⟨rfl, forgets_of_eq rfl rfl rfl⟩
    -- the pending request is sent
    refine .inr ⟨_, _, rfl, ?_⟩
    rintro t k (_ | _)
    · exact .inr .pending
    · exact .inl ⟨rfl, rfl⟩
  · unfold onLogGap
    split
    · exact .inl ⟨rfl, forgets_of_cleared rfl rfl rfl⟩
    split
    · exact .inl ⟨rfl, forgets_of_cleared rfl rfl rfl⟩
    · exact .inr ⟨_, _, rfl, forgets_of_eq rfl rfl rfl⟩
  · unfold onWaitingSnapshot
    split
    · exact .inl ⟨rfl, forgets_of_cleared rfl rfl rfl⟩
    · exact .inr ⟨_, _, rfl, forgets_of_eq rfl rfl rfl⟩
  · unfold onLogStale
    split
    · exact .inl ⟨rfl, forgets_of_cleared rfl rfl rfl⟩
    split
    · exact .inl ⟨rfl, forgets_of_cleared rfl rfl rfl⟩
    · exact .inr ⟨_, _, rfl, forgets_of_eq rfl rfl rfl⟩
  · exact .inl ⟨rfl, forgets_of_cleared rfl rfl rfl⟩

theorem onResponse_sends (hreq : (onResponse flags p h resp).request = some req) :
    Sends flags p (onResponse flags p h resp) req := by
  obtain ⟨h0, -⟩ | ⟨h', fulfilled, h0, -⟩ := onResponse_cases flags p h resp
  · rw [h0] at hreq
    cases hreq
  · rw [h0] at hreq ⊢
    exact sends_of_send hreq

theorem onResponse_remembers (ht : (onResponse flags p h resp).host.Remembers t k) :
    (t = 0 ∧ k = 0) ∨ h.Remembers t k := by
  obtain ⟨-, h0⟩ | ⟨h', fulfilled, heq, h0⟩ := onResponse_cases flags p h resp
  · exact h0 ht
  · rw [heq] at ht
    exact h0 (remembers_send ht)

theorem onException_remembers (ht : h.onException.host.Remembers t k) :
    (t = 0 ∧ k = 0) ∨ h.Remembers t k :=
  have hf : Forgets h h.onException.host := forgets_of_cleared rfl rfl rfl
  hf ht

end K2Graph.Raft.Host
