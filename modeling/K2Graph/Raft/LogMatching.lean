import K2Graph.Raft.Election
import K2Graph.Raft.HostSpec
import K2Graph.Raft.WellFormed

/-!
# Log matching

Two logs that hold an entry of the same id and term should agree up to it.  The
code does not ensure this: a follower compares its last log with the pair
(`last_log_id_sent`, `last_log_term_sent`) of the request, and a `Host` moves the
two halves of that pair independently, so that the pair may describe no entry of
the leader's log, only one of the follower's.

When elections are safe and every pair that arrives describes an entry of the
sender's log, logs match.

## Main results

* `Group.logMatching_of_honestRequest` — with honest requests, logs match.
* `Group.not_logMatching_staleRun` — without them, a run has logs that do not.
-/

namespace K2Graph.Raft

open List TermLog RaftPart

namespace Group

variable {cfg : Config} {s s' : Group} {act : Action}

/-! ### The property and the conditions -/

/-- Logs that hold an entry of the same id and term hold the same entries up to
that id, as far as both still hold them. -/
def LogMatching (s : Group) : Prop :=
  ∀ a b id e f, (s.nodes a).part.wal.get? id = some e → (s.nodes b).part.wal.get? id = some f →
    e.term = f.term → ∀ j ≤ id, ∀ e' f', (s.nodes a).part.wal.get? j = some e' →
      (s.nodes b).part.wal.get? j = some f' → e' = f'

/-- No request that arrives asks the follower to wait for a snapshot. -/
def noSnapshot (s : Group) : Action → Bool
  | .recvAppendRequest i _ _ =>
      match s.net[i]? with
      | some (.appendReq _ _ _ req _) => !req.sendingSnapshot
      | _ => true
  | _ => true

/-- The pair describes an entry of the log, or no log at all. -/
def describes (cut : List (Entry LogMsg)) (id term : ℕ) : Bool :=
  decide (id = 0 ∧ term = 0) ||
    (decide (0 < id) && decide ((cut[id - 1]?).map Entry.term = some term))

/-- The pair of a request that arrives describes an entry of the log of the
sender. -/
def honestRequest (s : Group) : Action → Bool
  | .recvAppendRequest i _ _ =>
      match s.net[i]? with
      | some (.appendReq _ _ _ req cut) => describes cut req.lastLogIdSent req.lastLogTermSent
      | _ => true
  | _ => true

variable {req : AppendLogRequest} {dst a : HostAddr} {i : ℕ} {q : RaftPart}
  {cut : List (Entry LogMsg)}

theorem sendingSnapshot_eq_false (hmsg : s.net[i]? = some (.appendReq src dst rid req cut))
    (hok : s.noSnapshot (.recvAppendRequest i recent commitOk) = true) :
    req.sendingSnapshot = false := by
  simpa [noSnapshot, hmsg] using hok

theorem describes_of_honestRequest (hmsg : s.net[i]? = some (.appendReq src dst rid req cut))
    (hok : s.honestRequest (.recvAppendRequest i recent commitOk) = true) :
    describes cut req.lastLogIdSent req.lastLogTermSent = true := by
  simpa [honestRequest, hmsg] using hok

theorem describes_pos {id term : ℕ} (h : describes cut id term = true) (hpos : 0 < id) :
    ∃ e, cut[id - 1]? = some e ∧ e.term = term := by
  simp only [describes, Bool.or_eq_true, decide_eq_true_eq, Bool.and_eq_true] at h
  rcases h with h | ⟨-, h⟩
  · omega
  · exact Option.map_eq_some_iff.mp h

/-! ### The invariant -/

/-- The requests on the wire after a step carry logs built from those of the leaders
before it. -/
def Carries (s s' : Group) : Prop :=
  ∀ {src dst rid req cut}, .appendReq src dst rid req cut ∈ s'.net →
    Built Entry.term s.termLog cut ∧ cut.drop req.lastLogIdSent = req.entries

/-- The leader has written its log down in `termLog`, at first only what was
known to be its log when it was elected. -/
def LeaderLog (s : Group) (a : HostAddr) : Prop :=
  s.termLog (s.nodes a).part.term = (s.nodes a).part.log ∨
    s.termLog (s.nodes a).part.term = (s.nodes a).part.wal.full ∧
      (s.nodes a).part.wal.entries ≠ []

/-- A replication of the leader's own term is about its last log. -/
def ReplicatesLast (s : Group) (a : HostAddr) (r : Replication) : Prop :=
  s.termLog r.currTerm = (s.nodes a).part.wal.full ∧ (s.nodes a).part.wal.entries ≠ [] ∧
    r.lastLogId = (s.nodes a).part.wal.full.length ∧
    lastTerm Entry.term (s.nodes a).part.wal.full = r.currTerm

/-- Every log is built from the logs of the leaders. -/
structure LogInv (s : Group) : Prop where
  running : ∀ a, (s.nodes a).part.status = .running
  wf : ∀ a, (s.nodes a).part.WF
  built : ∀ a, Built Entry.term s.termLog (s.nodes a).part.wal.full
  leaderWon : ∀ a, (s.nodes a).part.role = .leader →
    ∃ w ∈ s.wins, w.leader = a ∧ w.term = (s.nodes a).part.term
  leaderLog : ∀ a, (s.nodes a).part.role = .leader → s.LeaderLog a
  won : ∀ t, s.termLog t ≠ [] → ∃ w ∈ s.wins, w.term = t
  request : ∀ {src dst rid req cut}, .appendReq src dst rid req cut ∈ s.net →
    Built Entry.term s.termLog cut ∧ cut.drop req.lastLogIdSent = req.entries
  replication : ∀ a r, (s.nodes a).replication = some r → r.currTerm ≤ (s.nodes a).part.term ∧
    ((s.nodes a).part.role = .leader → r.currTerm = (s.nodes a).part.term → s.ReplicatesLast a r)

theorem logInv_init (cfg : Config) : LogInv (init cfg) where
  running := fun _ => rfl
  wf := fun a => (wf_reset (start _ _ _)).congr rfl rfl rfl
  built := fun a => built_nil
  leaderWon := by intro a h; cases h
  leaderLog := by intro a h; cases h
  won := by intro t h; exact absurd rfl h
  request := by simp [init]
  replication := by simp [init, Node.init]

theorem LogInv.term_pos (h : LogInv s) (hel : ElectionInv cfg s) (hX : Built Entry.term s.termLog X)
    (he : X[i]? = some e) : 0 < e.term := by
  have hne : s.termLog e.term ≠ [] := by
    intro h0
    have hp := hX i e he
    rw [h0, prefix_nil, take_eq_nil_iff] at hp
    rcases hp with h1 | h1
    · omega
    · rw [h1] at he; cases he
  obtain ⟨w, hw, hterm⟩ := h.won _ hne
  rw [← hterm]
  exact (hel.win w hw).1

theorem LogInv.leader_unique (h : LogInv s) (hel : ElectionInv cfg s)
    (ha : (s.nodes a).part.role = .leader) (hb : (s.nodes b).part.role = .leader)
    (hterm : (s.nodes a).part.term = (s.nodes b).part.term) : a = b := by
  obtain ⟨w, hw, hwl, hwt⟩ := h.leaderWon a ha
  obtain ⟨w', hw', hwl', hwt'⟩ := h.leaderWon b hb
  have heq := hel.win_unique w hw w' hw' (by rw [hwt, hwt', hterm])
  rw [← hwl, ← hwl', heq]

/-! ### One partition -/

/-- What the invariant says of one partition, given the elections and the logs of the
leaders. -/
structure NodeInv (wins : List Win) (termLog : ℕ → List (Entry LogMsg)) (a : HostAddr) (n : Node) :
    Prop where
  running : n.part.status = .running
  wf : n.part.WF
  built : Built Entry.term termLog n.part.wal.full
  leaderWon : n.part.role = .leader → ∃ w ∈ wins, w.leader = a ∧ w.term = n.part.term
  leaderLog : n.part.role = .leader → termLog n.part.term = n.part.log ∨
    termLog n.part.term = n.part.wal.full ∧ n.part.wal.entries ≠ []
  replication : ∀ r, n.replication = some r → r.currTerm ≤ n.part.term ∧
    (n.part.role = .leader → r.currTerm = n.part.term →
      termLog r.currTerm = n.part.wal.full ∧ n.part.wal.entries ≠ [] ∧
        r.lastLogId = n.part.wal.full.length ∧ lastTerm Entry.term n.part.wal.full = r.currTerm)

theorem LogInv.node (h : LogInv s) (a : HostAddr) : NodeInv s.wins s.termLog a (s.nodes a) :=
  ⟨h.running a, h.wf a, h.built a, h.leaderWon a, h.leaderLog a, h.replication a⟩

variable {wins : List Win} {termLog : ℕ → List (Entry LogMsg)}

/-- The leaders have written more, but not in the term of this partition. -/
theorem NodeInv.mono (h : NodeInv wins termLog a n) (hwins : ∀ w ∈ wins, w ∈ wins')
    (hmono : ∀ t, termLog t <+: termLog' t)
    (hsame : n.part.role = .leader → termLog' n.part.term = termLog n.part.term) :
    NodeInv wins' termLog' a n where
  running := h.running
  wf := h.wf
  built := h.built.mono hmono
  leaderWon hrole := by
    obtain ⟨w, hw, hwon⟩ := h.leaderWon hrole
    exact ⟨w, hwins w hw, hwon⟩
  leaderLog hrole := by
    rw [hsame hrole]
    exact h.leaderLog hrole
  replication r hr := by
    obtain ⟨hle, hlast⟩ := h.replication r hr
    refine ⟨hle, fun hrole heq => ?_⟩
    rw [heq, hsame hrole, ← heq]
    exact hlast hrole heq

/-- The partition has another state, but not another log. -/
theorem NodeInv.congr (h : NodeInv wins termLog a n) (hstatus : n'.part.status = n.part.status)
    (hwal : n'.part.wal = n.part.wal) (hid : n'.part.lastLogId = n.part.lastLogId)
    (hlast : n'.part.lastLogTerm = n.part.lastLogTerm) (hterm : n'.part.term = n.part.term)
    (hrole : n'.part.role = .leader → n.part.role = .leader)
    (hrepl : ∀ r', n'.replication = some r' →
      ∃ r, n.replication = some r ∧ r'.currTerm = r.currTerm ∧ r'.lastLogId = r.lastLogId) :
    NodeInv wins termLog a n' where
  running := hstatus.trans h.running
  wf := h.wf.congr hwal hid hlast
  built := by
    rw [hwal]
    exact h.built
  leaderWon hleader := by
    rw [hterm]
    exact h.leaderWon (hrole hleader)
  leaderLog hleader := by
    rw [log, hterm, hwal, hid]
    exact h.leaderLog (hrole hleader)
  replication r' hr' := by
    obtain ⟨r, hr, hcurr, hrid⟩ := hrepl r' hr'
    obtain ⟨hle, hwritten⟩ := h.replication r hr
    rw [hterm, hwal, hcurr, hrid]
    exact ⟨hle, fun hleader => hwritten (hrole hleader)⟩

section

variable (h : LogInv s)
include h

/-- **A step that changes one partition** keeps the invariant if that partition does and the
leaders of the others have written no more. -/
theorem LogInv.setNode (hnodes : s'.nodes = (s.setNode a n).nodes)
    (hn : NodeInv s'.wins s'.termLog a n) (hwins : ∀ w ∈ s.wins, w ∈ s'.wins)
    (hmono : ∀ t, s.termLog t <+: s'.termLog t)
    (hsame : ∀ b, b ≠ a → (s.nodes b).part.role = .leader →
      s'.termLog (s.nodes b).part.term = s.termLog (s.nodes b).part.term)
    (hwon : ∀ t, s'.termLog t ≠ [] → ∃ w ∈ s'.wins, w.term = t) (hreq : Carries s s') :
    LogInv s' := by
  have hnode (b : HostAddr) : NodeInv s'.wins s'.termLog b (s'.nodes b) := by
    rw [hnodes, setNode_nodes]
    split_ifs with hb
    · rw [hb]
      exact hn
    · exact (h.node b).mono hwins hmono (hsame b hb)
  refine ⟨fun b => (hnode b).running, fun b => (hnode b).wf, fun b => (hnode b).built,
    fun b => (hnode b).leaderWon, fun b => (hnode b).leaderLog, hwon, ?_,
    fun b => (hnode b).replication⟩
  intro src dst rid req cut hm
  obtain ⟨hbuilt, hdrop⟩ := hreq hm
  exact ⟨hbuilt.mono hmono, hdrop⟩

theorem LogInv.update (hnodes : s'.nodes = (s.setNode a n).nodes)
    (hn : NodeInv s.wins s.termLog a n) (hreq : Carries s s') (htl : s'.termLog = s.termLog)
    (hwins : s'.wins = s.wins) : LogInv s' := by
  refine h.setNode hnodes ?_ ?_ ?_ ?_ ?_ hreq
  · rw [hwins, htl]
    exact hn
  · rw [hwins]
    exact fun w hw => hw
  · rw [htl]
    exact fun t => prefix_refl _
  · rw [htl]
    exact fun b _ _ => rfl
  · rw [htl, hwins]
    exact h.won

theorem LogInv.of_net (hnodes : s'.nodes = s.nodes) (hreq : Carries s s')
    (htl : s'.termLog = s.termLog) (hwins : s'.wins = s.wins) : LogInv s' := by
  refine h.update (a := (0, 0)) ?_ (h.node (0, 0)) hreq htl hwins
  rw [hnodes]
  funext b
  rw [setNode_nodes]
  split
  · rename_i hb; rw [hb]
  · rfl

/-! ### Steps that change a log -/

/-- A partition that is not leader after a step.  Its log must still be built from theirs. -/
theorem LogInv.nonleader (hstatus : n.part.status = .running) (hwf : n.part.WF)
    (hbuilt : Built Entry.term s.termLog n.part.wal.full)
    (hterm : (s.nodes a).part.term ≤ n.part.term) (hrole : n.part.role ≠ .leader)
    (hrepl : n.replication = (s.nodes a).replication) : NodeInv s.wins s.termLog a n := by
  refine ⟨hstatus, hwf, hbuilt, fun hc => absurd hc hrole, fun hc => absurd hc hrole,
    fun r hr => ?_⟩
  rw [hrepl] at hr
  exact ⟨(h.replication a r hr).1.trans hterm, fun hc => absurd hc hrole⟩

theorem LogInv.grant {req : AskForVoteRequest} (hpart : n.part = (s.nodes dst).part.voteFor req)
    (hterm : (s.nodes dst).part.term ≤ req.term)
    (hrepl : n.replication = (s.nodes dst).replication) : NodeInv s.wins s.termLog dst n := by
  obtain ⟨hwf, -, hfull⟩ := (h.wf dst).voteFor req
  obtain ⟨wal, heq, -⟩ := (s.nodes dst).part.stepDown_eq
  refine h.nonleader ?_ (hpart ▸ hwf) ?_ ?_ ?_ hrepl
  · rw [hpart]
    simp only [voteFor, heq]
    exact h.running dst
  · rw [hpart]
    rcases hfull with h0 | h0
    · rw [h0]; exact h.built dst
    · rw [h0]; exact (h.built dst).take _
  · rw [hpart]; exact hterm
  · rw [hpart]; simp [voteFor]

theorem LogInv.termLog_fresh (hfresh : ∀ w ∈ s.wins, w.term ≠ t) : s.termLog t = [] := by
  by_contra hne
  obtain ⟨w, hw, hwt⟩ := h.won _ hne
  exact hfresh w hw hwt

end

theorem isPrefix_write (h : termLog u <+: X) : termLog t <+: if t = u then X else termLog t := by
  split
  · rename_i ht; rw [ht]; exact h
  · exact prefix_refl _

section

variable (h : LogInv s)
include h

theorem LogInv.elected {req : AskForVoteRequest}
    (hpart : n.part = { (s.nodes a).part with term := req.term, role := .leader })
    (hrepl : n.replication = (s.nodes a).replication) (hlt : (s.nodes a).part.term < req.term)
    (hfresh : ∀ w ∈ s.wins, w.term ≠ req.term) :
    LogInv { s.setNode a n with
      wins := ⟨a, req, (s.nodes a).part.log⟩ :: s.wins
      termLog := fun t => if t = req.term then (s.nodes a).part.log else s.termLog t } := by
  have hmono : ∀ t, s.termLog t <+: if t = req.term then (s.nodes a).part.log else s.termLog t :=
    fun t => isPrefix_write (h.termLog_fresh hfresh ▸ nil_prefix)
  have hold : ∀ w ∈ s.wins, w ∈ ⟨a, req, (s.nodes a).part.log⟩ :: s.wins :=
    fun w hw => mem_cons_of_mem _ hw
  refine h.setNode rfl ⟨?_, ?_, ?_, fun _ => ?_, fun _ => .inl ?_, fun r hr => ?_⟩ hold hmono
    ?_ ?_ h.request
  · rw [hpart]; exact h.running a
  · rw [hpart]; exact (h.wf a).congr rfl rfl rfl
  · rw [hpart]; exact (h.built a).mono hmono
  · rw [hpart]
    exact ⟨_, mem_cons_self, rfl, rfl⟩
  · rw [hpart]
    simp only [if_true]
    rfl
  · -- a replication that is under way is of an older term
    rw [hrepl] at hr
    have hle := (h.replication a r hr).1
    rw [hpart]
    refine ⟨by simp only; omega, fun _ heq => ?_⟩
    simp only at heq
    omega
  · intro b _ hrole
    obtain ⟨w, hw, -, hwt⟩ := h.leaderWon b hrole
    exact if_neg (hwt ▸ hfresh w hw)
  · intro t ht
    by_cases heq : t = req.term
    · exact ⟨⟨a, req, (s.nodes a).part.log⟩, mem_cons_self, heq.symm⟩
    · simp only [heq] at ht
      obtain ⟨w, hw, hwt⟩ := h.won t ht
      exact ⟨w, hold w hw, hwt⟩

/-- What a leader that can write has written down before is what it knows to be
its log. -/
theorem LogInv.termLog_eq_log (hrole : (s.nodes a).part.role = .leader)
    (happ : (s.nodes a).part.appendToWal ((s.nodes a).part.lastLogId + 1) (s.nodes a).part.term
      logs = (p', true))
    (hlogs : logs ≠ []) : s.termLog (s.nodes a).part.term = (s.nodes a).part.log := by
  rcases h.leaderLog a hrole with h0 | ⟨h0, hent⟩
  · exact h0
  rw [h0, log, take_of_length_le]
  rcases appendToWal_cases happ with ⟨h1, -⟩ | ⟨-, h1, -⟩ | ⟨-, -, -, -, -, hcase⟩
  · cases h1
  · exact absurd h1 hlogs
  rcases hcase with ⟨hnext, -⟩ | ⟨hnil, -⟩
  · rw [Log.next_eq, (h.wf a).base] at hnext
    omega
  · exact absurd hnil hent

theorem LogInv.appended (hel : ElectionInv cfg s) {a : HostAddr} {p' : RaftPart} {n : Node}
    {r : Replication} (hlogs : logs ≠ []) (hrole : (s.nodes a).part.role = .leader)
    (happ : (s.nodes a).part.appendToWal ((s.nodes a).part.lastLogId + 1) (s.nodes a).part.term
      logs = (p', true))
    (hpart : n.part = p') (hrepl : n.replication = some r)
    (hterm : r.currTerm = (s.nodes a).part.term) (hid : r.lastLogId = p'.wal.lastLogId) :
    LogInv { s.setNode a n with
      termLog := fun t =>
        if t = (s.nodes a).part.term then p'.wal.full else s.termLog t } := by
  have hwf := h.wf a
  have halike := appendToWal_alike happ
  have heq := appendToWal_eq happ
  obtain ⟨hbase, hne, hfull, hlt⟩ := hwf.appendToWal happ hlogs
  obtain ⟨hwf', hlog'⟩ := hwf.leader_append happ hlogs
  have hold := h.termLog_eq_log hrole happ hlogs
  have hmono : ∀ t, s.termLog t <+:
      if t = (s.nodes a).part.term then p'.wal.full else s.termLog t :=
    fun t => isPrefix_write (by rw [hold, hfull]; exact prefix_append _ _)
  have hlast : p'.wal.lastLogId = p'.wal.full.length := hwf'.lastLogId_wal hne
  refine h.setNode rfl ⟨?_, ?_, ?_, fun _ => ?_, fun _ => .inr ?_, fun r' hr' => ?_⟩
    (fun w hw => hw) hmono (fun b hb hrole' => ?_) ?_ h.request
  · rw [hpart, heq]; exact h.running a
  · rw [hpart]; exact hwf'
  · rw [hpart]
    nth_rewrite 2 [hfull]
    refine (((h.built a).mono hmono).take _).append (t := (s.nodes a).part.term) ?_ ?_
    · intro e he
      obtain ⟨l, -, rfl⟩ := mem_map.mp he
      rfl
    · simp only [if_true]
      rw [hfull]
  · rw [hpart, halike.term]; exact h.leaderWon a hrole
  · rw [hpart, halike.term]
    exact ⟨if_pos rfl, hne⟩
  · rw [hrepl, Option.some.injEq] at hr'
    subst hr'
    rw [hpart, halike.term, hterm, hid]
    refine ⟨le_refl _, fun _ _ => ⟨if_pos rfl, hne, hlast, ?_⟩⟩
    rw [hfull, lastTerm_append_map hlogs]
  · -- the other leaders are of other terms
    exact if_neg fun ht => hb (h.leader_unique hel hrole' hrole ht)
  · intro t ht
    by_cases heq' : t = (s.nodes a).part.term
    · obtain ⟨w, hw, -, hwt⟩ := h.leaderWon a hrole
      exact ⟨w, hw, hwt.trans heq'.symm⟩
    · simp only [heq'] at ht
      exact h.won t ht

theorem LogInv.receives (hq : (s.nodes a).part.Receives req q) :
    q.WF ∧ Built Entry.term s.termLog q.wal.full ∧ q.status = .running ∧ q.role ≠ .leader ∧
      q.term = req.currentTerm ∧ (s.nodes a).part.term ≤ q.term := by
  obtain ⟨q₀, hfol, hcase⟩ := hq
  obtain ⟨hwf, -, hfull⟩ := (h.wf a).follows hfol
  obtain ⟨wal, role, leader, heq, -, hle, hrole, -⟩ := hfol.eq
  have hst : q₀.status = .running := by rw [heq]; exact h.running a
  have hro : q₀.role ≠ .leader := by rw [heq]; exact hrole
  have hte : q₀.term = req.currentTerm := by rw [heq]
  rcases hcase with rfl | ⟨rfl, -⟩
  · refine ⟨hwf, ?_, hst, hro, hte, by omega⟩
    rcases hfull with h0 | h0
    · rw [h0]; exact h.built a
    · rw [h0]; exact (h.built a).take _
  · exact ⟨wf_reset q₀, built_nil, hst, hro, hte, by change _ ≤ q₀.term; omega⟩

/-- **A follower that accepts an honest request has the log of its sender.** -/
theorem LogInv.log_eq_take (hel : ElectionInv cfg s) (hwf : q.WF)
    (hbuilt : Built Entry.term s.termLog q.wal.full) (hcut : Built Entry.term s.termLog cut)
    (hd : describes cut req.lastLogIdSent req.lastLogTermSent = true)
    (hdiff : q.termsDiffer req = false) (hid : q.lastLogId = req.lastLogIdSent) :
    q.log = cut.take req.lastLogIdSent := by
  rcases Nat.eq_zero_or_pos req.lastLogIdSent with h0 | hpos
  · rw [log, hid, h0, take_zero, take_zero]
  obtain ⟨e, he, hterm⟩ := hwf.exists_last (by omega)
  obtain ⟨f, hf, hterm'⟩ := describes_pos hd hpos
  have hlog : Built Entry.term s.termLog q.log := hbuilt.take _
  have hepos : 0 < e.term := h.term_pos hel hlog he
  have hsame : req.lastLogTermSent = q.lastLogTerm := by
    simp only [termsDiffer, Bool.and_eq_false_iff, decide_eq_false_iff_not] at hdiff
    omega
  rw [hid] at he
  have := hlog.take_eq_take hcut he hf (by rw [hterm, hterm', hsame])
  rw [Nat.sub_add_cancel hpos] at this
  rw [← this, take_of_length_le (by rw [hwf.length_log, hid])]

/-- The log of a partition that has handled an honest request. -/
theorem LogInv.handled (hel : ElectionInv cfg s) (hwf : q.WF)
    (hbuilt : Built Entry.term s.termLog q.wal.full) (hst : q.status = .running)
    (hro : q.role ≠ .leader) (hcut : Built Entry.term s.termLog cut)
    (hdrop : cut.drop req.lastLogIdSent = req.entries)
    (hd : describes cut req.lastLogIdSent req.lastLogTermSent = true)
    (hout : Handled q req commitOk out) :
    out.part.WF ∧ Built Entry.term s.termLog out.part.wal.full ∧ out.part.status = .running ∧
      out.part.role ≠ .leader ∧ out.part.term = q.term := by
  cases hout with
  | kept hpart _ _ _ => rw [hpart]; exact ⟨hwf, hbuilt, hst, hro, rfl⟩
  | @rolledBack _ wal _ _ hwal hpart _ _ _ =>
    obtain ⟨hwf', -, hfull⟩ := hwf.rollbackToCommitted hwal
    rw [hpart]
    refine ⟨hwf', ?_, hst, hro, rfl⟩
    simp only [syncLast]
    rcases hfull with h0 | h0
    · rw [h0]; exact hbuilt.take _
    · rw [h0]; exact hbuilt
  | @appended p' resp hdiff hid happ hlast _ _ =>
    obtain ⟨hwf', hlog', hfull'⟩ := hwf.log_syncLast_append hid happ hlast
    have heq := appendToWal_eq happ
    have hb' : Built Entry.term s.termLog p'.wal.full := by
      rcases hfull' with h0 | ⟨h0, -⟩
      · rw [h0, h.log_eq_take hel hwf hbuilt hcut hd hdiff hid, ← hdrop, take_append_drop]
        exact hcut
      · rw [h0]; exact hbuilt
    have hst' : p'.status = .running := by rw [heq]; exact hst
    have hro' : p'.role ≠ .leader := by rw [heq]; exact hro
    have hte' : p'.term = q.term := by rw [heq]
    obtain ⟨-, -, hcase⟩ := p'.syncLast.followerCommit_cases req resp commitOk
    rcases hcase with ⟨hpart, -⟩ | ⟨-, -, hpart | ⟨role, leader, hpart, hrole⟩⟩
    · rw [hpart]; exact ⟨hwf', hb', hst', hro', hte'⟩
    · rw [hpart]; exact ⟨hwf', hb', hst', hro', hte'⟩
    rw [hpart]
    refine ⟨hwf'.congr rfl rfl rfl, hb', hst', ?_, hte'⟩
    rcases hrole with h0 | h0
    · simp only [h0]; exact hro'
    · simp [h0]

theorem LogInv.committed {role : Role} {leader : HostAddr} {committed : ℕ}
    (hr : (s.nodes a).replication = some r) (hrole : (s.nodes a).part.role = .leader)
    (hterm : r.currTerm = (s.nodes a).part.term)
    (hpart : n.part = { (s.nodes a).part with
      lastLogId := r.lastLogId, lastLogTerm := r.currTerm, role := role, leader := leader,
      committedLogId := committed })
    (hrepl : n.replication = none ∨ n.replication = (s.nodes a).replication) :
    NodeInv s.wins s.termLog a n := by
  obtain ⟨hlog, hne, hid, hlast⟩ := (h.replication a r hr).2 hrole hterm
  have hwf := h.wf a
  have hfull : n.part.log = (s.nodes a).part.wal.full := by
    rw [log, hpart]
    simp [hid]
  refine ⟨?_, ⟨?_, ?_, ?_, fun _ => ?_, ?_⟩, ?_, fun _ => ?_, fun _ => .inl ?_, fun r' hr' => ?_⟩
  · rw [hpart]; exact h.running a
  · rw [hpart]; exact hwf.base
  · rw [hpart]; simp only [hid, le_refl]
  · rw [hpart]; exact fun h0 => absurd h0 hne
  · rw [hfull, hlast, hpart]
  · rw [hpart]; exact hwf.walTerm
  · rw [hpart]; exact h.built a
  · rw [hpart]; exact h.leaderWon a hrole
  · rw [hfull, hpart, ← hlog, ← hterm]
  rcases hrepl with h0 | h0
  · rw [h0] at hr'; cases hr'
  rw [h0] at hr'
  obtain ⟨hle, hl⟩ := h.replication a r' hr'
  rw [hpart]
  exact ⟨hle, fun _ ht => hl hrole ht⟩

theorem LogInv.cleaned (hk : k < (s.nodes a).part.wal.entries.length)
    (hpart : n.part = { (s.nodes a).part with wal := (s.nodes a).part.wal.cleanWAL k })
    (hrepl : n.replication = (s.nodes a).replication) : NodeInv s.wins s.termLog a n := by
  have hwf := h.wf a
  have hne : (s.nodes a).part.wal.entries ≠ [] := ne_nil_of_length_pos (by omega)
  have hne' := Log.entries_cleanWAL_ne_nil hk
  have hfull : n.part.wal.full = (s.nodes a).part.wal.full := by
    rw [hpart]; exact Log.full_cleanWAL _ k
  have hlog : n.part.log = (s.nodes a).part.log := by
    rw [log, hfull, hpart, log]
  have hent : n.part.wal.entries ≠ [] := by rw [hpart]; exact hne'
  refine ⟨?_, ⟨?_, ?_, ?_, ?_, ?_⟩, ?_, fun hrole => ?_, fun hrole => ?_, fun r hr => ?_⟩
  · rw [hpart]; exact h.running a
  · rw [hpart]; exact hwf.base
  · rw [hfull, hpart]; exact hwf.le
  · exact fun h0 => absurd h0 hent
  · rw [hlog, hpart]; exact hwf.lastTerm
  · rw [hfull, hpart]; exact fun _ => hwf.walTerm hne
  · rw [hfull]; exact h.built a
  · rw [hpart] at hrole ⊢; exact h.leaderWon a hrole
  · have hterm : n.part.term = (s.nodes a).part.term := by rw [hpart]
    rw [hpart] at hrole
    rw [hlog, hfull, hterm]
    exact (h.leaderLog a hrole).imp_right fun h0 => ⟨h0.1, hent⟩
  rw [hrepl] at hr
  obtain ⟨hle, hl⟩ := h.replication a r hr
  rw [hfull]
  refine ⟨by rw [hpart]; exact hle, fun hrole ht => ?_⟩
  rw [hpart] at hrole ht
  obtain ⟨h1, -, h3, h4⟩ := hl hrole ht
  exact ⟨h1, hent, h3, h4⟩

end

def matchingOk (s : Group) (act : Action) : Bool :=
  s.freshElection act && s.noSnapshot act && s.honestRequest act

theorem HostStep.sends (hs : HostStep cfg s a peer act calls' net' out)
    (hreq : out.request = some req) : Host.Sends cfg.flags (s.nodes a).part out req := by
  cases hs with
  | call _ => exact Host.appendLogs_sends hreq
  | response _ _ _ => exact Host.onResponse_sends hreq
  | exception _ => cases hreq

theorem LogInv.carries (h : LogInv s) (he : Effect cfg s act s') : Carries s s' := by
  intro src dst rid req cut hm
  rcases he.appendReq_cases hm with hm | ⟨calls', net', out, hs, hreq, rfl⟩
  · exact h.request hm
  · obtain ⟨host, hprep, -⟩ := HostStep.sends hs hreq
    exact ⟨(h.built src).take _, Host.entries_eq_drop_take (h.wf src).base hprep⟩

theorem LogInv.termLog_mono (h : LogInv s) (hfix : Fixed cfg s) (hel : ElectionInv cfg s)
    (hnd : cfg.members.Nodup) (hfresh : s.freshElection act = true) (he : Effect cfg s act s')
    (t : ℕ) : s.termLog t <+: s'.termLog t := by
  cases he with
  | win ha hasking hwon =>
    obtain ⟨hlt, -⟩ := lt_of_freshElection hasking hwon hfresh
    exact isPrefix_write
      (h.termLog_fresh (hel.win_fresh hfix hnd ha hasking hwon hlt) ▸ nil_prefix)
  | append _ hlogs hrole happ =>
    obtain ⟨-, -, hfull, -⟩ := (h.wf _).appendToWal happ hlogs
    refine isPrefix_write ?_
    rw [h.termLog_eq_log hrole happ hlogs, hfull]
    exact prefix_append _ _
  | _ => exact prefix_refl _

/-- **Every step that meets the conditions keeps the invariant.** -/
theorem LogInv.effect (h : LogInv s) (hfix : Fixed cfg s) (hel : ElectionInv cfg s)
    (hnd : cfg.members.Nodup) (hok : s.matchingOk act = true) (he : Effect cfg s act s') :
    LogInv s' := by
  simp only [matchingOk, Bool.and_eq_true] at hok
  obtain ⟨⟨hfresh, hsnap⟩, hhon⟩ := hok
  have hreq : Carries s s' := h.carries he
  cases he with
  | stir hst =>
    obtain ⟨role, leader, tasks, hpart, hrole⟩ := hst.part
    refine h.update rfl ((h.node _).congr ?_ ?_ ?_ ?_ ?_ ?_ ?_) hreq rfl rfl
    · rw [hpart]
    · rw [hpart]
    · rw [hpart]
    · rw [hpart]
    · rw [hpart]
    · rw [hpart]; exact hrole
    · rw [hst.replication]; exact fun r hr => ⟨r, hr, rfl, rfl⟩
  | drop _ => exact h.of_net rfl hreq rfl rfl
  | prepare _ _ | collect _ _ _ _ _ =>
    exact h.update rfl ((h.node _).congr rfl rfl rfl rfl rfl id fun r hr => ⟨r, hr, rfl, rfl⟩) hreq
      rfl rfl
  | vote _ hg => exact h.update rfl (h.grant rfl (hel.lt_of_grants hg).le rfl) hreq rfl rfl
  | win ha hasking hwon =>
    obtain ⟨hlt, -⟩ := lt_of_freshElection hasking hwon hfresh
    exact h.elected rfl rfl hlt (hel.win_fresh hfix hnd ha hasking hwon hlt)
  | append _ hlogs hrole happ =>
    exact h.appended hel hlogs hrole happ rfl rfl rfl rfl
  | replicate hr _ =>
    refine h.update rfl ((h.node _).congr rfl rfl rfl rfl rfl id fun r' hr' => ?_) hreq rfl
      rfl
    rw [Option.some.injEq] at hr'
    subst hr'
    exact ⟨_, hr, rfl, rfl⟩
  | settle hr hr' =>
    refine h.update rfl ((h.node _).congr rfl rfl rfl rfl rfl id fun r₁ hr₁ => ?_) hreq rfl
      rfl
    rcases hr' with h0 | h0
    · rw [h0] at hr₁; cases hr₁
    · rw [h0, Option.some.injEq] at hr₁
      subst hr₁
      exact ⟨_, hr, rfl, rfl⟩
  | @host _ a peer calls' net' out hs =>
    refine h.update (hostOutcome_nodes s a calls' net' peer out)
      ((h.node _).congr rfl rfl rfl rfl rfl id fun r' hr' => ?_) hreq rfl rfl
    obtain ⟨r, hr, rfl⟩ := Option.map_eq_some_iff.mp hr'
    exact ⟨r, hr, rfl, rfl⟩
  | @receive i rid recent commitOk src dst req cut out hmsg hout =>
    obtain ⟨hcut, hdrop⟩ := h.request (mem_of_getElem? hmsg)
    rcases processAppendLogRequest_cases (h.running dst)
      (sendingSnapshot_eq_false hmsg hsnap) recent commitOk with ⟨hpart, -⟩ | ⟨-, q, hq, hhand⟩
    · rw [← hout] at hpart
      refine h.update rfl ((h.node _).congr ?_ ?_ ?_ ?_ ?_ ?_ fun r hr => ⟨r, hr, rfl, rfl⟩) hreq
        rfl rfl
      all_goals simp only [hpart]
      exact id
    · rw [← hout] at hhand
      obtain ⟨hwf, hbuilt, hst, hro, hte, hle⟩ := h.receives hq
      obtain ⟨hwf', hbuilt', hst', hro', hte'⟩ := h.handled hel hwf hbuilt hst hro hcut hdrop
        (describes_of_honestRequest hmsg hhon) hhand
      exact h.update rfl (h.nonleader hst' hwf' hbuilt' (by simp only [hte']; exact hle) hro' rfl)
        hreq rfl rfl
  | commit _ hr _ _ hrole hterm hpart _ _ _ _ hrepl =>
    obtain ⟨role, leader, committed, hpart, -⟩ := hpart
    exact h.update rfl (h.committed hr hrole hterm hpart (hrepl.imp id fun h0 => h0.1)) hreq rfl rfl
  | clean hk => exact h.update rfl (h.cleaned hk rfl rfl) hreq rfl rfl

theorem freshElection_of_matchingOk (h : s.matchingOk act = true) : s.freshElection act = true := by
  simp only [matchingOk, Bool.and_eq_true] at h
  exact h.1.1

theorem LogInv.forget (h : LogInv s) : LogInv { s with acked := [] } :=
  h.of_net rfl h.request rfl rfl

theorem logInv_of_reach (hnd : cfg.members.Nodup)
    (hok : ∀ s act, ok s act → s.matchingOk act = true) (h : Reach (step cfg) ok (init cfg) s) :
    LogInv s := by
  induction h with
  | refl => exact logInv_init cfg
  | @tail t u act hr hstep hs ih =>
    obtain ⟨hfix, hel⟩ :=
      electionInv_of_reach hnd (fun s act h => freshElection_of_matchingOk (hok s act h)) hr
    have hcond : matchingOk { t with acked := [] } act = true := hok t act hstep
    exact ih.forget.effect hfix.forget hel.forget hnd hcond (step_effect hs)

theorem LogInv.logMatching (h : LogInv s) : s.LogMatching := by
  intro a b id e f he hf hterm j hj e' f' he' hf'
  obtain ⟨hid, he⟩ := Log.getElem?_full_of_get? he
  obtain ⟨-, hf⟩ := Log.getElem?_full_of_get? hf
  obtain ⟨hjb, he'⟩ := Log.getElem?_full_of_get? he'
  obtain ⟨-, hf'⟩ := Log.getElem?_full_of_get? hf'
  rw [(h.wf a).base] at he he' hid hjb
  rw [(h.wf b).base] at hf hf'
  have htake := (h.built a).take_eq_take (h.built b) he hf hterm
  have hlt : j - 1 < id - 1 + 1 := by omega
  have h1 : ((s.nodes a).part.wal.full.take (id - 1 + 1))[j - 1]? = some e' := by
    rw [getElem?_take_of_lt hlt]; exact he'
  have h2 : ((s.nodes b).part.wal.full.take (id - 1 + 1))[j - 1]? = some f' := by
    rw [getElem?_take_of_lt hlt]; exact hf'
  rw [htake, h2] at h1
  exact (Option.some.inj h1).symm

/-- **Log matching with honest requests.**  In every run without a snapshot in
which leaders are elected to fresh terms and every append request that arrives
describes an entry of its sender's log, logs match. -/
theorem logMatching_of_honestRequest (cfg : Config) (hnd : cfg.members.Nodup) {s : Group}
    (h : Reach (step cfg) (fun s act => s.matchingOk act = true) (init cfg) s) :
    s.LogMatching :=
  (logInv_of_reach hnd (fun _ _ hok => hok) h).logMatching

/-- The first partition becomes leader of term 1 and writes two logs, of which the
third partition gets only one.  The second becomes leader of term 2, writes a
third log and brings the third partition up to date. -/
def catchUpRun : List Action :=
  [.startElection (1, 1) false, .prepareElection (1, 1) 0, .recvVoteRequest 0 false,
   .recvVoteResponse 1, .processElection (1, 1) 0, .announceLeader (1, 1) 0,
   .appendLogs (1, 1) [(0, .data [1])], .replicateLogs (1, 1), .hostAppendLogs (1, 1) 0,
   .hostAppendLogs (1, 1) 0, .recvAppendRequest 1 false true, .recvAppendRequest 1 false true,
   .recvAppendResponse 1, .recvAppendResponse 1, .processAppendLogResponses (1, 1) true,
   .appendLogs (1, 1) [(0, .data [2])], .replicateLogs (1, 1), .hostAppendLogs (1, 1) 0,
   .recvAppendRequest 1 false true, .recvAppendResponse 1,
   .processAppendLogResponses (1, 1) true,
   .startElection (2, 2) true, .prepareElection (2, 2) 0, .recvVoteRequest 2 false,
   .recvVoteResponse 2, .processElection (2, 2) 0, .announceLeader (2, 2) 0,
   .appendLogs (2, 2) [(0, .data [3])], .replicateLogs (2, 2), .hostAppendLogs (2, 2) 1,
   .recvAppendRequest 2 false true, .recvAppendResponse 2, .recvAppendRequest 2 false true,
   .recvAppendResponse 2, .recvAppendRequest 2 false true, .recvAppendResponse 2,
   .processAppendLogResponses (2, 2) true]

theorem logMatching_catchUpRun :
    ∃ s, Reach (step trio) (fun s act => s.matchingOk act = true) (init trio) s ∧
      (s.nodes (2, 2)).part.wal.entries.map Entry.term = [1, 1, 2] ∧
      (s.nodes (3, 3)).part.wal.entries.map Entry.term = [1, 1, 2] ∧ s.LogMatching := by
  obtain ⟨s, hreach, hlogs⟩ := exists_reach_of_run (step trio)
    (fun s act => s.matchingOk act = true) (init trio)
    (fun s => decide ((s.nodes (2, 2)).part.wal.entries.map Entry.term = [1, 1, 2] ∧
      (s.nodes (3, 3)).part.wal.entries.map Entry.term = [1, 1, 2]))
    catchUpRun (by decide +kernel)
  obtain ⟨h2, h3⟩ := of_decide_eq_true hlogs
  exact ⟨s, hreach, h2, h3, logMatching_of_honestRequest trio (by decide) hreach⟩

/-- The second partition accepts log 2 of term 1, but its leader, the third,
hears only of an exception, loses log 2 when it votes for the first in term 2 and
writes another when it is leader again in term 3.  The pair of the `Host` then
follows the answers of the second partition to its own log 2, behind which log 3
is written. -/
def staleRun : List Action :=
  [.startElection (3, 3) false, .prepareElection (3, 3) 0, .recvVoteRequest 1 false,
   .recvVoteResponse 1, .processElection (3, 3) 0, .announceLeader (3, 3) 0,
   .appendLogs (3, 3) [(0, .data [1])], .replicateLogs (3, 3), .hostAppendLogs (3, 3) 0,
   .hostAppendLogs (3, 3) 0, .recvAppendRequest 1 false true, .recvAppendRequest 1 false true,
   .recvAppendResponse 1, .recvAppendResponse 1, .processAppendLogResponses (3, 3) true,
   .appendLogs (3, 3) [(0, .data [2])], .replicateLogs (3, 3), .hostAppendLogs (3, 3) 1,
   .recvAppendRequest 1 false true, .appendException (3, 3) (2, 2), .hostAppendLogs (3, 3) 0,
   .appendException (3, 3) (1, 1), .processAppendLogResponses (3, 3) true,
   .startElection (1, 1) true, .prepareElection (1, 1) 0, .recvVoteRequest 4 false,
   .recvVoteResponse 4, .processElection (1, 1) 0, .announceLeader (1, 1) 0,
   .replicateLogs (3, 3), .startElection (3, 3) true, .prepareElection (3, 3) 1,
   .recvVoteRequest 4 false, .recvVoteResponse 5, .processElection (3, 3) 1,
   .announceLeader (3, 3) 1,
   .appendLogs (3, 3) [(0, .data [3])], .replicateLogs (3, 3), .hostAppendLogs (3, 3) 1,
   .recvAppendRequest 5 false true, .recvAppendResponse 5,
   .processAppendLogResponses (3, 3) true,
   .appendLogs (3, 3) [(0, .data [4])], .replicateLogs (3, 3), .hostAppendLogs (3, 3) 2,
   .recvAppendRequest 5 false true, .recvAppendResponse 5, .recvAppendRequest 5 false true]

/-- **Without the conditions logs may not match**: log 3 of the second and third
partition is of the same term, but log 2 is not. -/
theorem not_logMatching_staleRun :
    ∃ s, Reach (step trio) (fun s act => s.noSnapshot act = true) (init trio) s ∧
      ¬ s.LogMatching := by
  obtain ⟨s, hreach, hlogs⟩ := exists_reach_of_run (step trio)
    (fun s act => s.noSnapshot act = true) (init trio)
    (fun s => decide (((s.nodes (2, 2)).part.wal.get? 3).map Entry.term = some 3 ∧
      ((s.nodes (3, 3)).part.wal.get? 3).map Entry.term = some 3 ∧
      ((s.nodes (2, 2)).part.wal.get? 2).map Entry.term = some 1 ∧
      ((s.nodes (3, 3)).part.wal.get? 2).map Entry.term = some 3))
    staleRun (by decide +kernel)
  obtain ⟨h1, h2, h3, h4⟩ := of_decide_eq_true hlogs
  obtain ⟨e, he, het⟩ := Option.map_eq_some_iff.mp h1
  obtain ⟨f, hf, hft⟩ := Option.map_eq_some_iff.mp h2
  obtain ⟨e', he', het'⟩ := Option.map_eq_some_iff.mp h3
  obtain ⟨f', hf', hft'⟩ := Option.map_eq_some_iff.mp h4
  refine ⟨s, hreach, fun hmatch => ?_⟩
  have heq := hmatch _ _ 3 e f he hf (het.trans hft.symm) 2 (by omega) e' f' he' hf'
  rw [heq] at het'
  omega

end Group
end K2Graph.Raft
