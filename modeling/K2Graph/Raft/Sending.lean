import K2Graph.Raft.Intact

/-!
# What a partition sends

A `Host` keeps the term and the committed log id of requests beyond the end of
the term they were made in, and goes on sending them when the partition is no
longer leader, or is leader of another term.  As long as a request is sent only
by the leader of its term, its sender's log is a piece of the log of that term,
and what it calls committed is committed.

## Main results

* `Group.SendInv.effect` — every step that meets the conditions keeps it.
-/

namespace K2Graph.Raft

open List TermLog

/-- The terms and committed log ids a partition remembers in its hosts, its calls
and its replication. -/
inductive Node.Remembers (n : Node) : ℕ → ℕ → Prop
  | host {v : HostAddr} {t k : ℕ} : (n.host v).Remembers t k → Remembers n t k
  | call {v : HostAddr} {c : CallArgs} : (v, c) ∈ n.calls → Remembers n c.term c.committedLogId
  | replication {r : Replication} : n.replication = some r → Remembers n r.currTerm r.committedId

theorem Node.Remembers.congr {n n' : Node} (ht : n'.Remembers t k) (hh : n'.host = n.host)
    (hc : n'.calls = n.calls) (hr : n'.replication = n.replication) : n.Remembers t k := by
  cases ht with
  | host hv => rw [hh] at hv; exact .host hv
  | call hm => rw [hc] at hm; exact .call hm
  | replication h0 => rw [hr] at h0; exact .replication h0

variable {a peer : HostAddr} {req : AppendLogRequest}

namespace Group

variable {cfg : Config} {s : Group} {act : Action}

/-! ### The conditions -/

/-- A candidate that wins still has the log it asked for votes with. -/
def currentElection (s : Group) : Action → Bool
  | .processElection a eid =>
      match (s.nodes a).elections[eid]? with
      | some ⟨_, .asking req results⟩ =>
          !(s.nodes a).part.isElected (numVotes results) ||
            decide (req.lastLogId = (s.nodes a).part.lastLogId ∧
              req.lastLogTerm = (s.nodes a).part.lastLogTerm)
      | _ => true
  | _ => true

def noCleaning : Action → Bool
  | .cleanWAL _ _ => false
  | _ => true

/-- What a `Host` does in an action, with the partition it belongs to. -/
def outcome? (cfg : Config) (s : Group) : Action → Option (HostAddr × Host.Outcome)
  | .hostAppendLogs a i =>
      match (s.nodes a).calls[i]? with
      | some (peer, c) =>
          some (a, Host.appendLogs cfg.flags (s.nodes a).part ((s.nodes a).host peer) c)
      | none => none
  | .recvAppendResponse i =>
      match s.net[i]? with
      | some (.appendResp src dst rid resp) =>
          if ((s.nodes dst).host src).requestOnGoing ∧ ((s.nodes dst).host src).rid = rid then
            some (dst, Host.onResponse cfg.flags (s.nodes dst).part ((s.nodes dst).host src) resp)
          else none
      | _ => none
  | _ => none

/-- A request is sent only by a leader of its term. -/
def sendsAsLeader (cfg : Config) (s : Group) (act : Action) : Bool :=
  match s.outcome? cfg act with
  | some (a, out) =>
      match out.request with
      | some req => decide ((s.nodes a).part.role = .leader ∧
          (s.nodes a).part.term = req.currentTerm)
      | none => true
  | none => true

/-- A follower rolls back logs only when the first log it loses conflicts with
the sender's log. -/
def justifiedRollback (s : Group) : Action → Bool
  | .recvAppendRequest i recent _ =>
      match s.net[i]? with
      | some (.appendReq _ dst _ req cut) =>
          let p := (s.nodes dst).part
          !(decide ((p.verifyLeader req recent).2 = .succeeded) &&
            decide (p.committedLogId ≤ req.lastLogIdSent) && p.termsDiffer req &&
            decide (p.committedLogId < p.lastLogId)) ||
          conflictAt p.log cut p.committedLogId
      | _ => true
  | _ => true

def sendingOk (cfg : Config) (s : Group) (act : Action) : Bool :=
  s.matchingOk act && s.currentElection act && noCleaning act && s.sendsAsLeader cfg act &&
    s.justifiedRollback act

variable {r : Replication}

/-! ### The invariant -/

/-- The voter's log passed the test of `processAskForVoteRequest`. -/
def Vote.Passed (x : Vote) : Prop :=
  x.log = [] ∨ lastTerm Entry.term x.log < x.req.lastLogTerm ∨
    lastTerm Entry.term x.log = x.req.lastLogTerm ∧ x.log.length ≤ x.req.lastLogId

/-- A remembered request is of no later term than the partition's and commits no
more than the partition has committed.  If a leader remembers its own term, it
has written its log down. -/
def Remembered (s : Group) (a : HostAddr) (t k : ℕ) : Prop :=
  t ≤ (s.nodes a).part.term ∧ k ≤ (s.nodes a).part.committedLogId ∧
    ((s.nodes a).part.role = .leader → t = (s.nodes a).part.term →
      s.termLog t = (s.nodes a).part.wal.full)

structure SendInv (s : Group) : Prop where
  intact : ∀ a, (s.nodes a).part.Intact
  remembered : ∀ a t k, (s.nodes a).Remembers t k → s.Remembered a t k
  request : ∀ {src dst rid req cut}, .appendReq src dst rid req cut ∈ s.net →
    cut <+: s.termLog req.currentTerm
  vote : ∀ x ∈ s.votes, Vote.Passed x
  results : ∀ a r, (s.nodes a).replication = some r → (r.results.map Prod.fst).Nodup

theorem sendInv_init (cfg : Config) : SendInv (init cfg) where
  intact := fun a => ⟨rfl, fun _ => rfl, fun _ => rfl, Nat.le_refl 0⟩
  remembered := by
    intro a t k ht
    have h0 : t = 0 ∧ k = 0 := by
      cases ht with
      | host hh =>
        cases hh with
        | sent | pending => exact ⟨rfl, rfl⟩
      | call hm => cases hm
      | replication hr => cases hr
    obtain ⟨rfl, rfl⟩ := h0
    exact ⟨Nat.zero_le _, Nat.zero_le _, fun hrole => by cases hrole⟩
  request := by simp [init]
  vote := by simp [init]
  results := by simp [init, Node.init]

theorem LogInv.leader_term_pos (h : LogInv s) (hel : ElectionInv cfg s)
    (hrole : (s.nodes a).part.role = .leader) : 0 < (s.nodes a).part.term := by
  obtain ⟨w, hw, -, hwt⟩ := h.leaderWon a hrole
  rw [← hwt]
  exact (hel.win w hw).1

/-! ### One partition -/

/-- What the invariant says of one partition, given the logs of the leaders. -/
structure NodeSends (termLog : ℕ → List (Entry LogMsg)) (n : Node) : Prop where
  intact : n.part.Intact
  remembered : ∀ t k, n.Remembers t k → t ≤ n.part.term ∧ k ≤ n.part.committedLogId ∧
    (n.part.role = .leader → t = n.part.term → termLog t = n.part.wal.full)
  results : ∀ r, n.replication = some r → (r.results.map Prod.fst).Nodup

def AllSend (s : Group) : Prop := ∀ a, NodeSends s.termLog (s.nodes a)

theorem SendInv.node (h : SendInv s) (a : HostAddr) : NodeSends s.termLog (s.nodes a) :=
  ⟨h.intact a, h.remembered a, h.results a⟩

variable {termLog : ℕ → List (Entry LogMsg)} {n : Node}

/-- A partition that remembers nothing new, and is not leader or has the log it had. -/
theorem NodeSends.update (h : NodeSends termLog n) (hpos : n.part.role = .leader → 0 < n.part.term)
    (hint : n'.part.Intact)
    (hrem : ∀ t k, n'.Remembers t k → (t = 0 ∧ k = 0) ∨ n.Remembers t k)
    (hterm : n.part.term ≤ n'.part.term)
    (hcomm : n.part.committedLogId ≤ n'.part.committedLogId)
    (hpart : n'.part.role = .leader → n.part.role = .leader ∧ n'.part.term = n.part.term ∧
      n'.part.wal.full = n.part.wal.full)
    (hres : ∀ r, n'.replication = some r → (r.results.map Prod.fst).Nodup) :
    NodeSends termLog n' := by
  refine ⟨hint, fun t k ht => ?_, hres⟩
  rcases hrem t k ht with ⟨rfl, rfl⟩ | ht
  · refine ⟨Nat.zero_le _, Nat.zero_le _, fun hrole h0 => ?_⟩
    obtain ⟨hrole', hterm', -⟩ := hpart hrole
    have := hpos hrole'
    omega
  · obtain ⟨hle, hk, hself⟩ := h.remembered t k ht
    refine ⟨hle.trans hterm, hk.trans hcomm, fun hrole heq => ?_⟩
    obtain ⟨hrole', hterm', hfull⟩ := hpart hrole
    rw [hfull]
    exact hself hrole' (heq.trans hterm')

/-- A step that changes one partition keeps what is said of the others if their leaders
have written no more. -/
theorem SendInv.setNode (h : SendInv s) (hnodes : s'.nodes = (s.setNode a n).nodes)
    (hn : NodeSends s'.termLog n)
    (hsame : ∀ b, b ≠ a → (s.nodes b).part.role = .leader →
      s'.termLog (s.nodes b).part.term = s.termLog (s.nodes b).part.term) : AllSend s' := by
  intro b
  rw [hnodes, setNode_nodes]
  split_ifs with hb
  · exact hn
  refine ⟨(h.node b).intact, fun t k ht => ?_, (h.node b).results⟩
  obtain ⟨hle, hk, hself⟩ := (h.node b).remembered t k ht
  refine ⟨hle, hk, fun hrole heq => ?_⟩
  rw [heq, hsame b hb hrole, ← heq]
  exact hself hrole heq

theorem NodeSends.elected {req : AskForVoteRequest} (h : NodeSends termLog n)
    (hpart : n'.part = { n.part with term := req.term, role := .leader })
    (hhost : n'.host = n.host) (hcalls : n'.calls = n.calls)
    (hrepl : n'.replication = n.replication) (hlt : n.part.term < req.term) :
    NodeSends termLog' n' := by
  refine ⟨?_, fun t k ht => ?_, ?_⟩
  · rw [hpart]
    exact h.intact.congr rfl rfl rfl rfl
  · obtain ⟨hle, hk, -⟩ := h.remembered t k (ht.congr hhost hcalls hrepl)
    rw [hpart]
    simp only
    exact ⟨by omega, hk, fun _ heq => by omega⟩
  · rw [hrepl]
    exact h.results

theorem NodeSends.appended {logs : List (ℤ × LogMsg)} {p' : RaftPart} (h : NodeSends termLog n)
    (hwf : n.part.WF) (hlogs : logs ≠ [])
    (happ : n.part.appendToWal (n.part.lastLogId + 1) n.part.term logs = (p', true))
    (hpart : n'.part = p') (hhost : n'.host = n.host) (hcalls : n'.calls = n.calls)
    (hrepl : n'.replication = some r) (hcurr : r.currTerm = n.part.term)
    (hcomm : r.committedId = n.part.committedLogId) (hres : r.results = [])
    (htl : termLog' n.part.term = p'.wal.full) : NodeSends termLog' n' := by
  have halike := RaftPart.appendToWal_alike happ
  have hcomm' : p'.committedLogId = n.part.committedLogId := by
    rw [RaftPart.appendToWal_eq happ]
  refine ⟨?_, fun t k ht => ?_, fun r' hr' => ?_⟩
  · rw [hpart]
    exact h.intact.leader_append hwf happ hlogs
  · have hold : t ≤ n.part.term ∧ k ≤ n.part.committedLogId := by
      cases ht with
      | host hv =>
        rw [hhost] at hv
        obtain ⟨h1, h2, -⟩ := h.remembered _ _ (.host hv)
        exact ⟨h1, h2⟩
      | call hm =>
        rw [hcalls] at hm
        obtain ⟨h1, h2, -⟩ := h.remembered _ _ (.call hm)
        exact ⟨h1, h2⟩
      | replication h0 =>
        rw [hrepl, Option.some.injEq] at h0
        rw [← h0, hcurr, hcomm]
        exact ⟨le_refl _, le_refl _⟩
    rw [hpart, halike.term, hcomm']
    refine ⟨hold.1, hold.2, fun _ heq => ?_⟩
    rw [heq, htl]
  · rw [hrepl, Option.some.injEq] at hr'
    rw [← hr', hres]
    exact nodup_nil

/-! ### Steps -/

theorem hostNode_remembers (hs : HostStep cfg s a peer act calls' net' out)
    (ht : (s.hostNode a calls' peer out).Remembers t k) :
    (t = 0 ∧ k = 0) ∨ (s.nodes a).Remembers t k := by
  cases ht with
  | @host v t k hv =>
    simp only [hostNode] at hv
    split at hv
    · cases hs with
      | call hc =>
        rcases Host.appendLogs_remembers hv with h0 | h0 | ⟨rfl, rfl⟩
        · exact .inl h0
        · exact .inr (.host h0)
        · exact .inr (.call (mem_of_getElem? hc))
      | response _ _ _ => exact (Host.onResponse_remembers hv).imp_right .host
      | exception _ => exact (Host.onException_remembers hv).imp_right .host
    · exact .inr (.host hv)
  | @call v c hm =>
    cases hs with
    | call hc => exact .inr (.call (mem_of_mem_eraseIdx hm))
    | response _ _ _ | exception _ => exact .inr (.call hm)
  | replication hr =>
    obtain ⟨r, hr₀, rfl⟩ := Option.map_eq_some_iff.mp hr
    have hrem : (s.nodes a).Remembers r.currTerm r.committedId := .replication hr₀
    exact .inr hrem

theorem nodup_collect (h : (r.results.map Prod.fst).Nodup) (peer : HostAddr)
    (fulfilled : List (Call × ErrorCode)) :
    ((collect r peer fulfilled).results.map Prod.fst).Nodup := by
  unfold collect
  simp only [map_append]
  by_cases hmem : peer ∈ r.results.map Prod.fst
  · have hnil : fulfilled.filter (fun f => decide (r.round = some f.1.round ∧
        peer ∉ r.results.map Prod.fst)) = [] := by
      simp [hmem]
    rw [hnil]
    simpa using h
  rw [nodup_append]
  refine ⟨h, ?_, ?_⟩
  · have hlen : ∀ l : List (HostAddr × ErrorCode), ((l.take 1).map Prod.fst).Nodup := by
      intro l
      cases l with
      | nil => simp
      | cons x l => simp
    exact hlen _
  · intro x hx y hy hxy
    obtain ⟨f, hf, rfl⟩ := mem_map.mp hy
    obtain ⟨f', -, rfl⟩ := mem_map.mp (mem_of_mem_take hf)
    rw [hxy] at hx
    exact hmem hx

theorem SendInv.sent (h : SendInv s) (hlog : LogInv s) (hel : ElectionInv cfg s)
    (hs : HostStep cfg s a peer act calls' net' out) (hreq : out.request = some req)
    (hok : s.sendsAsLeader cfg act = true) :
    req.committedLogId ≤ (s.nodes a).part.committedLogId ∧
      (s.nodes a).part.wal.full = s.termLog req.currentTerm := by
  have hout : s.outcome? cfg act = some (a, out) := by
    cases hs with
    | call hc => simp [outcome?, hc]
    | response hm hgoing hrid => simp [outcome?, hm, hgoing, hrid]
    | exception _ => cases hreq
  simp only [sendsAsLeader, hout, hreq, decide_eq_true_eq] at hok
  obtain ⟨hrole, hterm⟩ := hok
  obtain ⟨host, hprep, -, -, hsent, hcomm, -⟩ := HostStep.sends hs hreq
  obtain ⟨hcurr, -, -, hcomm', -⟩ :=
    Host.prepareAppendLogRequest_req cfg.flags (s.nodes a).part host
  rw [← hprep, ← hsent] at hcurr
  rw [← hprep, ← hcomm] at hcomm'
  have hrem : (s.hostNode a calls' peer out).Remembers req.currentTerm req.committedLogId := by
    rw [hcurr, hcomm']
    refine .host (v := peer) ?_
    simp only [hostNode]
    exact .sent
  rcases hostNode_remembers hs hrem with ⟨h0, -⟩ | hrem
  · have := hlog.leader_term_pos hel hrole
    omega
  · obtain ⟨-, hk, hself⟩ := h.remembered a _ _ hrem
    exact ⟨hk, (hself hrole hterm.symm).symm⟩

/-- A request that arrives is handled in one of the ways of `Receipt`. -/
theorem SendInv.receipt (h : SendInv s) (hlog : LogInv s) (hel : ElectionInv cfg s)
    (hauthor : ∀ t, ∀ e ∈ s.termLog t, e.term ≤ t) {out : RaftPart.AppendOutcome}
    (hmsg : s.net[i]? = some (.appendReq src dst rid req cut))
    (hout : out = (s.nodes dst).part.processAppendLogRequest req recent commitOk)
    (hok : s.matchingOk (.recvAppendRequest i recent commitOk) = true)
    (hjust : s.justifiedRollback (.recvAppendRequest i recent commitOk) = true) :
    (s.nodes dst).part.Receipt req cut out := by
  simp only [matchingOk, Bool.and_eq_true] at hok
  obtain ⟨⟨-, hsnap⟩, hhon⟩ := hok
  have hm := mem_of_getElem? hmsg
  obtain ⟨hcut, hdrop⟩ := hlog.request hm
  exact hlog.receipt hel (h.intact dst) (sendingSnapshot_eq_false hmsg hsnap) hcut hdrop
    (describes_of_honestRequest hmsg hhon)
    (fun e he => hauthor _ e ((h.request hm).subset he))
    (fun hver hsent hdiff hlt => by
      simpa [justifiedRollback, hmsg, hver, hsent, hdiff, hlt] using hjust) hout

theorem LogInv.intact_commit (h : LogInv s) {committed : ℕ} (hint : (s.nodes a).part.Intact)
    (hr : (s.nodes a).replication = some r) (hrole : (s.nodes a).part.role = .leader)
    (hterm : r.currTerm = (s.nodes a).part.term)
    (hpart : n.part = { (s.nodes a).part with
      lastLogId := r.lastLogId, lastLogTerm := r.currTerm, role := role, leader := leader,
      committedLogId := committed })
    (hcomm : committed = r.lastLogId ∨ committed = (s.nodes a).part.committedLogId) :
    n.part.Intact ∧ (s.nodes a).part.committedLogId ≤ committed := by
  obtain ⟨-, hne, hid, -⟩ := (h.replication a r hr).2 hrole hterm
  have hle := (h.wf a).le
  have hcle := hint.committed_le
  have hpos : 0 < (s.nodes a).part.wal.full.length := by
    rw [hint.full_eq]
    exact length_pos_iff.mpr hne
  rw [hpart]
  refine ⟨⟨hint.dropped, hint.walTerm, ?_, ?_⟩, ?_⟩
  · intro h0
    simp only at h0
    omega
  · rcases hcomm with rfl | rfl
    · exact le_refl _
    · simp only
      omega
  · rcases hcomm with rfl | rfl
    · omega
    · exact le_refl _

theorem SendInv.vote_effect (h : SendInv s) (hlog : LogInv s) (he : Effect cfg s act s')
    (hx : x ∈ s'.votes) : Vote.Passed x := by
  cases he with
  | @vote _ _ _ _ dst _ _ hg =>
    rcases mem_cons.mp hx with rfl | hx
    · -- the voter's log passes the test
      have hterm := (h.intact dst).lastTerm_log (hlog.wf dst)
      right
      rcases lt_or_eq_of_le hg.lastTerm with hlt | heq
      · left
        simp only [hterm]
        exact hlt
      · right
        simp only [hterm, (hlog.wf dst).length_log]
        exact ⟨heq, hg.lastId heq.symm⟩
    · exact h.vote x hx
  | _ => exact h.vote x hx

theorem SendInv.node_effect (h : SendInv s) (hlog : LogInv s) (hfix : Fixed cfg s)
    (hel : ElectionInv cfg s) (hauthor : ∀ t, ∀ e ∈ s.termLog t, e.term ≤ t)
    (hnd : cfg.members.Nodup) (hmatch : s.matchingOk act = true) (hclean : noCleaning act = true)
    (hjust : s.justifiedRollback act = true) (he : Effect cfg s act s') : AllSend s' := by
  have hpos (a : HostAddr) : (s.nodes a).part.role = .leader → 0 < (s.nodes a).part.term :=
    hlog.leader_term_pos hel
  have hrec (a : HostAddr) (n : Node) (hh : n.host = (s.nodes a).host)
      (hc : n.calls = (s.nodes a).calls) (hr : n.replication = (s.nodes a).replication) (t k : ℕ)
      (ht : n.Remembers t k) : (t = 0 ∧ k = 0) ∨ (s.nodes a).Remembers t k :=
    .inr (ht.congr hh hc hr)
  cases he with
  | @stir _ a n' hst =>
    obtain ⟨role, leader, tasks, hpart, hrole⟩ := hst.part
    refine h.setNode rfl ((h.node a).update (hpos a) ?_
      (hrec a n' hst.host hst.calls hst.replication) ?_ ?_ ?_ ?_) fun _ _ _ => rfl
    · rw [hpart]; exact (h.intact a).congr rfl rfl rfl rfl
    · rw [hpart]
    · rw [hpart]
    · rw [hpart]; exact fun h0 => ⟨hrole h0, rfl, rfl⟩
    · rw [hst.replication]; exact h.results a
  | drop _ => exact h.node
  | @prepare a eid polling _ _ | @collect _ a peer eid polling req results code net' _ _ _ _ _ =>
    exact h.setNode rfl ((h.node a).update (hpos a) ((h.intact a).congr rfl rfl rfl rfl)
      (hrec a _ rfl rfl rfl) (le_refl _) (le_refl _) (fun h0 => ⟨h0, rfl, rfl⟩)
      (h.results a)) fun _ _ _ => rfl
  | @vote i eid recent src dst req hmsg hg =>
    exact h.setNode rfl ((h.node dst).update (hpos dst) ((h.intact dst).voteFor (hlog.wf dst) req)
      (hrec dst _ rfl rfl rfl) (hel.lt_of_grants hg).le (RaftPart.committedLogId_voteFor _ req).ge
      (fun h0 => by cases h0) (h.results dst)) fun _ _ _ => rfl
  | @win a eid polling req results ha hasking hwon =>
    obtain ⟨hlt, -⟩ := lt_of_freshElection hasking hwon (freshElection_of_matchingOk hmatch)
    refine h.setNode rfl ((h.node a).elected rfl rfl rfl rfl hlt) fun b _ hrole => ?_
    obtain ⟨w, hw, -, hwt⟩ := hlog.leaderWon b hrole
    exact if_neg (hwt ▸ hel.win_fresh hfix hnd ha hasking hwon hlt w hw)
  | @append a logs p' _ hlogs hrole happ =>
    refine h.setNode rfl ((h.node a).appended (hlog.wf a) hlogs happ rfl rfl rfl rfl rfl rfl rfl
      (if_pos rfl)) fun b hb hrole' => ?_
    exact if_neg fun h0 => hb (hlog.leader_unique hel hrole' hrole h0)
  | @replicate a r hr _ =>
    have hrem : (s.nodes a).Remembers r.currTerm r.committedId := .replication hr
    refine h.setNode rfl ((h.node a).update (hpos a) ((h.intact a).congr rfl rfl rfl rfl)
      (fun t k ht => .inr ?_) (le_refl _) (le_refl _) (fun h0 => ⟨h0, rfl, rfl⟩) ?_)
      fun _ _ _ => rfl
    · cases ht with
      | host hv => exact .host hv
      | call hm =>
        rcases mem_append.mp hm with hm | hm
        · exact .call hm
        · obtain ⟨f, -, heq⟩ := mem_map.mp hm
          rw [← (Prod.mk.inj heq).2]
          exact hrem
      | replication h0 =>
        cases h0
        exact hrem
    · intro r' hr'
      rw [Option.some.injEq] at hr'
      subst hr'
      exact nodup_nil
  | @settle _ a r r' hr hr' =>
    have hsame (r₁ : Replication) (h1 : r' = some r₁) : r₁ = { r with round := none } := by
      rcases hr' with h0 | h0
      · rw [h0] at h1; cases h1
      · rw [h0, Option.some.injEq] at h1; exact h1.symm
    refine h.setNode rfl ((h.node a).update (hpos a) ((h.intact a).congr rfl rfl rfl rfl)
      (fun t k ht => .inr ?_) (le_refl _) (le_refl _) (fun h0 => ⟨h0, rfl, rfl⟩) ?_)
      fun _ _ _ => rfl
    · have hrem : (s.nodes a).Remembers r.currTerm r.committedId := .replication hr
      cases ht with
      | host hv => exact .host hv
      | call hm => exact .call hm
      | replication h0 =>
        rw [hsame _ h0]
        exact hrem
    · intro r₁ h1
      rw [hsame _ h1]
      exact h.results a r hr
  | @host _ a peer calls' net' out hs =>
    refine h.setNode (hostOutcome_nodes s a calls' net' peer out) ((h.node a).update (hpos a)
      ((h.intact a).congr rfl rfl rfl rfl) (fun t k ht => hostNode_remembers hs ht)
      (le_refl _) (le_refl _) (fun h0 => ⟨h0, rfl, rfl⟩) ?_) fun _ _ _ => rfl
    intro r' hr'
    obtain ⟨r, hr, rfl⟩ := Option.map_eq_some_iff.mp hr'
    exact nodup_collect (h.results a r hr) peer out.fulfilled
  | @receive i rid recent commitOk src dst req cut out hmsg hout =>
    refine h.setNode rfl ?_ fun _ _ _ => rfl
    have hjoin (hj : (s.nodes dst).part.Joins req out.part) : NodeSends s.termLog
        { s.nodes dst with part := out.part, dead := out.crashed } := by
      refine (h.node dst).update (hpos dst) hj.intact (hrec dst _ rfl rfl rfl) ?_ hj.committed
        (fun h0 => absurd h0 hj.role) (h.results dst)
      simp only [hj.term]
      exact hj.le
    cases h.receipt hlog hel hauthor hmsg hout hmatch hjust with
    | refused hpart _ =>
      refine (h.node dst).update (hpos dst) ?_ (hrec dst _ rfl rfl rfl) ?_ ?_ ?_ (h.results dst)
      · rw [hpart]; exact h.intact dst
      · simp [hpart]
      · simp [hpart]
      · simp only [hpart]; exact fun h0 => ⟨h0, trivial, trivial⟩
    | kept hj _ _ _ | cut hj _ _ _ _ _ _ | extended hj _ _ _ _ _ _ => exact hjoin hj
  | @commit a r commitOk n' _ hr _ _ hrole hterm hpart hhost hcalls _ _ hrepl =>
    obtain ⟨role, leader, committed, hpart, -, hcomm⟩ := hpart
    obtain ⟨hint, hcle⟩ := hlog.intact_commit (h.intact a) hr hrole hterm hpart hcomm
    refine h.setNode rfl ((h.node a).update (hpos a) hint (fun t k ht => .inr ?_) (by rw [hpart])
      (by rw [hpart]; exact hcle) ?_ ?_) fun _ _ _ => rfl
    · cases ht with
      | host hv => rw [hhost] at hv; exact .host hv
      | call hm => rw [hcalls] at hm; exact .call hm
      | replication h0 =>
        rcases hrepl with h1 | ⟨h1, -⟩
        · rw [h1] at h0; cases h0
        · rw [h1] at h0; exact .replication h0
    · rw [hpart]
      exact fun _ => ⟨hrole, rfl, rfl⟩
    · intro r' hr'
      rcases hrepl with h1 | ⟨h1, -⟩
      · rw [h1] at hr'; cases hr'
      · rw [h1] at hr'; exact h.results a r' hr'
  | clean _ => cases hclean

/-- **Every step that meets the conditions keeps the invariant.** -/
theorem SendInv.effect (h : SendInv s) (hlog : LogInv s) (hfix : Fixed cfg s)
    (hel : ElectionInv cfg s) (hauthor : ∀ t, ∀ e ∈ s.termLog t, e.term ≤ t)
    (hnd : cfg.members.Nodup) (hok : s.sendingOk cfg act = true) (he : Effect cfg s act s') :
    SendInv s' := by
  simp only [sendingOk, Bool.and_eq_true] at hok
  obtain ⟨⟨⟨⟨hmatch, -⟩, hclean⟩, hsend⟩, hjust⟩ := hok
  have hnode := h.node_effect hlog hfix hel hauthor hnd hmatch hclean hjust he
  have hmono := hlog.termLog_mono hfix hel hnd (freshElection_of_matchingOk hmatch) he
  refine ⟨fun b => (hnode b).intact, fun b => (hnode b).remembered, fun {_ _ _ req _} hm => ?_,
    fun x hx => h.vote_effect hlog he hx, fun b => (hnode b).results⟩
  -- what a partition sends is a piece of the log of its term
  refine List.IsPrefix.trans ?_ (hmono req.currentTerm)
  rcases he.appendReq_cases hm with hm | ⟨calls', net', out, hs, hreq, rfl⟩
  · exact h.request hm
  · rw [← (h.sent hlog hel hs hreq hsend).2]
    exact take_prefix _ _

end Group
end K2Graph.Raft
