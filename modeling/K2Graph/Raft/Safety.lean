import K2Graph.Lib.Consensus
import K2Graph.Raft.Sending

/-!
# State machine safety

No two partitions should pass different entries to `commitLogs` under one id.
The code does not ensure this: what `Host` takes for an acknowledgement need not
be one, and a follower drops logs a majority may have accepted.

Where acknowledgements are true and logs are cut at conflicts only, the group
refines the protocol of `Consensus`: every step of the group is a number of steps
of the protocol, from which safety follows.

## Main results

* `Group.refines` — every step that meets the conditions is a number of steps of
  the protocol.
* `Group.stateMachineSafe_of_safetyOk` — then nothing different is passed on.
* `Group.not_stateMachineSafe_lostRun` — a run in which it is.
-/

namespace K2Graph.Raft

open List TermLog Function

namespace Group

variable {cfg : Config} {s : Group} {act : Action}

/-! ### The property and the conditions -/

section

variable (s : Group)

/-- What partitions pass to `commitLogs` under one id is the same entry. -/
def StateMachineSafe : Prop :=
  ∀ a b id e f, (a, id, e) ∈ s.passed → (b, id, f) ∈ s.passed → e = f

/-- When a leader commits, every follower it counts has, in the leader's term,
had a last log of that term and not before the log to be committed. -/
def provenQuorum : Action → Bool
  | .processAppendLogResponses a _ =>
      let p := (s.nodes a).part
      match (s.nodes a).replication with
      | some r =>
          !(decide (p.quorum ≤ numSucceeded p r.results ∧ p.role = .leader ∧
            r.currTerm = p.term)) ||
          r.results.all fun x =>
            !(p.isFollower x.1 && decide (x.2 = .succeeded)) ||
            s.accepted.any fun y =>
              decide (y.1 = x.1 ∧ y.2.1 = r.currTerm ∧ r.lastLogId ≤ y.2.2)
      | none => true
  | _ => true

def safetyOk (cfg : Config) (s : Group) (act : Action) : Bool :=
  s.sendingOk cfg act && s.provenQuorum act

variable (notices : List (List (Entry LogMsg)))

/-! ### The state of the protocol -/

/-- The state of the protocol a group stands for, if partitions have been told
`notices`. -/
def abs : Consensus.State HostAddr (Entry LogMsg) where
  term := fun a => (s.nodes a).part.term
  log := fun a => (s.nodes a).part.log
  committed := fun a => (s.nodes a).part.committedLogId
  author := s.termLog
  votes := s.votes.map fun x => ⟨x.voter, x.req.term, x.log⟩
  wins := s.wins.map fun w => ⟨w.leader, w.term, w.log⟩
  accepted := s.accepted
  notices := notices
  passed := s.passed

/-- Every request on the wire is among the notices, with as much of its sender's
log as it calls committed. -/
def Noticed : Prop :=
  ∀ {src dst rid req cut}, .appendReq src dst rid req cut ∈ s.net →
    cut.take req.committedLogId ∈ notices

/-- The steps of the protocol for entries of a group. -/
abbrev Steps (cfg : Config) (σ σ' : Consensus.State HostAddr (Entry LogMsg)) : Prop :=
  Relation.ReflTransGen (Consensus.Step Entry.term cfg.members) σ σ'

theorem part_setNode {β : Type} (n : Node) (f : RaftPart → β) :
    (fun b => f ((s.setNode a n).nodes b).part) =
      update (fun b => f (s.nodes b).part) a (f n.part) := by
  funext b
  by_cases hb : b = a
  · rw [hb, update_self, setNode_nodes_self]
  · rw [update_of_ne hb, setNode_nodes_of_ne _ _ hb]

end

theorem abs_setNode (ht : n.part.term = t) (hX : n.part.log = X) (hc : n.part.committedLogId = c) :
    (s.setNode a n).abs N = { s.abs N with
      term := update (s.abs N).term a t
      log := update (s.abs N).log a X
      committed := update (s.abs N).committed a c } := by
  subst ht hX hc
  unfold abs
  rw [part_setNode s n RaftPart.term, part_setNode s n RaftPart.log,
    part_setNode s n RaftPart.committedLogId]
  rfl

theorem abs_setNode_same (ht : n.part.term = (s.nodes a).part.term)
    (hX : n.part.log = (s.nodes a).part.log)
    (hc : n.part.committedLogId = (s.nodes a).part.committedLogId) :
    (s.setNode a n).abs N = s.abs N := by
  rw [abs_setNode ht hX hc]
  simp [abs]

/-! ### The steps of the group as steps of the protocol -/

theorem steps_same (ht : n.part.term = (s.nodes a).part.term)
    (hX : n.part.log = (s.nodes a).part.log)
    (hc : n.part.committedLogId = (s.nodes a).part.committedLogId) :
    Steps cfg (s.abs N) ((s.setNode a n).abs N) := by
  rw [abs_setNode_same ht hX hc]

theorem steps_vote (hwf : (s.nodes a).part.WF) (hpart : n.part = (s.nodes a).part.voteFor req)
    (hlt : (s.nodes a).part.term < req.term) :
    Steps cfg (s.abs N)
      (abs { s.setNode a n with votes := ⟨a, req, (s.nodes a).part.log⟩ :: s.votes } N) := by
  obtain ⟨-, hlog, -⟩ := hwf.voteFor req
  have hcomm : n.part.committedLogId = (s.nodes a).part.committedLogId := by
    rw [hpart, RaftPart.committedLogId_voteFor]
  have habs : (s.setNode a n).abs N = { s.abs N with
      term := update (s.abs N).term a req.term } := by
    rw [abs_setNode (t := req.term) (by rw [hpart]; rfl) (by rw [hpart, hlog]) hcomm]
    simp [abs]
  change Steps cfg _ { (s.setNode a n).abs N with
    votes := ⟨a, req.term, (s.abs N).log a⟩ :: (s.abs N).votes }
  rw [habs]
  exact .single (.vote hlt)

theorem steps_win (hlog : LogInv s) (hsend : SendInv s)
    (hpart : n.part = { (s.nodes a).part with term := req.term, role := .leader })
    (hlt : (s.nodes a).part.term < req.term) (hfresh : ∀ w ∈ s.wins, w.term ≠ req.term)
    (hcurr : req.lastLogId = (s.nodes a).part.lastLogId ∧
      req.lastLogTerm = (s.nodes a).part.lastLogTerm)
    (helected : ElectedBy cfg s.votes ⟨a, req, (s.nodes a).part.log⟩) :
    Steps cfg (s.abs N) (abs { s.setNode a n with
      wins := ⟨a, req, (s.nodes a).part.log⟩ :: s.wins
      termLog := fun t => if t = req.term then (s.nodes a).part.log else s.termLog t } N) := by
  obtain ⟨Q, hQ, hcard, hvote⟩ := helected
  have hauthor : (fun t => if t = req.term then (s.nodes a).part.log else s.termLog t) =
      update s.termLog req.term (s.nodes a).part.log := by
    funext t
    rw [update_apply]
  have habs : (s.setNode a n).abs N = { s.abs N with
      term := update (s.abs N).term a req.term } := by
    rw [abs_setNode (X := (s.nodes a).part.log)
      (c := (s.nodes a).part.committedLogId) (by rw [hpart]) (by rw [hpart]; rfl) (by rw [hpart])]
    simp [abs]
  rw [hauthor]
  change Steps cfg _ { (s.setNode a n).abs N with
    author := update (s.abs N).author req.term ((s.abs N).log a)
    wins := ⟨a, req.term, (s.abs N).log a⟩ :: (s.abs N).wins }
  rw [habs]
  refine .single (.win hlt (hlog.termLog_fresh hfresh) ⟨hQ, hcard⟩ fun v hv => ?_)
  rcases hvote v hv with hv | ⟨x, hx, hxv, hxr⟩
  · exact .inl hv
  refine .inr ⟨⟨x.voter, x.req.term, x.log⟩, mem_map_of_mem hx, hxv, by rw [hxr], ?_⟩
  -- the voter's log passed the test against the log the candidate still has
  have hpassed := hsend.vote x hx
  rw [Vote.Passed, hxr, hcurr.1, hcurr.2, ← (hsend.intact a).lastTerm_log (hlog.wf a),
    ← (hlog.wf a).length_log] at hpassed
  exact hpassed

theorem steps_append {logs : List (ℤ × LogMsg)} (hlog : LogInv s) (hlogs : logs ≠ [])
    (hrole : (s.nodes a).part.role = .leader)
    (happ : (s.nodes a).part.appendToWal ((s.nodes a).part.lastLogId + 1) (s.nodes a).part.term
      logs = (p', true))
    (hpart : n.part = p') : Steps cfg (s.abs N) (abs { s.setNode a n with
      termLog := fun t =>
        if t = (s.nodes a).part.term then p'.wal.full else s.termLog t } N) := by
  have hwf := hlog.wf a
  have hold := hlog.termLog_eq_log hrole happ hlogs
  obtain ⟨-, -, hfull, -⟩ := hwf.appendToWal happ hlogs
  obtain ⟨-, hlog'⟩ := hwf.leader_append happ hlogs
  have hcomm : p'.committedLogId = (s.nodes a).part.committedLogId := by
    rw [RaftPart.appendToWal_eq happ]
  have hauthor : (fun t => if t = (s.nodes a).part.term then p'.wal.full else s.termLog t) =
      update s.termLog (s.nodes a).part.term (s.termLog (s.nodes a).part.term ++
        logs.map (fun l => ⟨(s.nodes a).part.term, l.1, l.2⟩)) := by
    funext t
    rw [update_apply, hold, hfull]
  rw [hauthor]
  change Steps cfg _ { (s.setNode a n).abs N with
    author := update (s.abs N).author (s.nodes a).part.term
      ((s.abs N).author (s.nodes a).part.term ++
        logs.map (fun l => ⟨(s.nodes a).part.term, l.1, l.2⟩)) }
  rw [abs_setNode_same (by rw [hpart, (RaftPart.appendToWal_alike happ).term])
    (by rw [hpart, hlog']) (by rw [hpart, hcomm])]
  refine .single (.write ?_ ?_)
  · obtain ⟨w, hw, -, hwt⟩ := hlog.leaderWon a hrole
    exact ⟨⟨w.leader, w.term, w.log⟩, mem_map_of_mem hw, hwt⟩
  · intro e he
    obtain ⟨l, -, rfl⟩ := mem_map.mp he
    rfl

/-- A partition whose last log is of its own term has the log of that term up to
there. -/
theorem LogInv.take_termLog (h : LogInv s) (a : HostAddr)
    (hlast : (s.nodes a).part.lastLogTerm = (s.nodes a).part.term) :
    (s.nodes a).part.lastLogId ≤ (s.termLog (s.nodes a).part.term).length ∧
      (s.termLog (s.nodes a).part.term).take (s.nodes a).part.lastLogId <+:
        (s.nodes a).part.log := by
  have hwf := h.wf a
  rcases Nat.eq_zero_or_pos (s.nodes a).part.lastLogId with h0 | hpos
  · rw [h0]
    exact ⟨Nat.zero_le _, nil_prefix⟩
  obtain ⟨e, he, hterm⟩ := hwf.exists_last hpos
  have hbuilt : Built Entry.term s.termLog (s.nodes a).part.log := (h.built a).take _
  have hpre := hbuilt.prefix_of_last he (by rw [hwf.length_log]; omega)
  rw [hterm, hlast] at hpre
  have hlen := hpre.length_le
  rw [hwf.length_log] at hlen
  refine ⟨hlen, ?_⟩
  rw [take_eq_of_isPrefix hpre (by rw [hwf.length_log])]
  exact take_prefix _ _

theorem steps_accept {t : Group} (hlog : LogInv s) (hnodes : s.nodes = t.nodes)
    (htl : s.termLog = t.termLog) (haddr : (t.nodes a).part.addr = a) :
    Steps cfg (t.abs N)
      (abs { t with accepted := acceptedBy (t.nodes a).part ++ t.accepted } N) := by
  unfold acceptedBy
  split_ifs with hlast
  · have htake := hlog.take_termLog a
    rw [hnodes, htl] at htake
    obtain ⟨hlen, hpre⟩ := htake hlast
    rw [haddr]
    exact .single (.accept hlen hpre)
  · exact .refl

/-- A request is handled: the partition joins its term, and then the log is cut,
or becomes the sender's and is committed as far as the sender has committed
it. -/
theorem steps_receive {req : AppendLogRequest} (hrec : (s.nodes a).part.Receipt req cut out)
    (hcut : cut <+: s.termLog req.currentTerm) (hnotice : cut.take req.committedLogId ∈ N)
    (hpart : n.part = out.part) : Steps cfg (s.abs N)
      (abs { s.setNode a n with passed := passedBy a out.passed ++ s.passed } N) := by
  have hadvance : (s.nodes a).part.term ≤ req.currentTerm →
      Consensus.Step Entry.term cfg.members (s.abs N)
        { s.abs N with term := update (s.abs N).term a req.currentTerm } := fun hle => .advance hle
  change Steps cfg _ { (s.setNode a n).abs N with
    passed := passedBy a out.passed ++ (s.abs N).passed }
  cases hrec with
  | refused hp hpassed =>
    rw [abs_setNode_same (by rw [hpart, hp]) (by rw [hpart, hp]) (by rw [hpart, hp]), hpassed]
    exact .refl
  | kept hj hlog hcomm hpassed =>
    rw [abs_setNode (by rw [hpart, hj.term]) (by rw [hpart, hlog]) (by rw [hpart, hcomm]), hpassed]
    simp only [abs, update_eq_self]
    exact .single (hadvance hj.le)
  | @cut e f hj he hf hne hlog hcomm hpassed =>
    have habs : (s.setNode a n).abs N = { s.abs N with
        term := update (s.abs N).term a req.currentTerm
        log := update (s.abs N).log a (((s.abs N).log a).take ((s.abs N).committed a)) } := by
      rw [abs_setNode (by rw [hpart, hj.term]) (by rw [hpart, hlog]) (by rw [hpart, hcomm])]
      simp [abs]
    rw [habs, hpassed]
    refine .tail (.single (hadvance hj.le)) (.cut (le_refl _) he ?_ hne)
    simp only [update_self]
    exact getElem?_of_isPrefix hcut hf
  | @extended k hj hpre hlog hlen hk hpassed hcomm =>
    rw [abs_setNode (by rw [hpart, hj.term]) (by rw [hpart, hlog]) (by rw [hpart])]
    refine .tail (.tail (.single (hadvance hj.le)) (.extend hpre ?_))
      (.learn hnotice ?_ ?_ ?_ hcomm)
    · simp only [update_self]
      exact hcut
    · simp only [update_self]
      exact prefix_take_iff.mpr ⟨ take_prefix _ _, by rw [length_take]; omega⟩
    · simp only [update_self]
      exact hlen
    intro x hx
    obtain ⟨y, hy, rfl⟩ := mem_map.mp hx
    obtain ⟨hpos, hle, hget⟩ := hpassed y hy
    simp only [update_self]
    exact ⟨trivial, hpos, hle, hget⟩

/-- The majority behind a commit: the leader and the followers it counts. -/
theorem majority_of_provenQuorum (hfix : Fixed cfg s) (hsend : SendInv s)
    (hnd : cfg.members.Nodup) (ha : a ∈ cfg.members) (hr : (s.nodes a).replication = some r)
    (hq : (s.nodes a).part.quorum ≤ numSucceeded (s.nodes a).part r.results)
    (hrole : (s.nodes a).part.role = .leader) (hterm : r.currTerm = (s.nodes a).part.term)
    (hok : s.provenQuorum (.processAppendLogResponses a commitOk) = true) :
    ∃ Q, Consensus.Majority cfg.members Q ∧
      ∀ v ∈ Q, v = a ∨ ∃ n, r.lastLogId ≤ n ∧ (v, r.currTerm, n) ∈ s.accepted := by
  have hcount : (s.nodes a).part.quorum ≤ numSucceeded (s.nodes a).part r.results ∧
      (s.nodes a).part.role = .leader ∧ r.currTerm = (s.nodes a).part.term := ⟨hq, hrole, hterm⟩
  simp only [provenQuorum, hr, hcount] at hok
  let counted := r.results.filter fun x =>
    (s.nodes a).part.isFollower x.1 && decide (x.2 = .succeeded)
  have hcounted : ∀ v ∈ counted.map Prod.fst, (v ∈ cfg.members ∧ v ≠ a) ∧
      ∃ n, r.lastLogId ≤ n ∧ (v, r.currTerm, n) ∈ s.accepted := by
    intro v hv
    obtain ⟨x, hx, rfl⟩ := mem_map.mp hv
    obtain ⟨hx, hcond⟩ := mem_filter.mp hx
    rw [Bool.and_eq_true, decide_eq_true_eq] at hcond
    refine ⟨(hfix.isFollower_iff a x.1).mp hcond.1, ?_⟩
    -- the answer is on record
    have hone := all_eq_true.mp hok x hx
    simp only [hcond, decide_true, Bool.and_self, Bool.not_true, Bool.false_or,
      any_eq_true, decide_eq_true_eq] at hone
    obtain ⟨⟨v, t, n⟩, hm, rfl, rfl, hle⟩ := hone
    exact ⟨n, hle, by rwa [hterm]⟩
  have hnodup : (a :: counted.map Prod.fst).Nodup := by
    refine nodup_cons.mpr ⟨fun hm => (hcounted a hm).1.2 rfl, ?_⟩
    exact (hsend.results a r hr).sublist (filter_sublist.map Prod.fst)
  refine ⟨(a :: counted.map Prod.fst).toFinset, ⟨?_, ?_⟩, ?_⟩
  · intro v hv
    rw [mem_toFinset, mem_cons] at hv
    rw [mem_toFinset]
    rcases hv with rfl | hv
    · exact ha
    · exact (hcounted v hv).1.1
  · rw [toFinset_card_of_nodup hnodup, length_cons, length_map]
    rw [hfix.quorum a, cfg.length_peers hnd ha, numSucceeded, countP_eq_length_filter] at hq
    change _ ≤ counted.length at hq
    omega
  · intro v hv
    rw [mem_toFinset, mem_cons] at hv
    rcases hv with hv | hv
    · exact .inl hv
    · exact .inr (hcounted v hv).2

/-- A leader commits: it takes its log for known, accepts it and commits what is
then chosen. -/
theorem steps_commit (hlog : LogInv s) (hfix : Fixed cfg s) (hsend : SendInv s)
    (hnd : cfg.members.Nodup) (ha : a ∈ cfg.members) (hr : (s.nodes a).replication = some r)
    (hq : (s.nodes a).part.quorum ≤ numSucceeded (s.nodes a).part r.results)
    (hrole : (s.nodes a).part.role = .leader) (hterm : r.currTerm = (s.nodes a).part.term)
    (hok : s.provenQuorum (.processAppendLogResponses a commitOk) = true)
    (hpart : n.part = { (s.nodes a).part with
      lastLogId := r.lastLogId, lastLogTerm := r.currTerm, role := role, leader := leader,
      committedLogId := committed })
    (hcomm : committed = r.lastLogId ∨ committed = (s.nodes a).part.committedLogId) :
    Steps cfg (s.abs N) (abs { s.setNode a n with
      passed := passedBy a ((s.nodes a).part.wal.iterator (r.committedId + 1) r.lastLogId) ++
        s.passed
      accepted := (a, r.currTerm, r.lastLogId) :: s.accepted } N) := by
  have hwf := hlog.wf a
  obtain ⟨hauthor, hne, hid, hlast⟩ := (hlog.replication a r hr).2 hrole hterm
  rw [hterm] at hauthor
  have hpos : 0 < (s.nodes a).part.wal.full.length := by
    rw [(hsend.intact a).full_eq]
    exact length_pos_iff.mpr hne
  have hlog' : n.part.log = (s.nodes a).part.wal.full := by
    rw [RaftPart.log, hpart]
    simp [hid]
  obtain ⟨Q, hQ, hQacc⟩ := majority_of_provenQuorum hfix hsend hnd ha hr hq hrole hterm hok
  obtain ⟨e, he, hlt⟩ := exists_lastTerm Entry.term (ne_nil_of_length_pos hpos)
  have habs : (s.setNode a n).abs N = { s.abs N with
      log := update (s.abs N).log a (s.nodes a).part.wal.full
      committed := update (s.abs N).committed a committed } := by
    rw [abs_setNode (t := (s.nodes a).part.term) (by rw [hpart]) hlog'
      (by rw [hpart])]
    simp [abs]
  have hself : (s.abs N).author ((s.abs N).term a) = (s.nodes a).part.wal.full := hauthor
  rw [hterm]
  change Steps cfg _ { (s.setNode a n).abs N with
    accepted := (a, (s.abs N).term a, r.lastLogId) :: (s.abs N).accepted
    passed := passedBy a ((s.nodes a).part.wal.iterator (r.committedId + 1) r.lastLogId) ++
      (s.abs N).passed }
  rw [habs]
  refine .tail (.tail (.single (.extend (Y := (s.nodes a).part.wal.full) ?_ ?_))
    (.accept ?_ ?_)) (.choose (t := (s.abs N).term a)
      ⟨by omega, ⟨e, ?_, ?_⟩, Q, hQ, ?_⟩ ?_ ?_ hcomm)
  · exact take_prefix _ _
  · rw [hself]
  · rw [hself, hid]
  · simp only [update_self]
    rw [hself]
    exact take_prefix _ _
  · rw [hself, hid]
    exact he
  · rw [hlt, hlast, hterm]
    rfl
  · intro v hv
    rcases hQacc v hv with rfl | ⟨n', hn', hm⟩
    · exact ⟨r.lastLogId, le_refl _, mem_cons_self⟩
    · rw [hterm] at hm
      exact ⟨n', hn', mem_cons_of_mem _ hm⟩
  · simp only [update_self]
    rw [hself]
    exact take_prefix _ _
  · intro x hx
    obtain ⟨y, hy, rfl⟩ := mem_map.mp hx
    obtain ⟨hpos', hle, hget⟩ := hwf.mem_iterator hy
    simp only [update_self]
    exact ⟨trivial, hpos', hle, hget⟩

/-- **Every step that meets the conditions is a number of steps of the
protocol.** -/
theorem refines (hlog : LogInv s) (hlog' : LogInv s') (hfix : Fixed cfg s)
    (hfix' : Fixed cfg s') (hel : ElectionInv cfg s) (hsend : SendInv s)
    (hauthor : ∀ t, ∀ e ∈ s.termLog t, e.term ≤ t) (hnd : cfg.members.Nodup)
    (hok : s.safetyOk cfg act = true) (he : Effect cfg s act s') (hN : s.Noticed N) :
    ∃ N', s'.Noticed N' ∧ Steps cfg (s.abs N) (s'.abs N') := by
  simp only [safetyOk, sendingOk, Bool.and_eq_true] at hok
  obtain ⟨⟨⟨⟨⟨hmatch, hcurr⟩, hclean⟩, hleads⟩, hjust⟩, hquorum⟩ := hok
  have hfresh := freshElection_of_matchingOk hmatch
  cases he with
  | stir hst =>
    obtain ⟨role, leader, tasks, hpart, -⟩ := hst.part
    exact ⟨N, hN, steps_same (by rw [hpart]) (by rw [hpart]; rfl) (by rw [hpart])⟩
  | drop hnet =>
    refine ⟨N, ?_, .refl⟩
    intro src dst rid req cut hm
    rcases hnet _ hm with hm | ⟨_, _, _, _, h0, -⟩
    · exact hN hm
    · cases h0
  | prepare _ _ =>
    refine ⟨N, ?_, steps_same rfl rfl rfl⟩
    intro src dst rid req cut hm
    rcases mem_append.mp hm with hm | hm
    · exact hN hm
    · obtain ⟨f, -, h0⟩ := mem_map.mp hm
      cases h0
  | @vote i eid recent src dst req hmsg hg =>
    refine ⟨N, ?_, steps_vote (hlog.wf dst) rfl (hel.lt_of_grants hg)⟩
    intro src' dst' rid req' cut hm
    rcases mem_append.mp hm with hm | hm
    · exact hN (mem_of_mem_eraseIdx hm)
    · cases mem_singleton.mp hm
  | collect _ _ _ _ hnet =>
    exact ⟨N, fun hm => hN (hnet _ hm), steps_same rfl rfl rfl⟩
  | win ha hasking hwon =>
    obtain ⟨hlt, -⟩ := lt_of_freshElection hasking hwon hfresh
    exact ⟨N, hN, steps_win hlog hsend rfl hlt (hel.win_fresh hfix hnd ha hasking hwon hlt)
      (by simpa [currentElection, hasking, hwon] using hcurr)
      (hel.electedBy hfix hnd ha hasking hwon _)⟩
  | append _ hlogs hrole happ =>
    exact ⟨N, hN, steps_append hlog hlogs hrole happ rfl⟩
  | replicate _ _ | settle _ _ =>
    exact ⟨N, hN, steps_same rfl rfl rfl⟩
  | @host _ a peer calls' net' out hs =>
    have hsame : ∀ M, (hostOutcome
        { s.setNode a { s.nodes a with calls := calls' } with net := net' } a peer out).abs M =
        s.abs M := by
      intro M
      rw [← abs_setNode_same
        (n := hostNode s a calls' peer out) rfl rfl rfl]
      unfold abs
      rw [hostOutcome_nodes]
      rfl
    cases hreq : out.request with
    | none =>
      refine ⟨N, ?_, by rw [hsame]⟩
      intro src dst rid req cut hm
      simp only [hostOutcome, hreq, append_nil] at hm
      exact hN (hs.mem_net _ hm)
    | some req' =>
      -- the request that is sent is a notice
      obtain ⟨hk, -⟩ := hsend.sent hlog hel hs hreq hleads
      have hcomm := (hsend.intact a).committed_le
      refine ⟨((s.nodes a).part.wal.full.take
        (req'.lastLogIdSent + req'.logStrList.length)).take req'.committedLogId :: N, ?_, ?_⟩
      · intro src dst rid req cut hm
        simp only [hostOutcome, hreq, mem_append, mem_singleton,
          setNode_nodes_self] at hm
        rcases hm with hm | ⟨-, -, -, rfl, rfl⟩
        · exact mem_cons_of_mem _ (hN (hs.mem_net _ hm))
        · exact mem_cons_self
      · rw [hsame]
        refine .single (.notify (a := a) ?_)
        simp only [abs, RaftPart.log, take_take]
        exact take_prefix_take_left (by omega)
  | @receive i rid recent commitOk src dst req cut out hmsg hout =>
    have hrec := hsend.receipt hlog hel hauthor hmsg hout hmatch hjust
    have hm := mem_of_getElem? hmsg
    refine ⟨N, ?_, ?_⟩
    · intro src' dst' rid' req' cut' hm'
      rcases mem_append.mp hm' with hm' | hm'
      · exact hN (mem_of_mem_eraseIdx hm')
      · split at hm'
        · cases hm'
        · cases mem_singleton.mp hm'
    -- first the log, then what is put on record about it
    refine Relation.ReflTransGen.trans (b := abs { s.setNode dst
        { s.nodes dst with part := out.part, dead := out.crashed } with
        passed := passedBy dst out.passed ++ s.passed } N)
      (steps_receive hrec (hsend.request hm) (hN hm) rfl) ?_
    have haccept : Steps cfg _ _ := steps_accept (N := N) hlog' (t := { s.setNode dst
        { s.nodes dst with part := out.part, dead := out.crashed } with
        passed := passedBy dst out.passed ++ s.passed }) rfl rfl (hfix'.addr dst)
    simp only [setNode_nodes_self] at haccept
    exact haccept
  | commit ha hr _ hq hrole hterm hpart _ _ _ _ _ =>
    obtain ⟨role, leader, committed, hpart, -, hcomm⟩ := hpart
    exact ⟨N, hN, steps_commit hlog hfix hsend hnd ha hr hq hrole hterm hquorum hpart hcomm⟩
  | clean _ => cases hclean

/-! ### Runs -/

theorem matchingOk_of_safetyOk (h : s.safetyOk cfg act = true) : s.matchingOk act = true := by
  simp only [safetyOk, sendingOk, Bool.and_eq_true] at h
  exact h.1.1.1.1.1

theorem SendInv.forget (h : SendInv s) : SendInv { s with acked := [] } :=
  ⟨h.intact, h.remembered, h.request, h.vote, h.results⟩

/-- The group sends only what it should, and stands for a state of the protocol
that can be reached. -/
def Refined (cfg : Config) (s : Group) : Prop :=
  SendInv s ∧ ∃ N, s.Noticed N ∧ Consensus.Inv Entry.term cfg.members (s.abs N)

theorem refined_init (cfg : Config) : Refined cfg (init cfg) := by
  refine ⟨sendInv_init cfg, [], ?_, Consensus.inv_init Entry.term cfg.members⟩
  intro src dst rid req cut hm
  cases hm

theorem Refined.step (h : Refined cfg s) (hlog : LogInv s) (hlog' : LogInv s')
    (hfix : Fixed cfg s) (hfix' : Fixed cfg s') (hel : ElectionInv cfg s)
    (hnd : cfg.members.Nodup) (hok : s.safetyOk cfg act = true)
    (he : Effect cfg s act s') : Refined cfg s' := by
  obtain ⟨hsend, N, hN, hinv⟩ := h
  have hauthor : ∀ t, ∀ e ∈ s.termLog t, e.term ≤ t := hinv.author.le
  have hok' : s.sendingOk cfg act = true := by
    simp only [safetyOk, Bool.and_eq_true] at hok
    exact hok.1
  obtain ⟨N', hN', hsteps⟩ := refines hlog hlog' hfix hfix' hel hsend hauthor hnd hok he hN
  exact ⟨hsend.effect hlog hfix hel hauthor hnd hok' he, N', hN', hinv.steps hsteps⟩

theorem refined_of_reach (hnd : cfg.members.Nodup)
    (h : Reach (step cfg) (fun s act => s.safetyOk cfg act = true) (init cfg) s) :
    Refined cfg s := by
  have hfresh (s : Group) (act : Action) (h : s.safetyOk cfg act = true) :
      s.freshElection act = true := freshElection_of_matchingOk (matchingOk_of_safetyOk h)
  induction h with
  | refl => exact refined_init cfg
  | @tail t u act hr hstep hs ih =>
    obtain ⟨hfix, hel⟩ := electionInv_of_reach hnd hfresh hr
    obtain ⟨hfix', -⟩ := electionInv_of_reach hnd hfresh (hr.tail hstep hs)
    have hlog := logInv_of_reach hnd (fun _ _ => matchingOk_of_safetyOk) hr
    have hlog' := logInv_of_reach hnd (fun _ _ => matchingOk_of_safetyOk) (hr.tail hstep hs)
    have hforget : Refined cfg { t with acked := [] } := by
      obtain ⟨hsend, N, hN, hinv⟩ := ih
      exact ⟨hsend.forget, N, hN, hinv⟩
    exact hforget.step hlog.forget hlog' hfix.forget hfix' hel.forget hnd hstep (step_effect hs)

/-- **State machine safety.**  In every run that meets the conditions of log
matching, in which candidates win with the log they asked for votes with, only
leaders of a term send requests of that term, logs are cut at conflicts only,
nothing is cleaned, and leaders count only followers that have accepted the log,
no two partitions pass different entries to `commitLogs` under one id. -/
theorem stateMachineSafe_of_safetyOk (cfg : Config) (hnd : cfg.members.Nodup) {s : Group}
    (h : Reach (step cfg) (fun s act => s.safetyOk cfg act = true) (init cfg) s) :
    s.StateMachineSafe := by
  obtain ⟨-, N, -, hinv⟩ := refined_of_reach hnd h
  intro a b id e f he hf
  exact hinv.agree he hf

theorem stateMachineSafe_catchUpRun :
    ∃ s, Reach (step trio) (fun s act => s.safetyOk trio act = true) (init trio) s ∧
      s.passed.map (fun x => (x.1, x.2.1, x.2.2.term)) =
        [((2, 2), 2, 1), ((2, 2), 3, 2), ((3, 3), 1, 1), ((1, 1), 2, 1), ((2, 2), 1, 1),
         ((1, 1), 1, 1)] ∧ s.StateMachineSafe := by
  obtain ⟨s, hreach, hs⟩ := exists_reach_of_run (step trio)
    (fun s act => s.safetyOk trio act = true) (init trio)
    (fun s => decide (s.passed.map (fun x => (x.1, x.2.1, x.2.2.term)) =
        [((2, 2), 2, 1), ((2, 2), 3, 2), ((3, 3), 1, 1), ((1, 1), 2, 1), ((2, 2), 1, 1),
         ((1, 1), 1, 1)]))
    catchUpRun (by decide +kernel)
  exact ⟨s, hreach, of_decide_eq_true hs, stateMachineSafe_of_safetyOk trio (by decide) hreach⟩

/-- A leader of the newest term has every entry that was ever passed to `commitLogs`. -/
def LeaderComplete (s : Group) : Prop :=
  ∀ a id e b, (a, id, e) ∈ s.passed → (s.nodes b).part.role = .leader →
    (∀ c, (s.nodes c).part.term ≤ (s.nodes b).part.term) →
    (s.nodes b).part.wal.full[id - 1]? = some e

/-- **Leader completeness**, in the same runs: no entry that any partition has committed
is lost. -/
theorem leaderComplete_of_safetyOk (cfg : Config) (hnd : cfg.members.Nodup) {s : Group}
    (h : Reach (step cfg) (fun s act => s.safetyOk cfg act = true) (init cfg) s) :
    s.LeaderComplete := by
  intro a id e b he hrole hnew
  obtain ⟨-, N, -, hinv⟩ := refined_of_reach hnd h
  have hlog := logInv_of_reach hnd (fun _ _ => matchingOk_of_safetyOk) h
  obtain ⟨w, hw, -, hterm⟩ := hlog.leaderWon b hrole
  rw [← hterm] at hnew
  obtain ⟨t, n, hc, hpos, hle, hget⟩ := hinv.safe.passed a id e he
  rw [← getElem?_take_of_lt (show id - 1 < n by omega)] at hget
  have hent : (s.termLog w.term)[id - 1]? = some e :=
    getElem?_of_isPrefix (hinv.chosen_isPrefix_newest hc (mem_map_of_mem hw) hnew) hget
  rw [hterm] at hent
  rcases hlog.leaderLog b hrole with h0 | ⟨h0, -⟩
  · rw [h0] at hent
    exact getElem?_of_isPrefix (RaftPart.log_isPrefix _) hent
  · rw [← h0]
    exact hent

theorem leaderComplete_catchUpRun :
    ∃ s, Reach (step trio) (fun s act => s.safetyOk trio act = true) (init trio) s ∧
      (s.passed.length = 6 ∧ (s.nodes (2, 2)).part.role = .leader) ∧ s.LeaderComplete := by
  obtain ⟨s, h, hs⟩ := exists_reach_of_run (step trio)
    (fun s act => s.safetyOk trio act = true) (init trio)
    (fun s => decide (s.passed.length = 6 ∧ (s.nodes (2, 2)).part.role = .leader))
    catchUpRun (by decide +kernel)
  exact ⟨s, h, of_decide_eq_true hs, leaderComplete_of_safetyOk trio (by decide) h⟩

/-- The first partition, leader of term 1, has the second one write log 1, but
hears only of an exception.  The third becomes leader of term 2 with the vote of
the first, which gives up its log 1, and writes another log 1.  The second drops
its log 1, since its last term differs from that of the request, answers
`E_LOG_GAP` with last log 0, and the third takes that for success, since 0 is the
last log it had sent. -/
def gapRun : List Action :=
  [.startElection (1, 1) false, .prepareElection (1, 1) 0, .recvVoteRequest 0 false,
   .recvVoteResponse 1, .processElection (1, 1) 0, .announceLeader (1, 1) 0,
   .appendLogs (1, 1) [(0, .data [1])], .replicateLogs (1, 1), .hostAppendLogs (1, 1) 0,
   .hostAppendLogs (1, 1) 0, .recvAppendRequest 1 false true,
   .appendException (1, 1) (2, 2), .appendException (1, 1) (3, 3),
   .startElection (3, 3) false, .prepareElection (3, 3) 0, .voteException (3, 3) (1, 1) 0,
   .voteException (3, 3) (2, 2) 0, .processElection (3, 3) 0,
   .startElection (3, 3) false, .prepareElection (3, 3) 1, .recvVoteRequest 5 false,
   .recvVoteResponse 6, .processElection (3, 3) 1, .announceLeader (3, 3) 1,
   .appendLogs (3, 3) [(0, .data [2])], .replicateLogs (3, 3), .hostAppendLogs (3, 3) 1,
   .recvAppendRequest 6 false true, .recvAppendResponse 6]

/-- After `gapRun` the third partition commits its log 1, which nobody else has.
The first partition is elected for term 3 with the vote of the second, and
commits another log 1. -/
def lostRun : List Action :=
  gapRun ++
  [.processAppendLogResponses (3, 3) true, .processAppendLogResponses (1, 1) true,
   .replicateLogs (1, 1), .startElection (1, 1) true, .prepareElection (1, 1) 1,
   .recvVoteRequest 6 false, .recvVoteResponse 7, .processElection (1, 1) 1,
   .appendLogs (1, 1) [(0, .data [3])], .replicateLogs (1, 1), .hostAppendLogs (1, 1) 0,
   .recvAppendRequest 7 false true, .recvAppendResponse 7,
   .processAppendLogResponses (1, 1) true]

/-- **Different entries may be committed under one id**, without a snapshot and
without cleaning. -/
theorem not_stateMachineSafe_lostRun :
    ∃ s, Reach (step trio) (fun s act => s.noSnapshot act = true ∧ noCleaning act = true)
        (init trio) s ∧ ¬ s.StateMachineSafe := by
  obtain ⟨s, hreach, hs⟩ := exists_reach_of_run (step trio)
    (fun s act => s.noSnapshot act = true ∧ noCleaning act = true) (init trio)
    (fun s => decide (((3, 3), 1, ⟨2, 0, .data [2]⟩) ∈ s.passed ∧
      ((1, 1), 1, ⟨3, 0, .data [3]⟩) ∈ s.passed))
    lostRun (by decide +kernel)
  obtain ⟨h2, h3⟩ := of_decide_eq_true hs
  refine ⟨s, hreach, fun hsafe => ?_⟩
  have heq := hsafe _ _ _ _ _ h2 h3
  cases heq

end Group
end K2Graph.Raft
