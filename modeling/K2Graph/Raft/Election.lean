import Mathlib.Data.Finset.Card
import K2Graph.Lib.Run
import K2Graph.Raft.Effect

/-!
# Election safety

At most one partition should ever become leader of a given term.  The code does
not ensure this: `verifyLeader` lowers `proposedTerm_` when a candidate follows an
older leader, and the election that partition had started goes on.  When a
transfer of leadership makes it a candidate again, the old election may still be
won, for a term in which the partition has meanwhile voted for another.

With the check the code leaves out, that the term to be entered is larger than
`term_` and not larger than `proposedTerm_`, it is ensured.

## Main results

* `Group.electionSafe_of_freshElection` — with the check, all runs are safe.
* `Group.not_electionSafe_transferRun` — without it, a run has two leaders of
  term 2.
-/

namespace K2Graph.Raft

open List RaftPart

/-! ### The fixed membership -/

/-- The other members. -/
def Config.peers (cfg : Config) (a : HostAddr) : List HostAddr := cfg.members.filter (· ≠ a)

variable {a : HostAddr}

theorem Config.length_peers (cfg : Config) (hnd : cfg.members.Nodup) (ha : a ∈ cfg.members) :
    (cfg.peers a).length + 1 = cfg.members.length := by
  have heq : cfg.peers a = cfg.members.erase a := by
    rw [hnd.erase_eq_filter]
    refine filter_congr fun b _ => ?_
    by_cases hb : b = a
    · simp [hb]
    · simp [hb]
  rw [heq, length_erase_of_mem ha]
  have := length_pos_of_mem ha
  omega

variable {polling : Bool} {results : List (HostAddr × Option ErrorCode)} {req : AskForVoteRequest}

namespace Group

structure Fixed (cfg : Config) (s : Group) : Prop where
  addr : ∀ a, (s.nodes a).part.addr = a
  hosts : ∀ a, (s.nodes a).part.hosts = (cfg.peers a).map fun b => ⟨b, false⟩
  quorum : ∀ a, (s.nodes a).part.quorum = ((cfg.peers a).length + 1) / 2

variable {cfg : Config} {s s' : Group} {act : Action}

theorem fixed_init (cfg : Config) : Fixed cfg (init cfg) :=
  ⟨fun _ => rfl, fun _ => rfl, fun _ => rfl⟩

theorem Fixed.setNode (h : Fixed cfg s) (hnodes : s'.nodes = (s.setNode a n).nodes)
    (haddr : n.part.addr = (s.nodes a).part.addr) (hhosts : n.part.hosts = (s.nodes a).part.hosts)
    (hquorum : n.part.quorum = (s.nodes a).part.quorum) : Fixed cfg s' := by
  refine ⟨fun b => ?_, fun b => ?_, fun b => ?_⟩
  · rw [hnodes, setNode_nodes]
    split
    · rename_i hb; rw [hb, haddr]; exact h.addr a
    · exact h.addr b
  · rw [hnodes, setNode_nodes]
    split
    · rename_i hb; rw [hb, hhosts]; exact h.hosts a
    · exact h.hosts b
  · rw [hnodes, setNode_nodes]
    split
    · rename_i hb; rw [hb, hquorum]; exact h.quorum a
    · exact h.quorum b

theorem Fixed.effect (h : Fixed cfg s) (he : Effect cfg s act s') : Fixed cfg s' := by
  cases he with
  | stir hst =>
    obtain ⟨role, leader, tasks, hpart, -⟩ := hst.part
    exact h.setNode rfl (by rw [hpart]) (by rw [hpart]) (by rw [hpart])
  | drop _ => exact ⟨h.addr, h.hosts, h.quorum⟩
  | prepare _ _ | collect _ _ _ _ _ | win _ _ _ | replicate _ _ | settle _ _ | clean _ =>
    exact h.setNode rfl rfl rfl rfl
  | @vote i eid recent src dst req _ _ =>
    obtain ⟨wal, heq, -⟩ := (s.nodes dst).part.stepDown_eq
    refine h.setNode rfl ?_ ?_ ?_
    · simp [voteFor, heq]
    · simp [voteFor, heq]
    · simp [voteFor, heq]
  | append _ _ _ happ =>
    have hp := appendToWal_alike happ
    exact h.setNode rfl hp.addr hp.hosts hp.quorum
  | host _ => exact h.setNode (hostOutcome_nodes s _ _ _ _ _) rfl rfl rfl
  | @receive i rid recent commitOk src dst req cut out hnet hout =>
    obtain ⟨q, hq, halike⟩ :=
      (s.nodes dst).part.processAppendLogRequest_alike req recent commitOk
    rw [← hout] at halike
    have hkeep : q.addr = (s.nodes dst).part.addr ∧ q.hosts = (s.nodes dst).part.hosts ∧
        q.quorum = (s.nodes dst).part.quorum := by
      rcases hq with rfl | hq
      · exact ⟨rfl, rfl, rfl⟩
      · obtain ⟨wal, role, leader, heq, -⟩ := hq.eq
        rw [heq]
        exact ⟨rfl, rfl, rfl⟩
    exact h.setNode rfl (halike.addr.trans hkeep.1) (halike.hosts.trans hkeep.2.1)
      (halike.quorum.trans hkeep.2.2)
  | commit _ _ _ _ _ _ hpart _ _ _ _ _ =>
    obtain ⟨role, leader, committed, hpart, -⟩ := hpart
    exact h.setNode rfl (by rw [hpart]) (by rw [hpart]) (by rw [hpart])

theorem Fixed.isFollower_iff (h : Fixed cfg s) (a b : HostAddr) :
    (s.nodes a).part.isFollower b = true ↔ b ∈ cfg.members ∧ b ≠ a := by
  simp [isFollower, followers, h.hosts a, Config.peers]

/-! ### The property and the check that is left out -/

/-- No two partitions became leader of the same term. -/
def ElectionSafe (s : Group) : Prop :=
  ∀ w ∈ s.wins, ∀ w' ∈ s.wins, w.term = w'.term → w.leader = w'.leader

/-- A partition that becomes leader enters a term larger than its own, which it
has not meanwhile given up to propose. -/
def freshElection (s : Group) : Action → Bool
  | .processElection a eid =>
      match (s.nodes a).elections[eid]? with
      | some ⟨_, .asking req results⟩ =>
          !(s.nodes a).part.isElected (numVotes results) ||
            decide ((s.nodes a).part.term < req.term ∧ req.term ≤ (s.nodes a).part.proposedTerm)
      | _ => true
  | _ => true

variable {eid : ℕ}

theorem lt_of_freshElection
    (he : (s.nodes a).elections[eid]? = some ⟨polling, .asking req results⟩)
    (hel : (s.nodes a).part.isElected (numVotes results) = true)
    (hok : s.freshElection (.processElection a eid) = true) :
    (s.nodes a).part.term < req.term ∧ req.term ≤ (s.nodes a).part.proposedTerm := by
  simpa [freshElection, he, hel] using hok

/-! ### The invariant -/

/-- A majority voted for the winner, which counts its own vote. -/
def ElectedBy (cfg : Config) (votes : List Vote) (w : Win) : Prop :=
  ∃ Q : Finset HostAddr, Q ⊆ cfg.members.toFinset ∧ cfg.members.length < 2 * Q.card ∧
    ∀ v ∈ Q, v = w.leader ∨ ∃ x ∈ votes, x.voter = v ∧ x.req = w.req

/-- An election that is being held was prepared once, with a request that answers
in the net refer to. -/
structure ElectionInv (cfg : Config) (s : Group) : Prop where
  term_le : ∀ a, (s.nodes a).part.term ≤ (s.nodes a).part.proposedTerm
  voteReq : ∀ {src dst eid req}, .voteReq src dst eid req ∈ s.net →
    dst ∈ cfg.members ∧ ∃ e, (s.nodes src).elections[eid]? = some e ∧ e.stage ≠ .starting ∧
      ∀ polling req' results, e = ⟨polling, .asking req' results⟩ → req' = req
  voteResp : ∀ {src dst eid}, .voteResp src dst eid .succeeded ∈ s.net →
    ∃ e, (s.nodes dst).elections[eid]? = some e ∧ e.stage ≠ .starting ∧
      ∀ polling req results, e = ⟨polling, .asking req results⟩ →
        ∃ x ∈ s.votes, x.voter = src ∧ x.req = req
  asking : ∀ {a : HostAddr} {eid : ℕ} {polling : Bool} {req : AskForVoteRequest}
    {results : List (HostAddr × Option ErrorCode)}, (s.nodes a).elections[eid]? =
      some ⟨polling, .asking req results⟩ →
    req.candidate = a ∧ 0 < req.term ∧ (results.map Prod.fst).Nodup ∧
      ∀ r ∈ results, r.1 ∈ cfg.members ∧ r.1 ≠ a ∧
        (r.2 = some .succeeded → ∃ x ∈ s.votes, x.voter = r.1 ∧ x.req = req)
  vote : ∀ x ∈ s.votes, x.req.term ≤ (s.nodes x.voter).part.term
  vote_unique : ∀ x ∈ s.votes, ∀ y ∈ s.votes, x.voter = y.voter → x.req.term = y.req.term →
    x.req = y.req
  win : ∀ w ∈ s.wins, 0 < w.term ∧ w.term ≤ (s.nodes w.leader).part.term ∧
    w.req.candidate = w.leader ∧ (∀ x ∈ s.votes, x.voter = w.leader → x.req.term ≠ w.term) ∧
    ElectedBy cfg s.votes w
  win_unique : ∀ w ∈ s.wins, ∀ w' ∈ s.wins, w.term = w'.term → w = w'

theorem electionInv_init (cfg : Config) : ElectionInv cfg (init cfg) where
  term_le := fun _ => Nat.le_refl _
  voteReq := by simp [init]
  voteResp := by simp [init]
  asking := by simp [init, Node.init]
  vote := by simp [init]
  vote_unique := by simp [init]
  win := by simp [init]
  win_unique := by simp [init]

/-- What most steps leave as it is. -/
structure ElectionFrame (s s' : Group) : Prop where
  term : ∀ a, ((s'.nodes a).part.term = (s.nodes a).part.term ∧
      (s'.nodes a).part.proposedTerm = (s.nodes a).part.proposedTerm) ∨
    ((s.nodes a).part.term ≤ (s'.nodes a).part.term ∧
      (s'.nodes a).part.proposedTerm = (s'.nodes a).part.term)
  elections : ∀ a, Evolves (s.nodes a).elections (s'.nodes a).elections
  voteReq : ∀ {src dst eid req}, .voteReq src dst eid req ∈ s'.net →
    .voteReq src dst eid req ∈ s.net
  voteResp : ∀ {src dst eid}, .voteResp src dst eid .succeeded ∈ s'.net →
    .voteResp src dst eid .succeeded ∈ s.net
  votes : s'.votes = s.votes
  wins : s'.wins = s.wins

theorem ElectionFrame.term_mono (hf : ElectionFrame s s') (a : HostAddr) :
    (s.nodes a).part.term ≤ (s'.nodes a).part.term := by
  rcases hf.term a with h | h
  · exact h.1.ge
  · exact h.1

theorem ElectionInv.frame (h : ElectionInv cfg s) (hf : ElectionFrame s s') :
    ElectionInv cfg s' where
  term_le := by
    intro a
    rcases hf.term a with ht | ht
    · rw [ht.1, ht.2]; exact h.term_le a
    · exact ht.2.ge
  voteReq := by
    intro src dst eid req hm
    obtain ⟨hdst, e, he, hstart, hreq⟩ := h.voteReq (hf.voteReq hm)
    obtain ⟨e', he', hstart'⟩ := (hf.elections src).prepared he hstart
    refine ⟨hdst, e', he', hstart', ?_⟩
    rintro polling req' results rfl
    have hold := (hf.elections src).asking he'
    rw [he, Option.some.injEq] at hold
    exact hreq polling req' results hold
  voteResp := by
    intro src dst eid hm
    obtain ⟨e, he, hstart, hreq⟩ := h.voteResp (hf.voteResp hm)
    obtain ⟨e', he', hstart'⟩ := (hf.elections dst).prepared he hstart
    refine ⟨e', he', hstart', ?_⟩
    rintro polling req results rfl
    have hold := (hf.elections dst).asking he'
    rw [he, Option.some.injEq] at hold
    rw [hf.votes]
    exact hreq polling req results hold
  asking := by
    intro a eid polling req results he
    rw [hf.votes]
    exact h.asking ((hf.elections a).asking he)
  vote := by
    intro x hx
    rw [hf.votes] at hx
    exact (h.vote x hx).trans (hf.term_mono x.voter)
  vote_unique := by
    rw [hf.votes]
    exact h.vote_unique
  win := by
    intro w hw
    rw [hf.wins] at hw
    obtain ⟨hpos, hle, hcand, hown, hq⟩ := h.win w hw
    rw [hf.votes]
    exact ⟨hpos, hle.trans (hf.term_mono w.leader), hcand, hown, hq⟩
  win_unique := by
    rw [hf.wins]
    exact h.win_unique

/-- A step that changes one partition. -/
theorem electionFrame_setNode (hnodes : s'.nodes = (s.setNode a n).nodes)
    (hterm : (n.part.term = (s.nodes a).part.term ∧
        n.part.proposedTerm = (s.nodes a).part.proposedTerm) ∨
      ((s.nodes a).part.term ≤ n.part.term ∧ n.part.proposedTerm = n.part.term))
    (hel : Evolves (s.nodes a).elections n.elections)
    (hnet : ∀ m ∈ s'.net, m ∈ s.net ∨
      (∀ src dst eid req, m ≠ .voteReq src dst eid req) ∧
        ∀ src dst eid, m ≠ .voteResp src dst eid .succeeded) (hvotes : s'.votes = s.votes)
    (hwins : s'.wins = s.wins) : ElectionFrame s s' where
  term := by
    intro b
    rw [hnodes, setNode_nodes]
    split
    · rename_i hb; rw [hb]; exact hterm
    · exact .inl ⟨rfl, rfl⟩
  elections := by
    intro b
    rw [hnodes, setNode_nodes]
    split
    · rename_i hb; rw [hb]; exact hel
    · exact Evolves.refl _
  voteReq := by
    intro src dst eid req hm
    rcases hnet _ hm with h | h
    · exact h
    · exact absurd rfl (h.1 src dst eid req)
  voteResp := by
    intro src dst eid hm
    rcases hnet _ hm with h | h
    · exact h
    · exact absurd rfl (h.2 src dst eid)
  votes := hvotes
  wins := hwins

theorem ElectionInv.electedBy (h : ElectionInv cfg s) (hfix : Fixed cfg s)
    (hnd : cfg.members.Nodup) (ha : a ∈ cfg.members)
    (he : (s.nodes a).elections[eid]? = some ⟨polling, .asking req results⟩)
    (hel : (s.nodes a).part.isElected (numVotes results) = true) (log : List (Entry LogMsg)) :
    ElectedBy cfg s.votes ⟨a, req, log⟩ := by
  obtain ⟨-, -, hkeys, hres⟩ := h.asking he
  let yes := (results.filter fun r => decide (r.2 = some .succeeded)).map Prod.fst
  have hyes : ∀ v ∈ yes, v ∈ cfg.members ∧ v ≠ a ∧ ∃ x ∈ s.votes, x.voter = v ∧ x.req = req := by
    intro v hv
    obtain ⟨r, hr, rfl⟩ := mem_map.mp hv
    obtain ⟨hr, hcode⟩ := mem_filter.mp hr
    obtain ⟨hmem, hne, hvote⟩ := hres r hr
    exact ⟨hmem, hne, hvote (of_decide_eq_true hcode)⟩
  have hnodup : (a :: yes).Nodup := by
    refine nodup_cons.mpr ⟨fun hmem => (hyes a hmem).2.1 rfl, ?_⟩
    exact hkeys.sublist (filter_sublist.map Prod.fst)
  have hcount : numVotes results = yes.length := by
    simp [yes, numVotes, countP_eq_length_filter]
  refine ⟨(a :: yes).toFinset, ?_, ?_, ?_⟩
  · intro v hv
    rw [mem_toFinset, mem_cons] at hv
    rw [mem_toFinset]
    rcases hv with rfl | hv
    · exact ha
    · exact (hyes v hv).1
  · rw [toFinset_card_of_nodup hnodup, length_cons]
    simp only [isElected, Bool.and_eq_true, decide_eq_true_eq] at hel
    have hq := hel.2
    rw [hfix.quorum a, cfg.length_peers hnd ha] at hq
    omega
  · intro v hv
    rw [mem_toFinset, mem_cons] at hv
    rcases hv with rfl | hv
    · exact .inl rfl
    · exact .inr (hyes v hv).2.2

/-- **The term of a new leader has not been won before**, if it is larger than
the leader's own. -/
theorem ElectionInv.win_fresh (h : ElectionInv cfg s) (hfix : Fixed cfg s)
    (hnd : cfg.members.Nodup) (ha : a ∈ cfg.members)
    (he : (s.nodes a).elections[eid]? = some ⟨polling, .asking req results⟩)
    (hel : (s.nodes a).part.isElected (numVotes results) = true)
    (hlt : (s.nodes a).part.term < req.term) : ∀ w ∈ s.wins, w.term ≠ req.term := by
  intro w hw hterm
  obtain ⟨-, hle, hcand, hown, Q, hQ, hcard, hvotes⟩ := h.win w hw
  obtain ⟨Q', hQ', hcard', hvotes'⟩ := h.electedBy hfix hnd ha he hel []
  have hne : w.leader ≠ a := by
    intro heq
    rw [heq] at hle
    omega
  -- a member in both majorities
  have hinter : (Q ∩ Q').Nonempty := by
    refine Finset.inter_nonempty_of_card_lt_card_add_card hQ hQ' ?_
    rw [toFinset_card_of_nodup hnd]
    omega
  obtain ⟨v, hv⟩ := hinter
  rw [Finset.mem_inter] at hv
  rcases hvotes v hv.1 with rfl | ⟨x, hx, hxv, hxr⟩
  · rcases hvotes' _ hv.2 with h0 | ⟨y, hy, hyv, hyr⟩
    · exact hne h0
    · exact hown y hy hyv (by rw [hyr, hterm])
  rcases hvotes' v hv.2 with h0 | ⟨y, hy, hyv, hyr⟩
  · have := h.vote x hx
    rw [hxv, h0, hxr] at this
    change w.term ≤ _ at this
    simp only at this
    omega
  · have hreq := h.vote_unique x hx y hy (hxv.trans hyv.symm) (by rw [hxr, hyr]; exact hterm)
    rw [hxr, hyr] at hreq
    exact hne (by rw [← hcand, hreq]; exact (h.asking he).1)

/-! ### Every step keeps the invariant -/

theorem elections_setNode (hel : n.elections = (s.nodes a).elections.set eid e₁)
    (he : (s.nodes a).elections[eid]? = some e₀) (b : HostAddr) (eid' : ℕ) :
    ((s.setNode a n).nodes b).elections[eid']? =
      if b = a ∧ eid' = eid then some e₁ else (s.nodes b).elections[eid']? := by
  have hlt : eid < (s.nodes a).elections.length := (List.getElem?_eq_some_iff.mp he).1
  rw [setNode_nodes]
  by_cases hb : b = a
  · rw [if_pos hb, hb, hel, getElem?_set]
    by_cases hid : eid = eid'
    · rw [if_pos hid, if_pos (hid ▸ hlt), if_pos ⟨rfl, hid.symm⟩]
    · rw [if_neg hid, if_neg fun hc => hid hc.2.symm]
  · rw [if_neg hb, if_neg fun hc => hb hc.1]

theorem term_setNode (hterm : (s.nodes a).part.term ≤ n.part.term) (b : HostAddr) :
    (s.nodes b).part.term ≤ ((s.setNode a n).nodes b).part.term := by
  rw [setNode_nodes]
  split
  · rename_i hb; rw [hb]; exact hterm
  · exact le_refl _

theorem term_le_setNode (h : ElectionInv cfg s) (hterm : n.part.term ≤ n.part.proposedTerm)
    (b : HostAddr) :
    ((s.setNode a n).nodes b).part.term ≤ ((s.setNode a n).nodes b).part.proposedTerm := by
  rw [setNode_nodes]
  split
  · exact hterm
  · exact h.term_le b

theorem ElectedBy.mono {votes : List Vote} (h : ElectedBy cfg votes w)
    (hsub : ∀ x ∈ votes, x ∈ votes') : ElectedBy cfg votes' w := by
  obtain ⟨Q, hQ, hcard, hvotes⟩ := h
  refine ⟨Q, hQ, hcard, fun v hv => ?_⟩
  rcases hvotes v hv with h0 | ⟨x, hx, hxv⟩
  · exact .inl h0
  · exact .inr ⟨x, hsub x hx, hxv⟩

section

variable (h : ElectionInv cfg s)
include h

theorem ElectionInv.prepare (hfix : Fixed cfg s) {a : HostAddr} {polling : Bool} {n : Node}
    (he : (s.nodes a).elections[eid]? = some ⟨polling, .starting⟩)
    (hterm : n.part.term = (s.nodes a).part.term)
    (hprop : n.part.proposedTerm = (s.nodes a).part.proposedTerm + 1)
    (hel : n.elections = (s.nodes a).elections.set eid ⟨polling,
      .asking (s.nodes a).part.voteRequest []⟩) :
    ElectionInv cfg { s.setNode a n with
      net := s.net ++ (s.nodes a).part.followers.map fun f =>
        .voteReq a f.addr eid (s.nodes a).part.voteRequest } where
  term_le := by
    refine term_le_setNode h ?_
    rw [hterm, hprop]
    exact (h.term_le a).trans (Nat.le_succ _)
  voteReq := by
    intro src dst eid' req hm
    rw [elections_setNode hel he]
    rcases mem_append.mp hm with hm | hm
    · obtain ⟨hdst, e, he', hstart, hreq⟩ := h.voteReq hm
      refine ⟨hdst, ?_⟩
      split
      · -- the election has not been prepared before
        rename_i hsame
        rw [hsame.1, hsame.2, he, Option.some.injEq] at he'
        exact absurd (by rw [← he']) hstart
      · exact ⟨e, he', hstart, hreq⟩
    · obtain ⟨f, hf, heq⟩ := mem_map.mp hm
      cases heq
      have hfol : (s.nodes a).part.isFollower f.addr = true := by
        simp only [isFollower, any_eq_true]
        exact ⟨f, hf, by simp⟩
      refine ⟨((hfix.isFollower_iff a f.addr).mp hfol).1, _, if_pos ⟨rfl, rfl⟩, by simp, ?_⟩
      intro polling' req' results heq
      simp only [Election.mk.injEq, Stage.asking.injEq] at heq
      exact heq.2.1.symm
  voteResp := by
    intro src dst eid' hm
    rw [elections_setNode hel he]
    rcases mem_append.mp hm with hm | hm
    · obtain ⟨e, he', hstart, hreq⟩ := h.voteResp hm
      split_ifs with hsame
      · rw [hsame.1, hsame.2, he, Option.some.injEq] at he'
        exact absurd (by rw [← he']) hstart
      · exact ⟨e, he', hstart, hreq⟩
    · obtain ⟨f, hf, heq⟩ := mem_map.mp hm
      cases heq
  asking := by
    intro b eid' polling' req results he'
    rw [elections_setNode hel he] at he'
    split_ifs at he' with hsame
    · obtain ⟨rfl, rfl, rfl⟩ := he'
      rw [hsame.1]
      exact ⟨hfix.addr a, Nat.succ_pos _, by simp, by simp⟩
    · exact h.asking he'
  vote := fun x hx => (h.vote x hx).trans (term_setNode hterm.ge x.voter)
  vote_unique := h.vote_unique
  win := by
    intro w hw
    obtain ⟨hpos, hle, hrest⟩ := h.win w hw
    exact ⟨hpos, hle.trans (term_setNode hterm.ge w.leader), hrest⟩
  win_unique := h.win_unique

theorem ElectionInv.lt_of_grants (hg : (s.nodes dst).part.Grants req) :
    (s.nodes dst).part.term < req.term := by
  have hg' := hg.term
  have hle := h.term_le dst
  unfold voteTerm at hg'
  split at hg' <;> omega

variable {log : List (Entry LogMsg)}

theorem ElectionInv.grant (hmsg : s.net[i]? = some (.voteReq src dst eid req))
    (hg : (s.nodes dst).part.Grants req) (hterm : n.part.term = req.term)
    (hprop : n.part.proposedTerm = req.term) (hel : n.elections = (s.nodes dst).elections) :
    ElectionInv cfg { s.setNode dst n with
      net := s.net.eraseIdx i ++ [.voteResp dst src eid .succeeded]
      votes := ⟨dst, req, log⟩ :: s.votes } := by
  have hlt := h.lt_of_grants hg
  have helections : ∀ b, ((s.setNode dst n).nodes b).elections = (s.nodes b).elections := by
    intro b
    rw [setNode_nodes]
    split
    · rename_i hb; rw [hb, hel]
    · rfl
  have hmono : ∀ b, (s.nodes b).part.term ≤ ((s.setNode dst n).nodes b).part.term :=
    term_setNode (by omega)
  have hsub : ∀ x ∈ s.votes, x ∈ ⟨dst, req, log⟩ :: s.votes :=
    fun x hx => mem_cons_of_mem _ hx
  constructor
  case term_le =>
    exact term_le_setNode h (by omega)
  case voteReq =>
    intro src' dst' eid' req' hm
    rw [mem_append, mem_singleton] at hm
    rcases hm with hm | hm
    · rw [helections]
      exact h.voteReq (mem_of_mem_eraseIdx hm)
    · cases hm
  case voteResp =>
    intro src' dst' eid' hm
    rw [mem_append, mem_singleton] at hm
    rw [helections]
    rcases hm with hm | hm
    · obtain ⟨e, he, hstart, hreq⟩ := h.voteResp (mem_of_mem_eraseIdx hm)
      refine ⟨e, he, hstart, fun polling req' results heq => ?_⟩
      obtain ⟨x, hx, hxv⟩ := hreq polling req' results heq
      exact ⟨x, hsub x hx, hxv⟩
    · cases hm
      obtain ⟨-, e, he, hstart, hreq⟩ := h.voteReq (mem_of_getElem? hmsg)
      refine ⟨e, he, hstart, fun polling req' results heq => ?_⟩
      rw [hreq polling req' results heq]
      exact ⟨_, mem_cons_self, rfl, rfl⟩
  case asking =>
    intro b eid' polling req' results he
    rw [helections] at he
    obtain ⟨hcand, hpos, hkeys, hres⟩ := h.asking he
    refine ⟨hcand, hpos, hkeys, fun r hr => ?_⟩
    obtain ⟨hmem, hne, hvote⟩ := hres r hr
    refine ⟨hmem, hne, fun hcode => ?_⟩
    obtain ⟨x, hx, hxv⟩ := hvote hcode
    exact ⟨x, hsub x hx, hxv⟩
  case vote =>
    refine forall_mem_cons.mpr ⟨?_, fun x hx => (h.vote x hx).trans (hmono x.voter)⟩
    rw [setNode_nodes_self, hterm]
  case vote_unique =>
    -- the voter's own term was smaller than the one it votes in
    intro x hx y hy hv ht
    rw [mem_cons] at hx hy
    rcases hx with rfl | hx
    · rcases hy with rfl | hy
      · rfl
      have := h.vote y hy
      simp only at hv ht
      rw [← hv] at this
      omega
    · rcases hy with rfl | hy
      · have := h.vote x hx
        simp only at hv ht
        rw [hv] at this
        omega
      · exact h.vote_unique x hx y hy hv ht
  case win =>
    intro w hw
    obtain ⟨hpos, hle, hcand, hown, hq⟩ := h.win w hw
    refine ⟨hpos, hle.trans (hmono w.leader), hcand, ?_, hq.mono hsub⟩
    intro x hx hxv hxt
    rcases mem_cons.mp hx with rfl | hx
    · simp only at hxv hxt
      rw [← hxv] at hle
      omega
    · exact hown x hx hxv hxt
  case win_unique => exact h.win_unique

theorem ElectionInv.collect (hfix : Fixed cfg s) {a peer : HostAddr} {polling : Bool}
    {req : AskForVoteRequest} {results : List (HostAddr × Option ErrorCode)}
    {code : Option ErrorCode} {n : Node} {net' : List Message}
    (he : (s.nodes a).elections[eid]? = some ⟨polling, .asking req results⟩)
    (hpeer : (s.nodes a).part.isFollower peer = true) (hnew : peer ∉ results.map Prod.fst)
    (hcode : ∀ c, code = some c → .voteResp peer a eid c ∈ s.net)
    (hpart : n.part = (s.nodes a).part)
    (hel : n.elections = (s.nodes a).elections.set eid ⟨polling,
      .asking req (results ++ [(peer, code)])⟩)
    (hnet : ∀ m ∈ net', m ∈ s.net) : ElectionInv cfg { s.setNode a n with net := net' } where
  term_le := term_le_setNode h (by rw [hpart]; exact h.term_le a)
  voteReq := by
    intro src dst eid' req' hm
    obtain ⟨hdst, e, he', hstart, hreq⟩ := h.voteReq (hnet _ hm)
    rw [elections_setNode hel he]
    refine ⟨hdst, ?_⟩
    split_ifs with hsame
    · rw [hsame.1, hsame.2, he, Option.some.injEq] at he'
      refine ⟨_, rfl, by simp, fun polling' req'' results' heq => ?_⟩
      simp only [Election.mk.injEq, Stage.asking.injEq] at heq
      rw [← heq.2.1]
      exact hreq polling req results he'.symm
    · exact ⟨e, he', hstart, hreq⟩
  voteResp := by
    intro src dst eid' hm
    obtain ⟨e, he', hstart, hreq⟩ := h.voteResp (hnet _ hm)
    rw [elections_setNode hel he]
    split_ifs with hsame
    · rw [hsame.1, hsame.2, he, Option.some.injEq] at he'
      refine ⟨_, rfl, by simp, fun polling' req'' results' heq => ?_⟩
      simp only [Election.mk.injEq, Stage.asking.injEq] at heq
      rw [← heq.2.1]
      exact hreq polling req results he'.symm
    · exact ⟨e, he', hstart, hreq⟩
  asking := by
    intro b eid' polling' req' results' he'
    rw [elections_setNode hel he] at he'
    split_ifs at he' with hsame
    · obtain ⟨rfl, rfl, rfl⟩ := he'
      rw [hsame.1]
      obtain ⟨hcand, hpos, hkeys, hres⟩ := h.asking he
      refine ⟨hcand, hpos, ?_, fun r hr => ?_⟩
      · rw [map_append]
        exact hkeys.append (by simp) (by simpa using hnew)
      rw [mem_append, mem_singleton] at hr
      rcases hr with hr | rfl
      · exact hres r hr
      obtain ⟨hmem, hne⟩ := (hfix.isFollower_iff a peer).mp hpeer
      refine ⟨hmem, hne, fun hsucc => ?_⟩
      -- the answer in the net stands for a vote
      obtain ⟨e, he', -, hreq⟩ := h.voteResp (hcode _ hsucc)
      rw [he, Option.some.injEq] at he'
      exact hreq polling req results he'.symm
    · exact h.asking he'
  vote := fun x hx => (h.vote x hx).trans (term_setNode (by rw [hpart]) x.voter)
  vote_unique := h.vote_unique
  win := by
    intro w hw
    obtain ⟨hpos, hle, hrest⟩ := h.win w hw
    exact ⟨hpos, hle.trans (term_setNode (by rw [hpart]) w.leader), hrest⟩
  win_unique := h.win_unique

theorem ElectionInv.elected (hfix : Fixed cfg s) (hnd : cfg.members.Nodup)
    {termLog : ℕ → List (Entry LogMsg)} (ha : a ∈ cfg.members)
    (he : (s.nodes a).elections[eid]? = some ⟨polling, .asking req results⟩)
    (hwon : (s.nodes a).part.isElected (numVotes results) = true)
    (hlt : (s.nodes a).part.term < req.term) (hle : req.term ≤ (s.nodes a).part.proposedTerm)
    (hterm : n.part.term = req.term) (hprop : n.part.proposedTerm = (s.nodes a).part.proposedTerm)
    (hel : n.elections = (s.nodes a).elections.set eid ⟨polling, .elected⟩) :
    ElectionInv cfg
      { s.setNode a n with wins := ⟨a, req, log⟩ :: s.wins, termLog := termLog } := by
  have hframe : ElectionFrame s
      (s.setNode a { n with part := { n.part with proposedTerm := req.term } }) := by
    refine electionFrame_setNode rfl (.inr ⟨?_, ?_⟩) ?_ (fun m hm => .inl hm) rfl rfl
    · simp only [hterm]; omega
    · simp [hterm]
    · rw [hel]; exact Evolves.set (by simp) (by simp)
  have h' := h.frame hframe
  have hmono : ∀ b, (s.nodes b).part.term ≤ ((s.setNode a n).nodes b).part.term :=
    term_setNode (by omega)
  have helections : ∀ b, ((s.setNode a n).nodes b).elections =
      ((s.setNode a { n with part := { n.part with proposedTerm := req.term } }).nodes
        b).elections := by
    intro b
    rw [setNode_nodes, setNode_nodes]
    split
    · rfl
    · rfl
  have hfresh := h.win_fresh hfix hnd ha he hwon hlt
  constructor
  case term_le =>
    exact term_le_setNode h (by omega)
  case voteReq =>
    intro src dst eid' req' hm
    rw [helections]
    exact h'.voteReq hm
  case voteResp =>
    intro src dst eid' hm
    rw [helections]
    exact h'.voteResp hm
  case asking =>
    intro b eid' polling' req' results' he'
    rw [helections] at he'
    exact h'.asking he'
  case vote =>
    intro x hx
    exact (h.vote x hx).trans (hmono x.voter)
  case vote_unique => exact h.vote_unique
  case win =>
    intro w hw
    rcases mem_cons.mp hw with rfl | hw
    · obtain ⟨hcand, hpos, -⟩ := h.asking he
      refine ⟨hpos, ?_, hcand, ?_, h.electedBy hfix hnd ha he hwon log⟩
      · rw [setNode_nodes_self, hterm]
        rfl
      -- the winner's own votes are of smaller terms
      intro x hx hxv hxt
      have := h.vote x hx
      rw [hxv, hxt] at this
      change req.term ≤ _ at this
      simp only at this
      omega
    · obtain ⟨hpos, hle', hrest⟩ := h.win w hw
      exact ⟨hpos, hle'.trans (hmono w.leader), hrest⟩
  case win_unique =>
    intro w hw w' hw' heq
    rw [mem_cons] at hw hw'
    rcases hw with rfl | hw
    · rcases hw' with rfl | hw'
      · rfl
      · exact absurd heq.symm (hfresh w' hw')
    · rcases hw' with rfl | hw'
      · exact absurd heq (hfresh w hw)
      · exact h.win_unique w hw w' hw' heq

/-- **Every step that meets the check keeps the invariant.** -/
theorem ElectionInv.effect (hfix : Fixed cfg s) (hnd : cfg.members.Nodup)
    (hok : s.freshElection act = true) (he : Effect cfg s act s') :
    ElectionInv cfg s' := by
  cases he with
  | stir hst =>
    obtain ⟨role, leader, tasks, hpart, -⟩ := hst.part
    exact h.frame (electionFrame_setNode rfl (.inl ⟨by rw [hpart], by rw [hpart]⟩) hst.elections
      (fun m hm => .inl hm) rfl rfl)
  | drop hnet =>
    refine h.frame ⟨fun a => .inl ⟨rfl, rfl⟩, fun a => Evolves.refl _, ?_, ?_, rfl, rfl⟩
    · intro src dst eid req hm
      rcases hnet _ hm with h0 | ⟨_, _, _, _, h0, -⟩
      · exact h0
      · cases h0
    · intro src dst eid hm
      rcases hnet _ hm with h0 | ⟨_, _, _, code, h0, hne⟩
      · exact h0
      · simp only [Message.voteResp.injEq] at h0
        exact absurd h0.2.2.2.symm hne
  | prepare _ hel => exact h.prepare hfix hel rfl rfl rfl
  | @vote i eid recent src dst req hmsg hg =>
    exact h.grant hmsg hg rfl rfl rfl
  | collect hel hpeer hnew hcode hnet =>
    exact h.collect hfix hel hpeer hnew hcode rfl rfl hnet
  | win ha hel hwon =>
    obtain ⟨hlt, hle⟩ := lt_of_freshElection hel hwon hok
    exact h.elected hfix hnd ha hel hwon hlt hle rfl rfl rfl
  | append _ _ _ happ =>
    have hp := appendToWal_alike happ
    exact h.frame (electionFrame_setNode rfl (.inl ⟨hp.term, hp.proposedTerm⟩)
      (Evolves.refl _) (fun m hm => .inl hm) rfl rfl)
  | replicate _ _ | settle _ _ | clean _ =>
    exact h.frame (electionFrame_setNode rfl (.inl ⟨rfl, rfl⟩) (Evolves.refl _)
      (fun m hm => .inl hm) rfl rfl)
  | @host _ a peer calls' net' out hs =>
    refine h.frame (electionFrame_setNode (hostOutcome_nodes s a calls' net' peer out)
      (.inl ⟨rfl, rfl⟩) (Evolves.refl _) ?_ rfl rfl)
    intro m hm
    simp only [hostOutcome, mem_append] at hm
    rcases hm with hm | hm
    · exact .inl (hs.mem_net m hm)
    right
    cases hr : out.request with
    | none => simp [hr] at hm
    | some req =>
      simp only [hr, mem_singleton] at hm
      rw [hm]
      exact ⟨by simp, by simp⟩
  | @receive i rid recent commitOk src dst req cut out hmsg hout =>
    obtain ⟨q, hq, halike⟩ :=
      (s.nodes dst).part.processAppendLogRequest_alike req recent commitOk
    rw [← hout] at halike
    refine h.frame (electionFrame_setNode rfl ?_ (Evolves.refl _) ?_ rfl rfl)
    · simp only [halike.term, halike.proposedTerm]
      rcases hq with rfl | hq
      · exact .inl ⟨rfl, rfl⟩
      obtain ⟨wal, role, leader, heq, hprop, hle, -⟩ := hq.eq
      have hqt : q.term = req.currentTerm := by rw [heq]
      rw [hqt]
      rcases hprop with ⟨hp, ht⟩ | hp
      · exact .inl ⟨ht.symm, hp⟩
      · exact .inr ⟨hle, hp⟩
    · intro m hm
      rw [mem_append] at hm
      rcases hm with hm | hm
      · exact .inl (mem_of_mem_eraseIdx hm)
      right
      split at hm
      · cases hm
      · rw [mem_singleton] at hm
        rw [hm]
        exact ⟨by simp, by simp⟩
  | commit _ _ _ _ _ _ hpart _ _ _ hel _ =>
    obtain ⟨role, leader, committed, hpart, -⟩ := hpart
    refine h.frame (electionFrame_setNode rfl (.inl ⟨by rw [hpart], by rw [hpart]⟩) ?_
      (fun m hm => .inl hm) rfl rfl)
    rw [hel]
    exact Evolves.refl _

end

/-! ### Runs -/

theorem Fixed.forget (h : Fixed cfg s) : Fixed cfg { s with acked := [] } :=
  ⟨h.addr, h.hosts, h.quorum⟩

theorem ElectionInv.forget (h : ElectionInv cfg s) : ElectionInv cfg { s with acked := [] } :=
  h.frame ⟨fun _ => .inl ⟨rfl, rfl⟩, fun _ => Evolves.refl _, id, id, rfl, rfl⟩

theorem electionInv_step (hnd : cfg.members.Nodup) (h : Fixed cfg s ∧ ElectionInv cfg s)
    (hok : s.freshElection act = true) (hs : s.step cfg act = some s') :
    Fixed cfg s' ∧ ElectionInv cfg s' := by
  have heff := step_effect hs
  exact ⟨h.1.forget.effect heff, h.2.forget.effect h.1.forget hnd hok heff⟩

theorem electionInv_of_reach (hnd : cfg.members.Nodup)
    (hok : ∀ s act, ok s act → s.freshElection act = true) (h : Reach (step cfg) ok (init cfg) s) :
    Fixed cfg s ∧ ElectionInv cfg s :=
  h.invariant (I := fun s => Fixed cfg s ∧ ElectionInv cfg s)
    ⟨fixed_init cfg, electionInv_init cfg⟩
    fun t act _ hinv hact hs => electionInv_step hnd hinv (hok t act hact) hs

/-- **Election safety with the check.**  In every run in which a partition becomes
leader only of a term larger than its own that it still proposes, no two
partitions become leader of the same term. -/
theorem electionSafe_of_freshElection (cfg : Config) (hnd : cfg.members.Nodup) {s : Group}
    (h : Reach (step cfg) (fun s act => s.freshElection act = true) (init cfg) s) :
    s.ElectionSafe := by
  obtain ⟨-, hinv⟩ := electionInv_of_reach hnd (fun _ _ hok => hok) h
  intro w hw w' hw' hterm
  rw [hinv.win_unique w hw w' hw' hterm]

/-- The first partition becomes leader of term 1, the third of term 2. -/
def handoverRun : List Action :=
  [.startElection (1, 1) false, .prepareElection (1, 1) 0, .recvVoteRequest 0 false,
   .recvVoteResponse 1, .processElection (1, 1) 0, .announceLeader (1, 1) 0,
   .startElection (3, 3) false, .prepareElection (3, 3) 0, .voteException (3, 3) (1, 1) 0,
   .voteException (3, 3) (2, 2) 0, .processElection (3, 3) 0, .startElection (3, 3) false,
   .prepareElection (3, 3) 1, .recvVoteRequest 3 false, .recvVoteResponse 4,
   .processElection (3, 3) 1]

theorem electionSafe_handoverRun :
    ∃ s, Reach (step trio) (fun s act => s.freshElection act = true) (init trio) s ∧
      s.wins.map Win.term = [2, 1] ∧ s.ElectionSafe := by
  obtain ⟨s, hreach, hwins⟩ := exists_reach_of_run (step trio)
    (fun s act => s.freshElection act = true) (init trio)
    (fun s => decide (s.wins.map Win.term = [2, 1])) handoverRun (by decide +kernel)
  exact ⟨s, hreach, of_decide_eq_true hwins, electionSafe_of_freshElection trio (by decide) hreach⟩

/-- The second partition votes for the first in term 2.  The first, still waiting
for that vote, follows the leader of term 1, which hands it the leadership, votes
for the third in term 2, becomes a candidate by the transfer and only then gets
the vote of the second. -/
def transferRun : List Action :=
  [.startElection (3, 3) false, .prepareElection (3, 3) 0, .recvVoteRequest 1 false,
   .recvVoteResponse 1, .processElection (3, 3) 0, .announceLeader (3, 3) 0,
   .startElection (1, 1) false, .prepareElection (1, 1) 0, .voteException (1, 1) (2, 2) 0,
   .voteException (1, 1) (3, 3) 0, .processElection (1, 1) 0, .startElection (1, 1) false,
   .prepareElection (1, 1) 1, .recvVoteRequest 3 false,
   .appendLogs (3, 3) [(0, .transLeader (1, 1) 1)], .replicateLogs (3, 3),
   .hostAppendLogs (3, 3) 0, .recvAppendRequest 5 false true, .recvAppendResponse 5,
   .processAppendLogResponses (3, 3) true,
   .startElection (3, 3) true, .prepareElection (3, 3) 1, .recvVoteRequest 5 false,
   .recvVoteResponse 6, .processElection (3, 3) 1,
   .transferLeader (1, 1), .recvVoteResponse 4, .processElection (1, 1) 1]

/-- **Without the check there may be two leaders of one term.** -/
theorem not_electionSafe_transferRun :
    ∃ s, Reach (step trio) (fun _ _ => True) (init trio) s ∧ ¬ s.ElectionSafe := by
  obtain ⟨s, hreach, hwins⟩ := exists_reach_of_run (step trio) (fun _ _ => True) (init trio)
    (fun s => decide (∃ w ∈ s.wins, ∃ w' ∈ s.wins, w.term = w'.term ∧ w.leader ≠ w'.leader))
    transferRun (by decide +kernel)
  obtain ⟨w, hw, w', hw', hterm, hne⟩ := of_decide_eq_true hwins
  exact ⟨s, hreach, fun hsafe => hne (hsafe w hw w' hw' hterm)⟩

end Group
end K2Graph.Raft
