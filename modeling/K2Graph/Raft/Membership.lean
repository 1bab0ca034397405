import Mathlib.Data.Finset.Card
import K2Graph.Raft.Lifecycle

/-!
# Membership

A partition keeps the other members in `hosts_`, learners among them, and in `quorum_`
how many of the voters it needs besides itself.  `quorum_` is not computed from `hosts_`
when it is used but kept, and each call that changes the voters has to keep it right.

Whoever decides before a change of one member and whoever decides after it have a
member in common.

## Main results

* `RaftPart.members_of_calls` — **`hosts_` and `quorum_` stay right in any sequence of
  calls, and majorities before and after a change have a member in common.**
-/

namespace K2Graph.Raft.RaftPart

open List

variable {p q : RaftPart}

/-! ### The calls -/

def addLearner (addr : HostAddr) (p : RaftPart) : RaftPart :=
  if addr = p.addr then p
  else if p.hosts.any fun h => h.addr = addr then p
  else { p with hosts := p.hosts ++ [⟨addr, true⟩] }

def updateQuorum (p : RaftPart) : RaftPart := { p with quorum := (p.followers.length + 1) / 2 }

/-- `setLearner(false)` on the first host with the address. -/
def promote (peer : HostAddr) : List Peer → List Peer
  | [] => []
  | h :: hosts =>
      if h.addr = peer then { h with isLearner := false } :: hosts else h :: promote peer hosts

def addPeer (peer : HostAddr) (p : RaftPart) : RaftPart :=
  if peer = p.addr then
    if p.role = .learner then updateQuorum { p with role := .follower } else p
  else
    match p.hosts.find? fun h => h.addr = peer with
    | none => updateQuorum { p with hosts := p.hosts ++ [⟨peer, false⟩] }
    | some h =>
        if h.isLearner then updateQuorum { p with hosts := promote peer p.hosts } else p

def removePeer (peer : HostAddr) (p : RaftPart) : RaftPart :=
  if peer = p.addr then p
  else
    match p.hosts.find? fun h => h.addr = peer with
    | none => p
    | some h =>
        let p' := { p with hosts := p.hosts.eraseP fun h => h.addr = peer }
        if h.isLearner then p' else p'.updateQuorum

def checkAndResetPeers (peers : List HostAddr) (p : RaftPart) : RaftPart :=
  peers.foldl (fun q peer => q.addPeer peer)
    (p.hosts.foldl (fun q h => if h.addr ∈ peers then q else q.removePeer h.addr) p)

/-- A call that may change the members. -/
inductive MemberCall
  | addLearner (addr : HostAddr)
  | addPeer (peer : HostAddr)
  | removePeer (peer : HostAddr)
  | checkAndResetPeers (peers : List HostAddr)

def call (p : RaftPart) : MemberCall → RaftPart
  | .addLearner addr => p.addLearner addr
  | .addPeer peer => p.addPeer peer
  | .removePeer peer => p.removePeer peer
  | .checkAndResetPeers peers => p.checkAndResetPeers peers

/-! ### The invariant -/

/-- `hosts_` and `quorum_` are right. -/
structure Members (p : RaftPart) : Prop where
  nodup : (p.hosts.map Peer.addr).Nodup
  self : p.addr ∉ p.hosts.map Peer.addr
  quorum : p.quorum = (p.followers.length + 1) / 2

theorem find?_split {hosts : List Peer} (hfind : (hosts.find? fun h => h.addr = peer) = some h) :
    ∃ before after, hosts = before ++ h :: after ∧ h.addr = peer ∧
      promote peer hosts = before ++ { h with isLearner := false } :: after ∧
      hosts.eraseP (fun h => h.addr = peer) = before ++ after := by
  obtain ⟨haddr, before, after, rfl, hbefore⟩ := find?_eq_some_iff_append.mp hfind
  simp only [decide_eq_true_eq] at haddr
  refine ⟨before, after, rfl, haddr, ?_, ?_⟩
  · clear hfind
    induction before with
    | nil => simp [promote, haddr]
    | cons b before ih =>
      have hb : b.addr ≠ peer := by simpa using hbefore b (by simp)
      rw [cons_append, promote, if_neg hb, ih fun x hx => hbefore x (by simp [hx])]
      rfl
  · rw [eraseP_append_right _ (by simpa using hbefore), eraseP_cons_of_pos (by simpa using haddr)]

section

variable (h : p.Members)
include h

theorem Members.append {peer : HostAddr} (hself : peer ≠ p.addr)
    (hnew : ∀ x ∈ p.hosts, x.addr ≠ peer) (learner : Bool) :
    ((p.hosts ++ [Peer.mk peer learner]).map Peer.addr).Nodup ∧
      p.addr ∉ (p.hosts ++ [Peer.mk peer learner]).map Peer.addr := by
  simp only [map_append]
  constructor
  · apply h.nodup.append (nodup_singleton _)
    intro a ha hpeer
    obtain ⟨x, hx, rfl⟩ := mem_map.mp ha
    exact hnew x hx (mem_singleton.mp hpeer)
  · intro hmem
    rcases mem_append.mp hmem with hmem | hmem
    · exact h.self hmem
    · exact hself (mem_singleton.mp hmem).symm

theorem Members.addLearner (addr : HostAddr) : (p.addLearner addr).Members := by
  rw [RaftPart.addLearner]
  split
  · exact h
  rename_i hself
  split_ifs with hnew
  · exact h
  simp only [any_eq_true, decide_eq_true_eq, not_exists, not_and] at hnew
  obtain ⟨hnd, hme⟩ := h.append hself hnew true
  refine ⟨hnd, hme, ?_⟩
  -- a learner is not counted
  simpa [followers] using h.quorum

/-- What `addPeer` does: the members stay right, nobody loses the vote, and at most one
host gets it. -/
theorem Members.addPeer (peer : HostAddr) :
    (p.addPeer peer).Members ∧ (∀ x ∈ p.followers, ∃ y ∈ (p.addPeer peer).followers,
      y.addr = x.addr) ∧ ((p.addPeer peer).role = .learner → p.role = .learner) ∧
      (p.addPeer peer).addr = p.addr ∧
      (p.addPeer peer).followers.length ≤ p.followers.length + 1 := by
  have hsame : p.Members ∧ (∀ x ∈ p.followers, ∃ y ∈ p.followers, y.addr = x.addr) ∧
      (p.role = .learner → p.role = .learner) ∧ p.addr = p.addr ∧
      p.followers.length ≤ p.followers.length + 1 :=
    ⟨h, fun x hx => ⟨x, hx, rfl⟩, id, rfl, Nat.le_succ _⟩
  rw [RaftPart.addPeer]
  split
  · split
    · exact ⟨⟨h.nodup, h.self, rfl⟩, fun x hx => ⟨x, hx, rfl⟩, nofun, rfl, Nat.le_succ _⟩
    · exact hsame
  rename_i hself
  split
  · rename_i hfind
    have hnew : ∀ x ∈ p.hosts, x.addr ≠ peer := by simpa using find?_eq_none.mp hfind
    obtain ⟨hnd, hme⟩ := h.append hself hnew false
    refine ⟨⟨hnd, hme, rfl⟩, fun x hx => ⟨x, ?_, rfl⟩, id, rfl, ?_⟩
    · rw [followers, mem_filter] at hx
      simp [updateQuorum, followers, hx.1, hx.2]
    · simp [updateQuorum, followers]
  rename_i x hfind
  split
  · -- the learner is promoted where it stands
    rename_i hlearner
    obtain ⟨before, after, hsplit, haddr, hpromote, -⟩ := find?_split hfind
    have haddrs : (promote peer p.hosts).map Peer.addr = p.hosts.map Peer.addr := by
      rw [hpromote, hsplit]
      simp
    refine ⟨⟨?_, ?_, rfl⟩, fun y hy => ⟨y, ?_, rfl⟩, id, rfl, ?_⟩
    · simp only [updateQuorum, haddrs]
      exact h.nodup
    · simp only [updateQuorum, haddrs]
      exact h.self
    · simp only [followers, hsplit, filter_append, filter_cons, hlearner, mem_append] at hy
      simp only [updateQuorum, followers, hpromote, filter_append, filter_cons,
        Bool.not_false, if_true, mem_append, mem_cons]
      exact hy.imp id .inr
    · simp only [updateQuorum, followers, hpromote]
      simp only [hsplit, filter_append, filter_cons, hlearner, Bool.not_true,
        Bool.not_false, Bool.false_eq_true, if_false, if_true, length_append,
        length_cons]
      omega
  · exact hsame

/-- What `removePeer` does: the members stay right, nobody gets the vote, and at most
one host loses it. -/
theorem Members.removePeer (peer : HostAddr) :
    (p.removePeer peer).Members ∧ (∀ x ∈ (p.removePeer peer).followers, x ∈ p.followers) ∧
      (p.removePeer peer).role = p.role ∧ (p.removePeer peer).addr = p.addr ∧
      p.followers.length ≤ (p.removePeer peer).followers.length + 1 := by
  rw [RaftPart.removePeer]
  split
  · exact ⟨h, fun x hx => hx, rfl, rfl, Nat.le_succ _⟩
  split
  · exact ⟨h, fun x hx => hx, rfl, rfl, Nat.le_succ _⟩
  rename_i x hfind
  obtain ⟨before, after, hsplit, -, -, herase⟩ := find?_split hfind
  have hsub : (p.hosts.eraseP fun h => h.addr = peer).Sublist p.hosts := eraseP_sublist
  have hnd := h.nodup.sublist (hsub.map Peer.addr)
  have hme : p.addr ∉ (p.hosts.eraseP fun h => h.addr = peer).map Peer.addr := fun hmem =>
    h.self ((hsub.map Peer.addr).subset hmem)
  have hlen : p.followers.length ≤
      ((p.hosts.eraseP fun h => h.addr = peer).filter fun h => !h.isLearner).length + 1 := by
    rw [followers, herase, hsplit]
    simp only [filter_append, filter_cons, length_append]
    split
    · rw [length_cons]
      omega
    · omega
  have hmem : ∀ y ∈ (p.hosts.eraseP fun h => h.addr = peer).filter fun h => !h.isLearner,
      y ∈ p.followers := fun y hy => (hsub.filter _).subset hy
  split
  · -- a learner was not counted
    rename_i hlearner
    refine ⟨⟨hnd, hme, ?_⟩, hmem, rfl, rfl, hlen⟩
    simp only [h.quorum, followers, herase]
    simp [hsplit, hlearner]
  · exact ⟨⟨hnd, hme, rfl⟩, hmem, rfl, rfl, hlen⟩

/-- **Every call keeps the members right.** -/
theorem Members.call (c : MemberCall) : (p.call c).Members := by
  cases c with
  | addLearner addr => exact h.addLearner addr
  | addPeer peer => exact (h.addPeer peer).1
  | removePeer peer => exact (h.removePeer peer).1
  | checkAndResetPeers peers =>
    have hremoved : ∀ (hosts : List Peer) {q : RaftPart}, q.Members →
        (hosts.foldl (fun q h => if h.addr ∈ peers then q else q.removePeer h.addr) q).Members := by
      intro hosts
      induction hosts with
      | nil => exact fun hq => hq
      | cons x hosts ih =>
        intro q hq
        rw [foldl_cons]
        split
        · exact ih hq
        · exact ih (hq.removePeer x.addr).1
    have hadded : ∀ (peers : List HostAddr) {q : RaftPart}, q.Members →
        (peers.foldl (fun q peer => q.addPeer peer) q).Members := by
      intro peers
      induction peers with
      | nil => exact fun hq => hq
      | cons peer peers ih => exact fun hq => ih (hq.addPeer peer).1
    exact hadded peers (hremoved p.hosts h)

end

/-! ### Majorities -/

/-- The partition itself, unless it is a learner, and the hosts that are not. -/
def voters (p : RaftPart) : Finset HostAddr :=
  ((if p.role = .learner then [] else [p.addr]) ++ p.followers.map Peer.addr).toFinset

/-- A voter with `quorum_` other voters. -/
def IsMajority (p : RaftPart) (Q : Finset HostAddr) : Prop :=
  ∃ v ∈ p.voters, ∃ others ⊆ p.voters.erase v, others.card = p.quorum ∧ Q = insert v others

theorem card_voters_le (p : RaftPart) : p.voters.card ≤ p.followers.length + 1 := by
  refine (toFinset_card_le _).trans ?_
  rw [length_append, length_map]
  split
  · simp
  · rw [length_singleton, Nat.add_comm]

theorem IsMajority.subset (hQ : p.IsMajority Q) : Q ⊆ p.voters ∧ Q.card = p.quorum + 1 := by
  obtain ⟨v, hv, others, hsub, hcard, rfl⟩ := hQ
  constructor
  · exact Finset.insert_subset hv (hsub.trans (Finset.erase_subset _ _))
  · rw [Finset.card_insert_of_notMem fun hmem => Finset.notMem_erase v _ (hsub hmem), hcard]

theorem IsMajority.inter_nonempty (hQ : p.IsMajority Q) (hQ' : q.IsMajority Q') (hp : p.Members)
    (hq : q.Members) (hsub : p.voters ⊆ q.voters)
    (hlen : q.followers.length ≤ p.followers.length + 1) : (Q ∩ Q').Nonempty := by
  obtain ⟨hQsub, hcard⟩ := hQ.subset
  obtain ⟨hQsub', hcard'⟩ := hQ'.subset
  apply Finset.inter_nonempty_of_card_lt_card_add_card (hQsub.trans hsub) hQsub'
  have hvoters := q.card_voters_le
  rw [hcard, hcard', hp.quorum, hq.quorum]
  omega

/-- **`hosts_` has no duplicates and not the partition itself, `quorum_` is half of the
other voters rounded up, and majorities before and after a change of one peer have a
member in common**, whatever has been called since `start`. -/
theorem members_of_calls {addr : HostAddr} {peers : List HostAddr} (hnd : peers.Nodup)
    (hself : addr ∉ peers) (asLearner : Bool) (wal : Log LogMsg) (committed startTimeMs : ℕ)
    (calls : List MemberCall) :
    ∃ p, p = calls.foldl call (restart addr peers asLearner wal committed startTimeMs) ∧
      (p.hosts.map Peer.addr).Nodup ∧ p.addr ∉ p.hosts.map Peer.addr ∧
      p.quorum = (p.followers.length + 1) / 2 ∧
      ∀ peer p', p' = p.addPeer peer ∨ p' = p.removePeer peer → ∀ Q Q', p.IsMajority Q →
        p'.IsMajority Q' → (Q ∩ Q').Nonempty := by
  have hmem : (calls.foldl call
      (restart addr peers asLearner wal committed startTimeMs)).Members := by
    induction calls using reverseRecOn with
    | nil =>
      have haddrs : (peers.map fun a => (⟨a, false⟩ : Peer)).map Peer.addr = peers := by
        rw [map_map]
        exact map_id peers
      refine ⟨?_, ?_, by simp [restart, followers, filter_map, Function.comp_def]⟩
      · simpa [restart, haddrs] using hnd
      · simpa [restart] using hself
    | append_singleton calls c ih =>
      rw [foldl_append]
      exact ih.call c
  refine ⟨_, rfl, hmem.nodup, hmem.self, hmem.quorum, ?_⟩
  intro peer p' hp' Q Q' hQ hQ'
  rcases hp' with rfl | rfl
  · -- the voters before are among the voters after
    obtain ⟨hmem', hkeep, hrole, haddr, hlen⟩ := hmem.addPeer peer
    refine hQ.inter_nonempty hQ' hmem hmem' ?_ hlen
    intro v hv
    simp only [voters, mem_toFinset, mem_append, mem_map] at hv ⊢
    rcases hv with hv | ⟨x, hx, rfl⟩
    · left
      split_ifs at hv with hnot
      · cases hv
      · rw [if_neg fun hl => hnot (hrole hl), haddr]
        exact hv
    · right
      exact hkeep x hx
  · obtain ⟨hmem', hkeep, hrole, haddr, hlen⟩ := hmem.removePeer peer
    rw [Finset.inter_comm]
    refine hQ'.inter_nonempty hQ hmem' hmem ?_ hlen
    intro v hv
    simp only [voters, mem_toFinset, mem_append, mem_map, hrole, haddr] at hv ⊢
    exact hv.imp id fun ⟨x, hx, hxv⟩ => ⟨x, hkeep x hx, hxv⟩

/-- A learner is added, promoted and removed again. -/
theorem members_of_calls_sample :
    ∃ p, p = [MemberCall.addLearner (3, 3), .addPeer (3, 3), .removePeer (2, 2)].foldl call
        (restart (1, 1) [(2, 2)] false Log.empty 0 0) ∧ p.hosts.map Peer.addr = [(3, 3)] ∧
      p.quorum = 1 ∧ ∀ peer p', p' = p.addPeer peer ∨ p' = p.removePeer peer →
        ∀ Q Q', p.IsMajority Q → p'.IsMajority Q' → (Q ∩ Q').Nonempty := by
  have hself : ((1, 1) : HostAddr) ∉ [(2, 2)] := by decide
  obtain ⟨p, rfl, -, -, -, hmeet⟩ := members_of_calls (nodup_singleton (2, 2)) hself false
    Log.empty 0 0 [.addLearner (3, 3), .addPeer (3, 3), .removePeer (2, 2)]
  exact ⟨_, rfl, by decide, by decide, hmeet⟩

end K2Graph.Raft.RaftPart
