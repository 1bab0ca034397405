import K2Graph.Raft.Lifecycle
import K2Graph.Raft.Safety

/-!
# What a partition has applied

A step of a group that meets the conditions of state machine safety moves every
partition in a simple way: its term does not go down, a leader that stays leader
of its term has led before, and what it has committed grows by exactly the
entries it passes to a `commitLogs` that succeeds.

## Main results

* `Group.Sound.moves` — every step but writing moves every partition so.
* `Group.sound_of_reach` — the invariants hold in every run.
-/

namespace K2Graph

open List

theorem Log.map_fst_iterator {l : Log α} (hbase : l.base = 1) (hdrop : l.dropped = []) (start : ℕ)
    (hlast : last ≤ l.full.length) :
    (l.iterator (start + 1) last).map Prod.fst = (l.full.take last).drop start := by
  have hfull : l.full = l.entries := by rw [full, hdrop, nil_append]
  have hid : l.lastLogId = l.entries.length := by
    cases he : l.entries with
    | nil => rw [lastLogId_of_nil he, length_nil]
    | cons e es =>
      have hne : l.entries ≠ [] := by rw [he]; exact cons_ne_nil e es
      rw [lastLogId_of_ne_nil hne, next, hdrop, he, length_nil]
      omega
  have hfirst : l.firstLogId ≤ 1 := by
    cases he : l.entries with
    | nil => rw [firstLogId_of_nil he]; omega
    | cons e es =>
      have hne : l.entries ≠ [] := by rw [he]; exact cons_ne_nil e es
      rw [firstLogId_of_ne_nil hne, hbase, hdrop]
      exact le_refl 1
  rw [hfull] at hlast ⊢
  simp only [iterator, hid, if_pos hlast]
  split
  · rw [drop_eq_nil_of_le]
    · rfl
    · rw [length_take]
      omega
  · rw [zipIdx_map_fst, drop_take, hbase, hdrop]
    congr 1
    omega

variable {dst a : HostAddr}

namespace Raft

open TermLog

/-! ### Committing exactly what comes next -/

namespace RaftPart

variable {p : RaftPart}

/-- A partition whose request mentions no later term than its own has not dropped
everything. -/
theorem Receives.follows (h : p.Receives req q) (hle : req.lastLogTermSent ≤ req.currentTerm) :
    p.Follows req q := by
  obtain ⟨q₀, hq₀, hq⟩ := h
  rcases hq with rfl | ⟨-, -, hlt⟩
  · exact hq₀
  · obtain ⟨wal, role, leader, heq, -⟩ := hq₀.eq
    have hterm : q₀.term = req.currentTerm := by rw [heq]
    omega

/-- What is committed has grown by the entries that were passed on. -/
def Commits (p p' : RaftPart) (es : List (Entry LogMsg)) : Prop :=
  p'.log.take p'.committedLogId = p.log.take p.committedLogId ++ es

theorem commits_of_eq (hlog : p'.log = p.log) (hcomm : p'.committedLogId = p.committedLogId) :
    p.Commits p' [] := by
  rw [Commits, hlog, hcomm, append_nil]

theorem commits_of_isPrefix (hwf : p.WF) (hint : p.Intact) (hpre : p.log <+: p'.log)
    (hle : p.committedLogId ≤ p'.committedLogId) :
    p.Commits p' ((p'.log.take p'.committedLogId).drop p.committedLogId) := by
  have hlen : p.committedLogId ≤ p.log.length := by
    rw [hwf.length_log]
    exact hint.committed_le
  have hkeep : p.log.take p.committedLogId =
      (p'.log.take p'.committedLogId).take p.committedLogId := by
    rw [take_take, min_eq_left hle, take_eq_of_isPrefix hpre hlen]
  rw [Commits, hkeep, take_append_drop]

end RaftPart

namespace Group

/-- What a follower commits when it handles a request: nothing, or what comes
next. -/
theorem LogInv.since_receive (h : LogInv s) (hint : (s.nodes dst).part.Intact)
    (hsnap : req.sendingSnapshot = false) (hle : req.lastLogTermSent ≤ req.currentTerm)
    (hout : out = (s.nodes dst).part.processAppendLogRequest req recent commitOk) :
    out.since = none ∧ out.part.committedLogId = (s.nodes dst).part.committedLogId ∨
      out.since = some (s.nodes dst).part.committedLogId ∧
        (s.nodes dst).part.committedLogId ≤ out.part.committedLogId ∧
        out.passed.map Prod.fst =
          (out.part.log.take out.part.committedLogId).drop (s.nodes dst).part.committedLogId := by
  rcases RaftPart.processAppendLogRequest_cases (h.running dst) hsnap recent commitOk with
    ⟨hpart, -, hsince, -⟩ | ⟨-, q, hq, hhand⟩
  · rw [← hout] at hpart hsince
    exact .inl ⟨hsince, by rw [hpart]⟩
  rw [← hout] at hhand
  have hfol := hq.follows hle
  have hwf := h.wf dst
  obtain ⟨hwf', -, -⟩ := hwf.follows hfol
  have hint' := hint.follows hwf hfol
  obtain ⟨wal, role, leader, heq, -⟩ := hfol.eq
  have hcomm : q.committedLogId = (s.nodes dst).part.committedLogId := by rw [heq]
  rw [← hcomm]
  cases hhand with
  | kept hpart _ hsince _ => exact .inl ⟨hsince, by rw [hpart]⟩
  | rolledBack _ _ _ hpart _ hsince _ => exact .inl ⟨hsince, by rw [hpart]; rfl⟩
  | @appended p' resp _ hsame happ hlast _ _ =>
    obtain ⟨hwf'', -, -⟩ := hwf'.log_syncLast_append hsame happ hlast
    obtain ⟨hint'', hcomm''⟩ := hint'.syncLast_append hwf' hsame happ hlast
    rw [← hcomm'']
    cases hsince : (p'.syncLast.followerCommit req resp commitOk).since with
    | none =>
      -- a follower that has not committed is as before
      refine .inl ⟨rfl, ?_⟩
      generalize hout : p'.syncLast.followerCommit req resp commitOk = out at hsince ⊢
      unfold RaftPart.followerCommit at hout
      split at hout
      · simp only at hout
        split at hout
        · rw [← hout]
        split at hout
        · rw [← hout] at hsince
          cases hsince
        · rw [← hout]
      · rw [← hout]
    | some c =>
      obtain ⟨rfl, hlt, hupTo, hwal, hpassed⟩ := RaftPart.followerCommit_since hsince
      refine .inr ⟨rfl, by omega, ?_⟩
      have hle' : min p'.syncLast.lastLogId req.committedLogId ≤ p'.syncLast.lastLogId :=
        min_le_left _ _
      have hfull := hwf''.le
      have hid : (p'.syncLast.followerCommit req resp commitOk).part.lastLogId =
          p'.syncLast.lastLogId := by
        obtain ⟨-, -, hc⟩ := p'.syncLast.followerCommit_cases req resp commitOk
        rcases hc with ⟨hc, -⟩ | ⟨-, -, hc | ⟨_, _, hc, -⟩⟩
        · rw [hc]
        · rw [hc]
        · rw [hc]
      rw [hpassed, Log.map_fst_iterator hwf''.base hint''.dropped _ (by omega), hupTo,
        RaftPart.log, hwal, hid, take_take, min_eq_left hle']

/-! ### How a step moves a partition -/

end Group

/-- What the loop of a leader has read is what the leader has committed. -/
def Node.Fits (n : Node) : Prop :=
  ∀ r, n.replication = some r → n.part.role = .leader → r.currTerm = n.part.term →
    r.committedId = n.part.committedLogId

/-- How a step that applies `es` moves a partition. -/
structure Node.Moves (n n' : Node) (es : List (Entry LogMsg)) : Prop where
  term : n.part.term ≤ n'.part.term
  leads : n'.part.role = .leader → n'.part.term = n.part.term → n.part.role = .leader
  log : n'.part.role = .leader → n'.part.term = n.part.term → n.replication = none →
    n'.part.log = n.part.log
  idle : n.replication = none → n'.replication = none
  fits : n'.Fits
  commits : n.part.Commits n'.part es

namespace Node.Moves

variable {n : Node}

/-- The log and what is committed stay as they are. -/
theorem of_same (hfits : n.Fits) (hterm : n'.part.term = n.part.term)
    (hrole : n'.part.role = .leader → n.part.role = .leader) (hlog : n'.part.log = n.part.log)
    (hcomm : n'.part.committedLogId = n.part.committedLogId)
    (hidle : n.replication = none → n'.replication = none)
    (hrep : ∀ r', n'.replication = some r' → ∃ r, n.replication = some r ∧
      r.currTerm = r'.currTerm ∧ r.committedId = r'.committedId) : n.Moves n' [] where
  term := hterm.ge
  leads := fun hl _ => hrole hl
  log := fun _ _ _ => hlog
  idle := hidle
  fits := by
    intro r' hr' hl ht
    obtain ⟨r, hr, hcurr, hid⟩ := hrep r' hr'
    rw [hcomm, ← hid]
    exact hfits r hr (hrole hl) (by rw [hcurr, ht, hterm])
  commits := RaftPart.commits_of_eq hlog hcomm

theorem refl (hfits : n.Fits) : n.Moves n [] :=
  of_same hfits rfl id rfl rfl id fun r' hr' => ⟨r', hr', rfl, rfl⟩

theorem of_later (hterm : n.part.term ≤ n'.part.term)
    (hnew : n'.part.role = .leader → n.part.term < n'.part.term)
    (hrep : n'.replication = n.replication)
    (hle : ∀ r, n.replication = some r → r.currTerm ≤ n.part.term)
    (hcommits : n.part.Commits n'.part es) : n.Moves n' es where
  term := hterm
  leads := fun hl ht => absurd (hnew hl) (by omega)
  log := fun hl ht => absurd (hnew hl) (by omega)
  idle := fun h => hrep.trans h
  fits := by
    intro r hr hl ht
    have hlt := hnew hl
    have hcurr := hle r (hrep ▸ hr)
    omega
  commits := hcommits

end Node.Moves

namespace Group

variable {cfg : Config} {s s' : Group} {act : Action}

/-- The replication a call of `processAppendLogResponses` commits. -/
def committing (s : Group) (a : HostAddr) : Option Replication :=
  match (s.nodes a).replication with
  | some r =>
      if r.round ≠ none ∧ (s.nodes a).part.quorum ≤ numSucceeded (s.nodes a).part r.results ∧
          (s.nodes a).part.status = .running ∧ (s.nodes a).part.role = .leader ∧
          r.currTerm = (s.nodes a).part.term then some r
      else none
  | none => none

/-- The entries a step applies to the storage engine of a partition. -/
def applied (s : Group) (act : Action) (b : HostAddr) : List (Entry LogMsg) :=
  match act with
  | .recvAppendRequest i recent commitOk =>
      match s.net[i]? with
      | some (.appendReq _ dst _ req _) =>
          let out := (s.nodes dst).part.processAppendLogRequest req recent commitOk
          if dst = b ∧ out.since.isSome then out.passed.map Prod.fst else []
      | _ => []
  | .processAppendLogResponses a commitOk =>
      match s.committing a with
      | some r =>
          if a = b ∧ commitOk then
            ((s.nodes a).part.leaderBatch r.committedId r.lastLogId).map Prod.fst
          else []
      | none => []
  | _ => []

/-- The invariants of the runs that meet the conditions of state machine
safety. -/
structure Sound (cfg : Config) (s : Group) : Prop where
  fixed : Fixed cfg s
  election : ElectionInv cfg s
  log : LogInv s
  send : SendInv s
  author : ∀ t, ∀ e ∈ s.termLog t, e.term ≤ t

theorem Sound.forget (h : Sound cfg s) : Sound cfg { s with acked := [] } where
  fixed := h.fixed.forget
  election := h.election.forget
  log := h.log.forget
  send := h.send.forget
  author := h.author

theorem sound_of_reach (hnd : cfg.members.Nodup)
    (h : Reach (step cfg) (fun s act => s.safetyOk cfg act = true) (init cfg) s) :
    Sound cfg s := by
  obtain ⟨hfix, hel⟩ := electionInv_of_reach hnd
    (fun _ _ hok => freshElection_of_matchingOk (matchingOk_of_safetyOk hok)) h
  obtain ⟨hsend, N, -, hinv⟩ := refined_of_reach hnd h
  exact ⟨hfix, hel, logInv_of_reach hnd (fun _ _ => matchingOk_of_safetyOk) h, hsend,
    hinv.author.le⟩

theorem Sound.lastLogTermSent_le (h : Sound cfg s)
    (hmsg : s.net[i]? = some (.appendReq src dst rid req cut))
    (hok : s.matchingOk (.recvAppendRequest i recent commitOk) = true) :
    req.sendingSnapshot = false ∧ req.lastLogTermSent ≤ req.currentTerm := by
  simp only [matchingOk, Bool.and_eq_true] at hok
  obtain ⟨⟨-, hsnap⟩, hhon⟩ := hok
  refine ⟨sendingSnapshot_eq_false hmsg hsnap,
    not_reset (describes_of_honestRequest hmsg hhon) fun e he => ?_⟩
  exact h.author _ e ((h.send.request (mem_of_getElem? hmsg)).subset he)

/-- How a partition moves that handles an append request. -/
theorem Sound.moves_receive (h : Sound cfg s)
    (hmsg : s.net[i]? = some (.appendReq src dst rid req cut))
    (hout : out = (s.nodes dst).part.processAppendLogRequest req recent commitOk)
    (hok : s.safetyOk cfg (.recvAppendRequest i recent commitOk) = true)
    (hfits : (s.nodes dst).Fits) (hpart : n.part = out.part)
    (hrep : n.replication = (s.nodes dst).replication) :
    (s.nodes dst).Moves n (if out.since.isSome then out.passed.map Prod.fst else []) := by
  simp only [safetyOk, sendingOk, Bool.and_eq_true] at hok
  obtain ⟨⟨⟨⟨⟨hmatch, -⟩, -⟩, -⟩, hjust⟩, -⟩ := hok
  obtain ⟨hsnap, hle⟩ := h.lastLogTermSent_le hmsg hmatch
  have hrec := h.send.receipt h.log h.election h.author hmsg hout hmatch hjust
  have hsince := h.log.since_receive (h.send.intact dst) hsnap hle hout
  have hreple : ∀ r, (s.nodes dst).replication = some r → r.currTerm ≤ (s.nodes dst).part.term :=
    fun r hr => (h.log.replication dst r hr).1
  -- the request is refused, or the partition leads no more
  have hjoined : (s.nodes dst).part.Joins req out.part →
      (s.nodes dst).part.Commits out.part
        (if out.since.isSome then out.passed.map Prod.fst else []) →
      (s.nodes dst).Moves n (if out.since.isSome then out.passed.map Prod.fst else []) := by
    intro hj hc
    refine .of_later ?_ ?_ hrep hreple (by rw [hpart]; exact hc)
    · rw [hpart, hj.term]
      exact hj.le
    · intro hl
      rw [hpart] at hl
      exact absurd hl hj.role
  have hgrown : (s.nodes dst).part.log <+: out.part.log →
      (s.nodes dst).part.Commits out.part
        (if out.since.isSome then out.passed.map Prod.fst else []) := by
    intro hpre
    rcases hsince with ⟨hnone, hcomm⟩ | ⟨hsome, hle', hpassed⟩
    · have hc := RaftPart.commits_of_isPrefix (h.log.wf dst) (h.send.intact dst) hpre hcomm.ge
      rw [hcomm, drop_take_self] at hc
      rw [hnone]
      exact hc
    · have hc := RaftPart.commits_of_isPrefix (h.log.wf dst) (h.send.intact dst) hpre hle'
      rw [hsome, hpassed]
      exact hc
  cases hrec with
  | refused hp hpassed =>
    have hes : (if out.since.isSome then out.passed.map Prod.fst else []) = [] := by
      rw [hpassed, map_nil, ite_self]
    rw [hes]
    rw [hp] at hpart
    exact .of_same hfits (by rw [hpart]) (fun hl => by rw [hpart] at hl; exact hl) (by rw [hpart])
      (by rw [hpart]) hrep.trans fun r' hr' => ⟨r', hrep ▸ hr', rfl, rfl⟩
  | kept hj hlog _ _ => exact hjoined hj (hgrown (by rw [hlog]))
  | cut hj he _ _ hlog hcomm hpassed =>
    refine hjoined hj ?_
    have hes : (if out.since.isSome then out.passed.map Prod.fst else []) = [] := by
      rw [hpassed, map_nil, ite_self]
    rw [hes, RaftPart.Commits, hlog, hcomm, take_take, min_self, append_nil]
  | extended hj hpre hlog _ _ _ _ => exact hjoined hj (hgrown (by rw [hlog]; exact hpre))

theorem moves_setNode {E : HostAddr → List (Entry LogMsg)}
    (hnodes : s'.nodes = (s.setNode a n).nodes) (hfits : ∀ b, (s.nodes b).Fits)
    (ha : (s.nodes a).Moves n (E a)) (hE : ∀ b, b ≠ a → E b = []) (b : HostAddr) :
    (s.nodes b).Moves (s'.nodes b) (E b) := by
  by_cases hb : b = a
  · rw [hb, hnodes, setNode_nodes_self]
    exact ha
  · rw [hnodes, setNode_nodes_of_ne _ _ hb, hE b hb]
    exact .refl (hfits b)

section

variable (h : Sound cfg s)
include h

theorem Sound.moves_commit (hfits : (s.nodes a).Fits) (hr : (s.nodes a).replication = some r)
    (hrole : (s.nodes a).part.role = .leader) (hterm : r.currTerm = (s.nodes a).part.term)
    (hpart : n.part = (s.nodes a).part.leaderCommit r.currTerm r.committedId r.lastLogId commitOk)
    (hrep : n.replication = if commitOk then none else some r) : (s.nodes a).Moves n
      (if commitOk then ((s.nodes a).part.leaderBatch r.committedId r.lastLogId).map Prod.fst
       else []) := by
  obtain ⟨role, leader, committed, heq, -, -⟩ :=
    (s.nodes a).part.leaderCommit_eq r.currTerm r.committedId r.lastLogId commitOk
  obtain ⟨-, -, hid, -⟩ := (h.log.replication a r hr).2 hrole hterm
  have hcid : r.committedId = (s.nodes a).part.committedLogId := hfits r hr hrole hterm
  have hwf := h.log.wf a
  have hint := h.send.intact a
  have hbusy : ∀ {P : Prop}, (s.nodes a).replication = none → P := by
    intro P h0
    rw [hr] at h0
    cases h0
  have hlog : n.part.log = (s.nodes a).part.wal.full.take r.lastLogId := by
    rw [hpart, heq, RaftPart.log]
  have hpre : (s.nodes a).part.log <+: n.part.log := by
    rw [hlog, hid, take_length]
    exact (s.nodes a).part.log_isPrefix
  have hte : n.part.term = (s.nodes a).part.term := by rw [hpart, heq]
  have hcomm : n.part.committedLogId =
      if commitOk then r.lastLogId else (s.nodes a).part.committedLogId := by
    rw [hpart]
    cases commitOk <;> rfl
  cases commitOk with
  | false =>
    simp only [Bool.false_eq_true, if_false] at hcomm hrep ⊢
    refine ⟨hte.ge, fun _ _ => hrole, fun _ _ => hbusy, hbusy, ?_, ?_⟩
    · intro r' hr' _ _
      rw [hrep] at hr'
      cases hr'
      rw [hcid, hcomm]
    · have hcs := RaftPart.commits_of_isPrefix hwf hint hpre hcomm.ge
      rw [hcomm, drop_take_self] at hcs
      exact hcs
  | true =>
    simp only [if_true] at hcomm hrep ⊢
    have hle : (s.nodes a).part.committedLogId ≤ n.part.committedLogId := by
      rw [hcomm, hid]
      exact hint.committed_le.trans hwf.le
    refine ⟨hte.ge, fun _ _ => hrole, fun _ _ => hbusy, hbusy, ?_, ?_⟩
    · intro r' hr'
      rw [hrep] at hr'
      cases hr'
    · have hcs := RaftPart.commits_of_isPrefix hwf hint hpre hle
      rw [hcomm, hlog, take_take, min_self] at hcs
      rw [RaftPart.leaderBatch, hcid, Log.map_fst_iterator hwf.base hint.dropped _ hid.le]
      exact hcs

section

variable (hfits : ∀ b, (s.nodes b).Fits)
include hfits

theorem Sound.moves_respond (hs : s.processAppendLogResponses a commitOk = some s') (b : HostAddr) :
    (s.nodes b).Moves (s'.nodes b) (s.applied (.processAppendLogResponses a commitOk) b) := by
  have hother : ∀ b, b ≠ a → s.applied (.processAppendLogResponses a commitOk) b = [] := by
    intro b hb
    simp only [applied]
    split
    · exact if_neg fun hc => hb hc.1.symm
    · rfl
  simp only [processAppendLogResponses] at hs
  split at hs
  · rename_i r hr
    have hbusy : ∀ {P : Prop}, (s.nodes a).replication = none → P := by
      intro P h0
      rw [hr] at h0
      cases h0
    split at hs
    · cases hs
    rename_i hguard
    split at hs
    · -- the replication is tried again
      rename_i hq
      have hc : s.committing a = none := by
        simp only [committing, hr]
        exact if_neg fun hcond => absurd hcond.2.1 (Nat.not_le_of_lt hq)
      cases hs
      refine moves_setNode rfl hfits ?_ hother b
      simp only [applied, hc]
      refine .of_same (hfits a) rfl id rfl rfl hbusy ?_
      intro r' hr'
      cases hr'
      exact ⟨r, hr, rfl, rfl⟩
    rename_i hq
    split at hs
    · -- it is given up
      rename_i hlead
      have hc : s.committing a = none := by
        simp only [committing, hr]
        refine if_neg fun hcond => ?_
        rcases hlead with h0 | h0 | h0
        · exact h0 hcond.2.2.1
        · exact h0 hcond.2.2.2.1
        · exact h0 hcond.2.2.2.2
      cases hs
      refine moves_setNode rfl hfits ?_ hother b
      simp only [applied, hc]
      exact .of_same (hfits a) rfl id rfl rfl (fun _ => rfl) fun r' hr' => nomatch hr'
    · rename_i hlead
      simp only [not_or, not_not] at hlead hguard
      obtain ⟨hst, hrole, hterm⟩ := hlead
      have hc : s.committing a = some r := by
        simp only [committing, hr]
        exact if_pos ⟨hguard.1, Nat.le_of_not_lt hq, hst, hrole, hterm⟩
      cases hs
      refine moves_setNode (n := { s.nodes a with
        part := (s.nodes a).part.leaderCommit r.currTerm r.committedId r.lastLogId commitOk
        replication := if commitOk then none else some r
        dead := !commitOk }) rfl hfits ?_ hother b
      simp only [applied, hc, true_and]
      exact h.moves_commit (hfits a) hr hrole hterm rfl rfl
  · cases hs

theorem Sound.moves_effect (hok : s.safetyOk cfg act = true)
    (happend : ∀ a logs, act ≠ .appendLogs a logs)
    (hreceive : ∀ i recent commitOk, act ≠ .recvAppendRequest i recent commitOk)
    (hrespond : ∀ a commitOk, act ≠ .processAppendLogResponses a commitOk)
    (he : Effect cfg s act s') (b : HostAddr) : (s.nodes b).Moves (s'.nodes b) [] := by
  simp only [safetyOk, sendingOk, matchingOk, Bool.and_eq_true] at hok
  obtain ⟨⟨⟨⟨⟨⟨⟨hfresh, -⟩, -⟩, -⟩, hclean⟩, -⟩, -⟩, -⟩ := hok
  have hkeep : ∀ {a : HostAddr} {n : Node}, n.replication = (s.nodes a).replication →
      ∀ r', n.replication = some r' → ∃ r, (s.nodes a).replication = some r ∧
        r.currTerm = r'.currTerm ∧ r.committedId = r'.committedId := by
    intro a n hrep r' hr'
    exact ⟨r', hrep ▸ hr', rfl, rfl⟩
  cases he with
  | @stir _ a n' hst =>
    refine moves_setNode rfl hfits ?_ (fun _ _ => rfl) b
    obtain ⟨role, leader, tasks, hpart, hrole⟩ := hst.part
    refine .of_same (hfits a) (by rw [hpart]) ?_ (by rw [hpart]; rfl) (by rw [hpart])
      hst.replication.trans (hkeep hst.replication)
    rw [hpart]
    exact hrole
  | drop _ => exact .refl (hfits b)
  | @prepare a eid polling _ _ | @collect _ a _ _ _ _ _ _ _ _ _ _ _ _ =>
    refine moves_setNode rfl hfits ?_ (fun _ _ => rfl) b
    exact .of_same (hfits a) rfl id rfl rfl id (hkeep rfl)
  | @vote i eid recent src dst req hmsg hg =>
    have hlt := h.election.lt_of_grants hg
    obtain ⟨-, hlog, -⟩ := (h.log.wf dst).voteFor req
    refine moves_setNode rfl hfits ?_ (fun _ _ => rfl) b
    exact .of_later hlt.le (fun _ => hlt) rfl (fun r hr => (h.log.replication dst r hr).1)
      (RaftPart.commits_of_eq hlog (RaftPart.committedLogId_voteFor _ req))
  | @win a eid polling req results _ hasking hwon =>
    obtain ⟨hlt, -⟩ := lt_of_freshElection hasking hwon hfresh
    refine moves_setNode rfl hfits ?_ (fun _ _ => rfl) b
    exact .of_later hlt.le (fun _ => hlt) rfl (fun r hr => (h.log.replication a r hr).1)
      (RaftPart.commits_of_eq rfl rfl)
  | append _ _ _ _ => exact absurd rfl (happend _ _)
  | @replicate a r hr _ =>
    refine moves_setNode rfl hfits ?_ (fun _ _ => rfl) b
    refine .of_same (hfits a) rfl id rfl rfl (fun h0 => ?_) fun r' hr' => ?_
    · rw [hr] at h0; cases h0
    · cases hr'
      exact ⟨r, hr, rfl, rfl⟩
  | @settle _ a r r' hr hr' =>
    refine moves_setNode rfl hfits ?_ (fun _ _ => rfl) b
    refine .of_same (hfits a) rfl id rfl rfl (fun h0 => ?_) fun r'' hr'' => ?_
    · rw [hr] at h0; cases h0
    rcases hr' with rfl | rfl
    · cases hr''
    · cases hr''
      exact ⟨r, hr, rfl, rfl⟩
  | @host _ a peer calls' net' out _ =>
    refine moves_setNode (hostOutcome_nodes s a calls' net' peer out) hfits ?_
      (fun _ _ => rfl) b
    refine .of_same (hfits a) rfl id rfl rfl (fun h0 => ?_) fun r' hr' => ?_
    · simp [hostNode, h0]
    · obtain ⟨r, hr, rfl⟩ := Option.map_eq_some_iff.mp hr'
      exact ⟨r, hr, rfl, rfl⟩
  | receive _ _ => exact absurd rfl (hreceive _ _ _)
  | commit _ _ _ _ _ _ _ _ _ _ _ _ => exact absurd rfl (hrespond _ _)
  | clean _ => cases hclean

/-- **Every step but writing moves every partition in this way.** -/
theorem Sound.moves (hok : s.safetyOk cfg act = true) (happend : ∀ a logs, act ≠ .appendLogs a logs)
    (hs : s.step cfg act = some s') (b : HostAddr) :
    (s.nodes b).Moves (s'.nodes b) (s.applied act b) := by
  have heff := step_effect hs
  have hforget := h.forget
  by_cases hreceive : ∃ i recent commitOk, act = .recvAppendRequest i recent commitOk
  · obtain ⟨i, recent, commitOk, rfl⟩ := hreceive
    unfold step at hs
    split at hs
    · simp only [perform, recvAppendRequest] at hs
      split at hs
      · rename_i src dst rid req cut hmsg
        split at hs
        · cases hs
        cases hs
        refine moves_setNode (n := { s.nodes dst with
          part := ((s.nodes dst).part.processAppendLogRequest req recent commitOk).part
          dead := ((s.nodes dst).part.processAppendLogRequest req recent commitOk).crashed })
          rfl hfits ?_ (fun c hc => ?_) b
        · simp only [applied, hmsg, true_and]
          exact h.moves_receive hmsg rfl hok (hfits dst) rfl rfl
        · simp only [applied, hmsg]
          exact if_neg fun h0 => hc h0.1.symm
      · cases hs
    · cases hs
  by_cases hrespond : ∃ a commitOk, act = .processAppendLogResponses a commitOk
  · obtain ⟨a, commitOk, rfl⟩ := hrespond
    unfold step at hs
    split at hs
    · exact hforget.moves_respond hfits hs b
    · cases hs
  have hnone : s.applied act b = [] := by
    unfold applied
    split
    · exact absurd ⟨_, _, _, rfl⟩ hreceive
    · exact absurd ⟨_, _, rfl⟩ hrespond
    · rfl
  rw [hnone]
  exact hforget.moves_effect hfits hok happend (fun i r c h0 => hreceive ⟨i, r, c, h0⟩)
    (fun a c h0 => hrespond ⟨a, c, h0⟩) heff b

end

end

end Group
end Raft
end K2Graph
