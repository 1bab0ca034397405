import K2Graph.Lib.LeaderCompleteness

/-!
# A protocol that agrees on a log

Nodes vote for authors, one author per term, take over the log of the author of
their term, and cut their own log only where it conflicts with that log.  What a
majority has accepted is chosen, and only what is chosen is committed and passed
on.  There are no messages but the notices of what is committed: a node may take
over any prefix of its author's log at any time.

Whatever is passed on under one id is the same entry everywhere.

## Main definitions

* `State` — the state, most of which is history.
* `Step` — the steps.
* `Chosen`, `Safe` — what a majority has accepted, and what is part of it.
* `Inv` — the invariant.

## Main results

* `Inv.step` — every step keeps the invariant.
* `Inv.chosen_isPrefix` — what is chosen in one term is part of the logs of all
  later authors.
* `Inv.agree` — state machine safety.
-/

namespace K2Graph.Consensus

open List TermLog Function

/-! ### The protocol -/

/-- A vote: who voted, in which term, and the log it had. -/
structure Vote (ν ε : Type) where
  voter : ν
  term : ℕ
  log : List ε

/-- An author was elected. -/
structure Win (ν ε : Type) where
  leader : ν
  term : ℕ
  log : List ε

/-- The state of the protocol. -/
structure State (ν ε : Type) where
  term : ν → ℕ
  log : ν → List ε
  committed : ν → ℕ
  /-- The log of the author of each term. -/
  author : ℕ → List ε
  votes : List (Vote ν ε)
  wins : List (Win ν ε)
  /-- Who has held the log of the author of which term, and how much of it. -/
  accepted : List (ν × ℕ × ℕ)
  /-- What nodes have been told to be committed. -/
  notices : List (List ε)
  /-- What nodes have passed on, under which id. -/
  passed : List (ν × ℕ × ε)

variable {ν ε : Type} [DecidableEq ν] {term : ε → ℕ} {members : List ν} {s s' : State ν ε} {v a : ν}
  {t n : ℕ} {X Y : List ε}

/-- More than half of the members. -/
def Majority (members : List ν) (Q : Finset ν) : Prop :=
  Q ⊆ members.toFinset ∧ members.length < 2 * Q.card

/-- A majority accepted the log of the author of `t` up to id `n`, and the author
wrote that entry itself. -/
def Chosen (term : ε → ℕ) (members : List ν) (s : State ν ε) (t n : ℕ) : Prop :=
  0 < n ∧ (∃ e, (s.author t)[n - 1]? = some e ∧ term e = t) ∧
    ∃ Q, Majority members Q ∧ ∀ v ∈ Q, ∃ n', n ≤ n' ∧ (v, t, n') ∈ s.accepted

/-- Part of what is chosen. -/
def Safe (term : ε → ℕ) (members : List ν) (s : State ν ε) (X : List ε) : Prop :=
  X = [] ∨ ∃ t n, Chosen term members s t n ∧ X <+: (s.author t).take n

/-- The entries with ids up to `n` of a log. -/
def EntriesOf (v : ν) (X : List ε) (n : ℕ) (batch : List (ν × ℕ × ε)) : Prop :=
  ∀ p ∈ batch, p.1 = v ∧ 0 < p.2.1 ∧ p.2.1 ≤ n ∧ X[p.2.1 - 1]? = some p.2.2

inductive Step (term : ε → ℕ) (members : List ν) (s : State ν ε) : State ν ε → Prop
  /-- A node enters a later term. -/
  | advance {v : ν} {t : ℕ} :
    s.term v ≤ t → Step term members s { s with term := update s.term v t }
  /-- A node votes. -/
  | vote {v : ν} {t : ℕ} : s.term v < t →
      Step term members s
        { s with term := update s.term v t, votes := ⟨v, t, s.log v⟩ :: s.votes }
  /-- A node with an up-to-date log is elected. -/
  | win {a : ν} {t : ℕ} {Q : Finset ν} : s.term a < t → s.author t = [] → Majority members Q →
      (∀ v ∈ Q, v = a ∨ ∃ x ∈ s.votes, x.voter = v ∧ x.term = t ∧ UpToDate term x.log (s.log a)) →
      Step term members s
        { s with term := update s.term a t, author := update s.author t (s.log a)
                 wins := ⟨a, t, s.log a⟩ :: s.wins }
  /-- The author of a term writes. -/
  | write {t : ℕ} {X : List ε} : (∃ w ∈ s.wins, w.term = t) → (∀ e ∈ X, term e = t) →
      Step term members s { s with author := update s.author t (s.author t ++ X) }
  /-- A node cuts its log at a conflict with the author of its term. -/
  | cut {v : ν} {c : ℕ} {e f : ε} : s.committed v ≤ c → (s.log v)[c]? = some e →
      (s.author (s.term v))[c]? = some f → term e ≠ term f →
      Step term members s { s with log := update s.log v ((s.log v).take c) }
  /-- A node takes over more of the log of the author of its term. -/
  | extend {v : ν} {Y : List ε} : s.log v <+: Y → Y <+: s.author (s.term v) →
      Step term members s { s with log := update s.log v Y }
  /-- A node accepts what it has. -/
  | accept {v : ν} {n : ℕ} : n ≤ (s.author (s.term v)).length →
      (s.author (s.term v)).take n <+: s.log v →
      Step term members s { s with accepted := (v, s.term v, n) :: s.accepted }
  /-- A node commits what is chosen. -/
  | choose {a : ν} {t n c : ℕ} {batch : List (ν × ℕ × ε)} : Chosen term members s t n →
      (s.author t).take n <+: s.log a → EntriesOf a (s.log a) n batch →
      (c = n ∨ c = s.committed a) →
      Step term members s
        { s with committed := update s.committed a c, passed := batch ++ s.passed }
  /-- A node tells what it has committed. -/
  | notify {a : ν} {Y : List ε} : Y <+: (s.log a).take (s.committed a) →
      Step term members s { s with notices := Y :: s.notices }
  /-- A node commits what it was told. -/
  | learn {v : ν} {Y : List ε} {n c : ℕ} {batch : List (ν × ℕ × ε)} : Y ∈ s.notices →
      (s.log v).take n <+: Y → n ≤ (s.log v).length → EntriesOf v (s.log v) n batch →
      (c = n ∨ c = s.committed v) →
      Step term members s
        { s with committed := update s.committed v c, passed := batch ++ s.passed }

/-! ### The invariant -/

/-- What the node accepted before term `T`, the log goes on with, unless later
authors conflict with it. -/
def Carried (term : ε → ℕ) (s : State ν ε) (v : ν) (T : ℕ) (X : List ε) : Prop :=
  ∀ t n, (v, t, n) ∈ s.accepted → t < T → ∀ m ≤ n, Kept term s.author X t m T

structure AuthorInv (term : ε → ℕ) (s : State ν ε) : Prop where
  le : ∀ t, ∀ e ∈ s.author t, term e ≤ t
  built : ∀ t, Built term s.author (s.author t)
  won : ∀ t, s.author t ≠ [] → ∃ w ∈ s.wins, w.term = t

structure NodeInv (term : ε → ℕ) (s : State ν ε) : Prop where
  le : ∀ v, ∀ e ∈ s.log v, term e ≤ s.term v
  built : ∀ v, Built term s.author (s.log v)
  accepted : ∀ v t n, (v, t, n) ∈ s.accepted → t ≤ s.term v ∧ n ≤ (s.author t).length
  carried : ∀ v, Carried term s v (s.term v + 1) (s.log v)

structure VoteInv (term : ε → ℕ) (s : State ν ε) (x : Vote ν ε) : Prop where
  le : x.term ≤ s.term x.voter
  built : Built term s.author x.log
  carried : Carried term s x.voter x.term x.log

structure WinInv (term : ε → ℕ) (members : List ν) (s : State ν ε) (w : Win ν ε) : Prop where
  le : w.term ≤ s.term w.leader
  built : Built term s.author w.log
  starts : w.log <+: s.author w.term
  lt : ∀ e ∈ w.log, term e < w.term
  carried : Carried term s w.leader w.term w.log
  elected : ∃ Q, Majority members Q ∧ ∀ v ∈ Q, v = w.leader ∨
    ∃ x ∈ s.votes, x.voter = v ∧ x.term = w.term ∧ UpToDate term x.log w.log

structure SafeInv (term : ε → ℕ) (members : List ν) (s : State ν ε) : Prop where
  committed : ∀ v, s.committed v ≤ (s.log v).length ∧
    Safe term members s ((s.log v).take (s.committed v))
  notices : ∀ Y ∈ s.notices, Safe term members s Y
  passed : ∀ v id e, (v, id, e) ∈ s.passed → ∃ t n, Chosen term members s t n ∧ 0 < id ∧ id ≤ n ∧
    (s.author t)[id - 1]? = some e

structure Inv (term : ε → ℕ) (members : List ν) (s : State ν ε) : Prop where
  author : AuthorInv term s
  node : NodeInv term s
  vote : ∀ x ∈ s.votes, VoteInv term s x
  win : ∀ w ∈ s.wins, WinInv term members s w
  safe : SafeInv term members s

def State.init (ν ε : Type) : State ν ε where
  term := fun _ => 0
  log := fun _ => []
  committed := fun _ => 0
  author := fun _ => []
  votes := []
  wins := []
  accepted := []
  notices := []
  passed := []

theorem inv_init (term : ε → ℕ) (members : List ν) : Inv term members (State.init ν ε) where
  author := ⟨by simp [State.init], fun _ => built_nil, by simp [State.init]⟩
  node := ⟨by simp [State.init], fun _ => built_nil, by simp [State.init],
    by simp [State.init, Carried]⟩
  vote := by simp [State.init]
  win := by simp [State.init]
  safe := ⟨fun _ => ⟨Nat.zero_le _, .inl rfl⟩, by simp [State.init], by simp [State.init]⟩

/-! ### What stays when authors write and nodes accept -/

/-- Authors have written on and nodes have accepted more. -/
structure Extends (s s' : State ν ε) : Prop where
  author : ∀ t, s.author t <+: s'.author t
  accepted : ∀ p ∈ s.accepted, p ∈ s'.accepted

theorem Chosen.mono (h : Chosen term members s t n) (hs : Extends s s') :
    Chosen term members s' t n := by
  obtain ⟨hpos, ⟨e, he, hterm⟩, Q, hQ, hacc⟩ := h
  refine ⟨hpos, ⟨e, getElem?_of_isPrefix (hs.author t) he, hterm⟩, Q, hQ, fun v hv => ?_⟩
  obtain ⟨n', hn', hm⟩ := hacc v hv
  exact ⟨n', hn', hs.accepted _ hm⟩

theorem Chosen.le_length (h : Chosen term members s t n) : n ≤ (s.author t).length := by
  obtain ⟨hpos, ⟨e, he, -⟩, -⟩ := h
  have := (List.getElem?_eq_some_iff.mp he).1
  omega

theorem Safe.mono (h : Safe term members s X) (hs : Extends s s') : Safe term members s' X := by
  rcases h with h | ⟨t, n, hc, hX⟩
  · exact .inl h
  · refine .inr ⟨t, n, hc.mono hs, ?_⟩
    rw [take_eq_of_isPrefix (hs.author t) hc.le_length]
    exact hX

theorem Safe.of_isPrefix (h : Safe term members s Y) (hX : X <+: Y) : Safe term members s X := by
  rcases h with rfl | ⟨t, n, hc, hY⟩
  · exact .inl (prefix_nil.mp hX)
  · exact .inr ⟨t, n, hc, hX.trans hY⟩

/-- Terms have risen and authors have written on, and nobody has accepted anything. -/
structure Grows (s s' : State ν ε) : Prop where
  term : ∀ v, s.term v ≤ s'.term v
  author : ∀ t, s.author t <+: s'.author t
  accepted : s'.accepted = s.accepted

omit [DecidableEq ν] in
theorem Grows.extends (h : Grows s s') : Extends s s' :=
  ⟨h.author, fun _ hp => h.accepted ▸ hp⟩

omit [DecidableEq ν] in
theorem Carried.grow (h : Carried term s v t X) (hnode : NodeInv term s) (hg : Grows s s') :
    Carried term s' v t X := by
  intro t₁ n hm hlt m hmn
  rw [hg.accepted] at hm
  have hlen := (hnode.accepted v t₁ n hm).2
  exact (h t₁ n hm hlt m hmn).grow hg.author (hmn.trans hlen)

omit [DecidableEq ν] in
theorem Carried.accept (h : Carried term s v t X) (hauthor : s'.author = s.author)
    (hacc : s'.accepted = (a, t', n) :: s.accepted) (hle : v = a → t ≤ t') :
    Carried term s' v t X := by
  intro t₁ n₁ hm hlt m hmn
  rw [hauthor]
  rw [hacc, mem_cons] at hm
  rcases hm with hm | hm
  · simp only [Prod.mk.injEq] at hm
    have := hle hm.1
    omega
  · exact h t₁ n₁ hm hlt m hmn

omit [DecidableEq ν] in
theorem VoteInv.grow {x : Vote ν ε} (h : VoteInv term s x) (hnode : NodeInv term s)
    (hg : Grows s s') : VoteInv term s' x where
  le := h.le.trans (hg.term _)
  built := h.built.mono hg.author
  carried := h.carried.grow hnode hg

theorem WinInv.grow (h : WinInv term members s w) (hnode : NodeInv term s) (hg : Grows s s')
    (hvotes : ∀ x ∈ s.votes, x ∈ s'.votes) : WinInv term members s' w where
  le := h.le.trans (hg.term _)
  built := h.built.mono hg.author
  starts := h.starts.trans (hg.author _)
  lt := h.lt
  carried := h.carried.grow hnode hg
  elected := by
    obtain ⟨Q, hQ, hvote⟩ := h.elected
    refine ⟨Q, hQ, fun v hv => ?_⟩
    rcases hvote v hv with hv | ⟨x, hx, hrest⟩
    · exact .inl hv
    · exact .inr ⟨x, hvotes x hx, hrest⟩

omit [DecidableEq ν] in
theorem NodeInv.grow (h : NodeInv term s) (hlog : s'.log = s.log) (hg : Grows s s') :
    NodeInv term s' where
  le := by
    intro v e he
    rw [hlog] at he
    exact (h.le v e he).trans (hg.term v)
  built := by
    intro v
    rw [hlog]
    exact (h.built v).mono hg.author
  accepted := by
    intro v t n hm
    rw [hg.accepted] at hm
    obtain ⟨hle, hlen⟩ := h.accepted v t n hm
    exact ⟨hle.trans (hg.term v), hlen.trans (hg.author t).length_le⟩
  carried := by
    intro v t n hm hlt m hmn
    rw [hg.accepted] at hm
    obtain ⟨hle, hlen⟩ := h.accepted v t n hm
    rw [hlog]
    have hkept := (h.carried v t n hm (by omega) m hmn).grow hg.author (hmn.trans hlen)
    have := hg.term v
    exact hkept.mono (prefix_refl _) (by omega)

theorem SafeInv.mono (h : SafeInv term members s) (hs : Extends s s') (hlog : s'.log = s.log)
    (hcomm : s'.committed = s.committed) (hnot : s'.notices = s.notices)
    (hpass : s'.passed = s.passed) : SafeInv term members s' where
  committed := by
    intro v
    rw [hlog, hcomm]
    exact ⟨(h.committed v).1, (h.committed v).2.mono hs⟩
  notices := by
    intro Y hY
    rw [hnot] at hY
    exact (h.notices Y hY).mono hs
  passed := by
    intro v id e hm
    rw [hpass] at hm
    obtain ⟨t, n, hc, hpos, hle, he⟩ := h.passed v id e hm
    exact ⟨t, n, hc.mono hs, hpos, hle, getElem?_of_isPrefix (hs.author t) he⟩

theorem le_update (h : s.term v ≤ t) : ∀ u, s.term u ≤ update s.term v t u :=
  (forall_update_iff s.term fun u t => s.term u ≤ t).mpr ⟨h, fun _ _ => le_rfl⟩

section

variable (h : Inv term members s)
include h

theorem Inv.of_grows (hg : Grows s s') (hvotes : s'.votes = s.votes) (hwins : s'.wins = s.wins)
    (hauthor : AuthorInv term s') (hnode : NodeInv term s') (hsafe : SafeInv term members s') :
    Inv term members s' where
  author := hauthor
  node := hnode
  vote := by
    rw [hvotes]
    exact fun x hx => (h.vote x hx).grow h.node hg
  win := by
    rw [hwins]
    exact fun w hw => (h.win w hw).grow h.node hg fun x hx => hvotes ▸ hx
  safe := hsafe

/-! ### Elections -/

theorem Inv.advance (ht : s.term v ≤ t) :
    Inv term members { s with term := update s.term v t } := by
  have hg : Grows s { s with term := update s.term v t } :=
    ⟨le_update ht, fun _ => prefix_refl _, rfl⟩
  exact h.of_grows hg rfl rfl ⟨h.author.le, h.author.built, h.author.won⟩ (h.node.grow rfl hg)
    (h.safe.mono hg.extends rfl rfl rfl rfl)

theorem Inv.carried_of_lt (ht : s.term v < t) :
    Carried term s v t (s.log v) := by
  intro t₁ n hm _ m hmn
  have hle := (h.node.accepted v t₁ n hm).1
  exact (h.node.carried v t₁ n hm (by omega) m hmn).mono (prefix_refl _) ht

theorem Inv.voted (ht : s.term v < t) :
    Inv term members
      { s with term := update s.term v t, votes := ⟨v, t, s.log v⟩ :: s.votes } := by
  have hg : Grows s { s with term := update s.term v t, votes := ⟨v, t, s.log v⟩ :: s.votes } :=
    ⟨le_update ht.le, fun _ => prefix_refl _, rfl⟩
  refine ⟨⟨h.author.le, h.author.built, h.author.won⟩, h.node.grow rfl hg,
    forall_mem_cons.mpr ⟨⟨?_, h.node.built v, h.carried_of_lt ht⟩,
      fun x hx => (h.vote x hx).grow h.node hg⟩,
    fun w hw => (h.win w hw).grow h.node hg fun _ hx => mem_cons_of_mem _ hx,
    h.safe.mono hg.extends rfl rfl rfl rfl⟩
  simp only [update_self]
  exact le_refl t

end

omit [DecidableEq ν] in
theorem isPrefix_update (h : s.author t <+: X) : ∀ u, s.author u <+: update s.author t X u :=
  (forall_update_iff s.author fun u X => s.author u <+: X).mpr ⟨h, fun _ _ => prefix_refl _⟩

omit [DecidableEq ν] in
/-- The authors' logs are built after one of them has written entries of its own
term behind a built log. -/
theorem AuthorInv.update (h : AuthorInv term s) (hX : Built term s.author X)
    (hle : ∀ e ∈ X, term e ≤ t) (hY : ∀ e ∈ Y, term e = t) (hpre : s.author t <+: X ++ Y)
    (hauthor : s'.author = update s.author t (X ++ Y))
    (hwins : ∀ w ∈ s.wins, w ∈ s'.wins) (hwon : ∃ w ∈ s'.wins, w.term = t) :
    AuthorInv term s' where
  le := by
    rw [hauthor, forall_update_iff s.author fun u X => ∀ e ∈ X, term e ≤ u]
    exact ⟨forall_mem_append.mpr ⟨hle, fun e he => (hY e he).le⟩, fun u _ => h.le u⟩
  built := by
    have hL := isPrefix_update hpre
    rw [hauthor, forall_update_iff s.author fun _ X => Built term _ X]
    refine ⟨(hX.mono hL).append hY ?_, fun u _ => (h.built u).mono hL⟩
    rw [update_self]
  won := by
    rw [hauthor, forall_update_iff s.author fun u X => X ≠ [] → ∃ w ∈ s'.wins, w.term = u]
    refine ⟨fun _ => hwon, fun u _ hu => ?_⟩
    obtain ⟨w, hw, hterm⟩ := h.won u hu
    exact ⟨w, hwins w hw, hterm⟩

section

variable (h : Inv term members s)
include h

theorem Inv.won (ht : s.term a < t) (hnil : s.author t = []) (hQ : Majority members Q)
    (hvote : ∀ v ∈ Q, v = a ∨ ∃ x ∈ s.votes, x.voter = v ∧ x.term = t ∧
      UpToDate term x.log (s.log a)) :
    Inv term members
      { s with term := update s.term a t, author := update s.author t (s.log a)
               wins := ⟨a, t, s.log a⟩ :: s.wins } := by
  have hlt : ∀ e ∈ s.log a, term e < t := fun e he => (h.node.le a e he).trans_lt ht
  have hg : Grows s { s with term := update s.term a t, author := update s.author t (s.log a)
                             wins := ⟨a, t, s.log a⟩ :: s.wins } :=
    ⟨le_update ht.le, isPrefix_update (by rw [hnil]; exact nil_prefix), rfl⟩
  constructor
  case author =>
    refine h.author.update (Y := []) (h.node.built a) (fun e he => (hlt e he).le) (by simp) ?_ ?_
      (fun w hw => mem_cons_of_mem _ hw) ⟨_, mem_cons_self, rfl⟩
    · rw [hnil]
      exact nil_prefix
    · rw [append_nil]
  case node => exact h.node.grow rfl hg
  case vote => exact fun x hx => (h.vote x hx).grow h.node hg
  case win =>
    refine forall_mem_cons.mpr ⟨⟨?_, (h.node.built a).mono hg.author, ?_, hlt,
      (h.carried_of_lt ht).grow h.node hg, Q, hQ, hvote⟩,
        fun w hw => (h.win w hw).grow h.node hg fun _ hx => hx⟩
    · simp only [update_self]
      exact le_refl t
    · simp only [update_self]
      exact prefix_refl _
  case safe => exact h.safe.mono hg.extends rfl rfl rfl rfl

theorem Inv.written (hwon : ∃ w ∈ s.wins, w.term = t) (hX : ∀ e ∈ X, term e = t) :
    Inv term members { s with author := update s.author t (s.author t ++ X) } := by
  have hpre : s.author t <+: s.author t ++ X := prefix_append _ _
  have hg : Grows s { s with author := update s.author t (s.author t ++ X) } :=
    ⟨fun _ => le_refl _, isPrefix_update hpre, rfl⟩
  exact h.of_grows hg rfl rfl
    (h.author.update (h.author.built t) (h.author.le t) hX hpre rfl (fun _ hw => hw) hwon)
    (h.node.grow rfl hg) (h.safe.mono hg.extends rfl rfl rfl rfl)

/-! ### Logs -/

theorem Inv.setLog (hle : ∀ e ∈ X, term e ≤ s.term v)
    (hbuilt : Built term s.author X) (hcarried : Carried term s v (s.term v + 1) X)
    (hlen : s.committed v ≤ X.length)
    (htake : X.take (s.committed v) = (s.log v).take (s.committed v)) :
    Inv term members { s with log := update s.log v X } := by
  refine h.of_grows ⟨fun _ => le_refl _, fun _ => prefix_refl _, rfl⟩ rfl rfl
    ⟨h.author.le, h.author.built, h.author.won⟩ ?_ ⟨?_, h.safe.notices, h.safe.passed⟩
  · constructor
    case le =>
      exact (forall_update_iff s.log fun u X => ∀ e ∈ X, term e ≤ s.term u).mpr
        ⟨hle, fun u _ => h.node.le u⟩
    case built =>
      exact (forall_update_iff s.log fun _ X => Built term s.author X).mpr
        ⟨hbuilt, fun u _ => h.node.built u⟩
    case accepted => exact h.node.accepted
    case carried =>
      exact (forall_update_iff s.log fun u X => Carried term s u (s.term u + 1) X).mpr
        ⟨hcarried, fun u _ => h.node.carried u⟩
  · refine (forall_update_iff s.log fun u X => s.committed u ≤ X.length ∧
      Safe term members s (X.take (s.committed u))).mpr ⟨⟨hlen, ?_⟩, fun u _ => h.safe.committed u⟩
    rw [htake]
    exact (h.safe.committed v).2

theorem Inv.cut (hc : s.committed v ≤ c) (he : (s.log v)[c]? = some e)
    (hf : (s.author (s.term v))[c]? = some f) (hne : term e ≠ term f) :
    Inv term members { s with log := update s.log v ((s.log v).take c) } := by
  have hlt : c < (s.log v).length := (List.getElem?_eq_some_iff.mp he).1
  refine h.setLog (fun e he => h.node.le v e (mem_of_mem_take he)) ((h.node.built v).take c)
    ?_ ?_ ?_
  · intro t n hm htv m hmn
    have hkept := h.node.carried v t n hm htv m hmn
    -- a conflict `Kept` already speaks of is one before the term after this one
    rcases hkept with hkept | hconf
    · exact Kept.cut (.inl hkept) (by omega) he hf hne
    · exact .inr hconf
  · rw [length_take]
    omega
  · rw [take_take, min_eq_left hc]

theorem Inv.extend (hY : s.log v <+: Y) (hauthor : Y <+: s.author (s.term v)) :
    Inv term members { s with log := update s.log v Y } := by
  have hlen := (h.safe.committed v).1
  refine h.setLog (fun e he => h.author.le _ e (hauthor.subset he))
    ((h.author.built _).of_isPrefix hauthor) ?_ (hlen.trans hY.length_le)
    (take_eq_of_isPrefix hY hlen)
  intro t n hm htv m hmn
  exact (h.node.carried v t n hm htv m hmn).mono hY (le_refl _)

theorem Inv.accept (hn : n ≤ (s.author (s.term v)).length)
    (hpre : (s.author (s.term v)).take n <+: s.log v) :
    Inv term members { s with accepted := (v, s.term v, n) :: s.accepted } where
  author := ⟨h.author.le, h.author.built, h.author.won⟩
  node := by
    refine ⟨h.node.le, h.node.built, ?_, ?_⟩
    · intro u t n' hm
      rcases mem_cons.mp hm with hm | hm
      · cases hm
        exact ⟨le_refl _, hn⟩
      · exact h.node.accepted u t n' hm
    · intro u t n' hm htu m hmn
      rcases mem_cons.mp hm with hm | hm
      · cases hm
        exact .inl (take_prefix_of_le hpre hmn)
      · exact h.node.carried u t n' hm htu m hmn
  vote := by
    intro x hx
    have hxv := h.vote x hx
    refine ⟨hxv.le, hxv.built, hxv.carried.accept rfl rfl ?_⟩
    intro hv
    rw [← hv]
    exact hxv.le
  win := by
    intro w hw
    have hwv := h.win w hw
    refine ⟨hwv.le, hwv.built, hwv.starts, hwv.lt, hwv.carried.accept rfl rfl ?_, hwv.elected⟩
    intro hv
    rw [← hv]
    exact hwv.le
  safe := h.safe.mono ⟨fun _ => prefix_refl _, fun _ hm => mem_cons_of_mem _ hm⟩
    rfl rfl rfl rfl

/-! ### Committing -/

theorem Inv.commit {batch : List (ν × ℕ × ε)}
    (hn : n ≤ (s.log v).length) (hsafe : Safe term members s ((s.log v).take n))
    (hbatch : EntriesOf v (s.log v) n batch) (hc : c = n ∨ c = s.committed v) : Inv term members
      { s with committed := update s.committed v c, passed := batch ++ s.passed } := by
  refine h.of_grows ⟨fun _ => le_refl _, fun _ => prefix_refl _, rfl⟩ rfl rfl
    ⟨h.author.le, h.author.built, h.author.won⟩
    ⟨h.node.le, h.node.built, h.node.accepted, h.node.carried⟩ ⟨?_, h.safe.notices, ?_⟩
  · refine (forall_update_iff s.committed fun u c => c ≤ (s.log u).length ∧
      Safe term members s ((s.log u).take c)).mpr ⟨?_, fun u _ => h.safe.committed u⟩
    rcases hc with rfl | rfl
    · exact ⟨hn, hsafe⟩
    · exact h.safe.committed v
  intro u id e hm
  rcases mem_append.mp hm with hm | hm
  · obtain ⟨-, hpos, hle, he⟩ := hbatch _ hm
    simp only at hpos hle he
    have hmem : ((s.log v).take n)[id - 1]? = some e := by
      rw [getElem?_take_of_lt (by omega)]
      exact he
    rcases hsafe with hnil | ⟨t, m, hc, hX⟩
    · simp [hnil] at hmem
    have hget : ((s.author t).take m)[id - 1]? = some e := getElem?_of_isPrefix hX hmem
    have hi := (List.getElem?_eq_some_iff.mp hget).1
    rw [length_take] at hi
    rw [getElem?_take_of_lt (by omega)] at hget
    exact ⟨t, m, hc, hpos, by omega, hget⟩
  · exact h.safe.passed u id e hm

end

section

variable (h : Inv term members s)
include h

theorem Inv.notify (hY : Y <+: (s.log a).take (s.committed a)) :
    Inv term members { s with notices := Y :: s.notices } := by
  refine h.of_grows ⟨fun _ => le_refl _, fun _ => prefix_refl _, rfl⟩ rfl rfl
    ⟨h.author.le, h.author.built, h.author.won⟩
    ⟨h.node.le, h.node.built, h.node.accepted, h.node.carried⟩
    ⟨h.safe.committed, forall_mem_cons.mpr ⟨?_, h.safe.notices⟩, h.safe.passed⟩
  exact (h.safe.committed a).2.of_isPrefix hY

theorem Inv.step (hs : Step term members s s') : Inv term members s' := by
  cases hs with
  | advance ht => exact h.advance ht
  | vote ht => exact h.voted ht
  | win ht hnil hQ hvote => exact h.won ht hnil hQ hvote
  | write hwon hX => exact h.written hwon hX
  | cut hc he hf hne => exact h.cut hc he hf hne
  | extend hY hauthor => exact h.extend hY hauthor
  | accept hn hpre => exact h.accept hn hpre
  | @choose a t n c batch hchosen hpre hbatch hc =>
    have hlen : n ≤ (s.log a).length := by
      have := hpre.length_le
      rwa [length_take_of_le hchosen.le_length] at this
    have htake : (s.log a).take n = (s.author t).take n := by
      have := take_eq_of_isPrefix hpre (by rw [length_take_of_le hchosen.le_length])
      rw [this, take_take, min_self]
    refine h.commit hlen (.inr ⟨t, n, hchosen, ?_⟩) hbatch hc
    rw [htake]
  | notify hY => exact h.notify hY
  | learn hY hpre hn hbatch hc =>
    exact h.commit hn ((h.safe.notices _ hY).of_isPrefix hpre) hbatch hc

theorem Inv.steps (hs : Relation.ReflTransGen (Step term members) s s') : Inv term members s' := by
  induction hs with
  | refl => exact h
  | tail _ hs ih => exact ih.step hs

/-! ### Agreement -/

/-- **What is chosen in one term is part of the log every later author started from.** -/
theorem Inv.chosen_isPrefix_win {w : Win ν ε} (hc : Chosen term members s t n) (hw : w ∈ s.wins)
    (hlt : t < w.term) : (s.author t).take n <+: w.log := by
  obtain ⟨hpos, ⟨e, he, hterm⟩, Q, ⟨hQ, hcard⟩, hacc⟩ := hc
  have hlast : e ∈ (s.author t).take n := by
    refine mem_of_getElem? (i := n - 1) ?_
    rw [getElem?_take_of_lt (by omega)]
    exact he
  -- the logs the authors started from
  let W : ℕ → List ε → Prop := fun t Y => ∃ w ∈ s.wins, w.term = t ∧ w.log = Y
  have hwon : ∀ t, s.author t ≠ [] → ∃ Y, W t Y := by
    intro u hu
    obtain ⟨w, hw, hwt⟩ := h.author.won u hu
    exact ⟨w.log, w, hw, hwt, rfl⟩
  have hW : ∀ t Y, W t Y → Built term s.author Y ∧ Y <+: s.author t ∧ ∀ e ∈ Y, term e < t := by
    rintro u Y ⟨w, hw, rfl, rfl⟩
    exact ⟨(h.win w hw).built, (h.win w hw).starts, (h.win w hw).lt⟩
  have hvoter : ∀ t' Y, W t' Y → t < t' →
      ∃ X, Built term s.author X ∧ Kept term s.author X t n t' ∧ UpToDate term X Y := by
    rintro u Y ⟨w, hw, rfl, rfl⟩ htu
    have hwv := h.win w hw
    obtain ⟨Q', ⟨hQ', hcard'⟩, hvote⟩ := hwv.elected
    -- a member that accepted the entry and voted for the author
    obtain ⟨v, hv, hv'⟩ := exists_mem_of_majorities hQ hQ' hcard hcard'
    obtain ⟨n', hn', hm⟩ := hacc v hv
    rcases hvote v hv' with rfl | ⟨x, hx, rfl, hxt, hup⟩
    · exact ⟨w.log, hwv.built, hwv.carried t n' hm htu n hn', .inr (.inr ⟨rfl, le_refl _⟩)⟩
    have hxv := h.vote x hx
    refine ⟨x.log, hxv.built, ?_, hup⟩
    rw [← hxt] at htu ⊢
    exact hxv.carried t n' hm htu n hn'
  exact leader_completeness h.author.le hwon hW (.inr ⟨e, hlast, hterm⟩) hvoter w.term w.log
    ⟨w, hw, rfl, rfl⟩ hlt

theorem Inv.chosen_isPrefix (hc : Chosen term members s t n) (hlt : t < t')
    (hne : s.author t' ≠ []) : (s.author t).take n <+: s.author t' := by
  obtain ⟨w, hw, rfl⟩ := h.author.won t' hne
  exact (h.chosen_isPrefix_win hc hw hlt).trans (h.win w hw).starts

/-- Whoever is elected in the newest term has all that is chosen. -/
theorem Inv.chosen_isPrefix_newest {w : Win ν ε} (hc : Chosen term members s t n)
    (hw : w ∈ s.wins) (hnew : ∀ v, s.term v ≤ w.term) :
    (s.author t).take n <+: s.author w.term := by
  obtain ⟨-, -, Q, ⟨-, hcard⟩, hacc⟩ := id hc
  obtain ⟨v, hv⟩ : Q.Nonempty := Finset.card_pos.mp (by omega)
  obtain ⟨n', -, hm⟩ := hacc v hv
  rcases ((h.node.accepted v t n' hm).1.trans (hnew v)).lt_or_eq with hlt | rfl
  · exact (h.chosen_isPrefix_win hc hw hlt).trans (h.win w hw).starts
  · exact take_prefix _ _

theorem Inv.chosen_agree {id : ℕ} (hc : Chosen term members s t n)
    (hc' : Chosen term members s t' n') (hle : t ≤ t') (hid : id < n)
    (he : (s.author t)[id]? = some e) (hf : (s.author t')[id]? = some f) : e = f := by
  have hmem : ((s.author t).take n)[id]? = some e := by
    rw [getElem?_take_of_lt hid]
    exact he
  have hpre : (s.author t).take n <+: s.author t' := by
    rcases lt_or_eq_of_le hle with hlt | rfl
    · refine h.chosen_isPrefix hc hlt ?_
      obtain ⟨-, ⟨g, hg, -⟩, -⟩ := hc'
      exact ne_nil_of_mem (mem_of_getElem? hg)
    · exact take_prefix _ _
  have hget := getElem?_of_isPrefix hpre hmem
  rw [hf, Option.some.injEq] at hget
  exact hget.symm

/-- **State machine safety.**  Entries passed on under one id are the same. -/
theorem Inv.agree {id : ℕ} (he : (v, id, e) ∈ s.passed) (hf : (u, id, f) ∈ s.passed) : e = f := by
  obtain ⟨t, n, hc, hpos, hle, hget⟩ := h.safe.passed v id e he
  obtain ⟨t', n', hc', -, hle', hget'⟩ := h.safe.passed u id f hf
  rcases le_total t t' with htt | htt
  · exact h.chosen_agree hc hc' htt (by omega) hget hget'
  · exact (h.chosen_agree hc' hc htt (by omega) hget' hget).symm

end

end K2Graph.Consensus
