import K2Graph.Raft.Applied

/-!
# Acknowledgements

When the future of `Host::appendLogs(term, logId, ...)` is fulfilled with
`SUCCEEDED` on a leader, the follower should hold the leader's logs up to `logId`.
`Host` says `SUCCEEDED` in five places: when it takes the log for sent already, when
an answer `SUCCEEDED` shows that all is sent or that nothing was, when an answer
`E_LOG_GAP` tells of the log sent last, and when an answer `E_LOG_STALE` tells of a
later log.  None of them looks at the term of the follower's last log, so this is not
ensured: an answer `E_LOG_GAP` of a follower that has just dropped everything is taken
for success.

It is ensured when the last log an answer tells of is of the leader's own term and not
before the log of the call, and the follower has not left that term: what is accepted in
a term is kept in it.

## Main results

* `Group.ackSound_of_provenAck` — proven acknowledgements are sound.
* `Group.not_ackSound_gapRun` — a run with one that is not.
-/

namespace K2Graph.Raft

namespace Host

/-- The answer tells a leader of a last log of its own term, not before the log of any of the
calls, and the follower has not left the term. -/
def tells (leader follower : RaftPart) (resp : AppendLogResponse) (calls : List Call) : Bool :=
  decide (follower.term = leader.term ∧ resp.lastLogTerm = leader.term ∧
    ∀ c ∈ calls, c.logId ≤ resp.lastLogId)

/-- Where an answer makes the host of a leader say `SUCCEEDED`, it proves the calls that are
fulfilled. -/
def provenResponse (leader follower : RaftPart) (h : Host) (resp : AppendLogResponse) : Bool :=
  match resp.errorCode with
  | .succeeded =>
      if resp.lastLogId ≤ h.lastLogIdSent then
        -- nothing was sent in the last request
        tells leader follower resp (h.promise ++ h.cachingPromise)
      else decide (resp.lastLogId < h.logIdToSend) || tells leader follower resp h.promise
  | .eLogGap => decide (h.lastLogIdSent ≠ resp.lastLogId)
  | .eLogStale =>
      decide (resp.lastLogId < h.logIdToSend) ||
        tells leader follower resp (h.promise ++ h.cachingPromise)
  | _ => true

theorem mem_setResponse {h : Host} (hc : (c, .succeeded) ∈ (h.setResponse code).fulfilled) :
    code = .succeeded ∧ c ∈ h.promise ++ h.cachingPromise := by
  obtain ⟨c', hc', heq⟩ := List.mem_map.mp hc
  obtain ⟨rfl, rfl⟩ := Prod.mk.inj heq
  exact ⟨rfl, hc'⟩

theorem exists_tells (hok : provenResponse leader follower h resp = true)
    (hc : (c, .succeeded) ∈ (onResponse flags p h resp).fulfilled) :
    RaftPart.accepts resp.errorCode ∧
      ∃ calls, tells leader follower resp calls = true ∧ c ∈ calls := by
  have hstatus (hne : h.checkStatus ≠ .succeeded)
      (hmem : (c, .succeeded) ∈ (h.setResponse h.checkStatus).fulfilled) : False :=
    hne (mem_setResponse hmem).1
  unfold onResponse at hc
  unfold provenResponse at hok
  split at hc
  · rename_i hcode
    refine ⟨.inl hcode, ?_⟩
    simp only [hcode] at hok
    unfold onSucceeded at hc
    have hsent (hnone : ¬resp.lastLogId ≤ h.lastLogIdSent) (hall : ¬resp.lastLogId < h.logIdToSend)
        (hmem : (c, ErrorCode.succeeded) ∈ h.promise.map fun c => (c, ErrorCode.succeeded)) :
        ∃ calls, tells leader follower resp calls = true ∧ c ∈ calls := by
      simp only [if_neg hnone, hall, decide_false, Bool.false_or] at hok
      obtain ⟨c', hc', heq⟩ := List.mem_map.mp hmem
      obtain ⟨rfl, -⟩ := Prod.mk.inj heq
      exact ⟨_, hok, hc'⟩
    split_ifs at hc with hne hnone hmore hpending
    · exact (hstatus hne hc).elim
    · rw [if_pos hnone] at hok
      exact ⟨_, hok, (mem_setResponse hc).2⟩
    · cases hc
    · exact hsent hnone hmore hc
    · exact hsent hnone hmore hc
  · rename_i hcode
    simp only [hcode, decide_eq_true_eq] at hok
    unfold onLogGap at hc
    split_ifs at hc with hne
    · exact (hstatus hne hc).elim
    · cases hc
  · unfold onWaitingSnapshot at hc
    split_ifs at hc with hne
    · exact (hstatus hne hc).elim
    · cases hc
  · rename_i hcode
    refine ⟨.inr (.inr hcode), ?_⟩
    simp only [hcode] at hok
    unfold onLogStale at hc
    split_ifs at hc with hne hahead
    · exact (hstatus hne hc).elim
    · simp only [Nat.not_lt.mpr hahead, decide_false, Bool.false_or] at hok
      exact ⟨_, hok, (mem_setResponse hc).2⟩
    · cases hc
  · rename_i hne _ _ _
    exact absurd (mem_setResponse hc).1 hne

theorem le_of_fulfilled {args : CallArgs}
    (hc : (c, .succeeded) ∈ (appendLogs flags p h args).fulfilled) :
    c = args.toCall ∧ args.logId ≤ h.lastLogIdSent := by
  unfold appendLogs at hc
  split_ifs at hc with hsent _ _ hne _
  · exact ⟨(Prod.mk.inj (List.mem_singleton.mp hc)).1, hsent⟩
  · cases hc
  · cases (Prod.mk.inj (List.mem_singleton.mp hc)).2
  · exact absurd (Prod.mk.inj (List.mem_singleton.mp hc)).2.symm hne
  · cases hc
  · cases hc

end Host

namespace Group

variable {cfg : Config} {s s' : Group} {act : Action}

/-! ### The property and the condition -/

/-- Whoever is reported to a leader to have the logs of a call does have them, as
far as the leader still has them. -/
def AckSound (s : Group) : Prop :=
  ∀ a v c, (a, v, c) ∈ s.acked → (s.nodes a).part.role = .leader →
    ∀ id ≤ c.logId, ∀ e, (s.nodes a).part.wal.get? id = some e →
      (s.nodes v).part.wal.get? id = some e

/-- **The conditions of the five places**, on the state before: a log that is taken for sent
was accepted by the follower in the leader's term, which it has not left, and an answer proves
the calls it fulfils. -/
def provenAck (s : Group) : Action → Bool
  | .hostAppendLogs a i =>
      match (s.nodes a).calls[i]? with
      | some (v, c) =>
          let p := (s.nodes a).part
          decide (p.role = .leader → c.logId ≤ ((s.nodes a).host v).lastLogIdSent →
            (s.nodes v).part.term = p.term ∧
              ∃ y ∈ s.accepted, y.1 = v ∧ y.2.1 = p.term ∧ c.logId ≤ y.2.2)
      | none => true
  | .recvAppendResponse i =>
      match s.net[i]? with
      | some (.appendResp v a rid resp) =>
          let p := (s.nodes a).part
          let h := (s.nodes a).host v
          decide (p.role = .leader → h.requestOnGoing = true → h.rid = rid →
            h.provenResponse p (s.nodes v).part resp = true)
      | _ => true
  | _ => true

def ackOk (cfg : Config) (s : Group) (act : Action) : Bool := s.safetyOk cfg act && s.provenAck act

/-! ### What an answer tells -/

theorem term_le_effect (hel : ElectionInv cfg s) (hfresh : s.freshElection act = true)
    (he : Effect cfg s act s') (b : HostAddr) :
    (s.nodes b).part.term ≤ (s'.nodes b).part.term := by
  cases he with
  | stir hst =>
    obtain ⟨role, leader, tasks, hpart, -⟩ := hst.part
    exact term_setNode (by rw [hpart]) b
  | drop _ => exact le_refl _
  | prepare _ _ | collect _ _ _ _ _ | replicate _ _ | settle _ _ | clean _ =>
    refine term_setNode ?_ b
    exact le_refl _
  | vote _ hg =>
    refine term_setNode ?_ b
    exact (hel.lt_of_grants hg).le
  | win _ hasking hwon =>
    refine term_setNode ?_ b
    exact (lt_of_freshElection hasking hwon hfresh).1.le
  | append _ _ _ happ =>
    refine term_setNode ?_ b
    exact (RaftPart.appendToWal_alike happ).term.ge
  | host _ =>
    rw [hostOutcome_nodes]
    refine term_setNode ?_ b
    exact le_refl _
  | @receive i rid recent commitOk src dst req cut out _ hout =>
    refine term_setNode ?_ b
    obtain ⟨q, hq, halike⟩ :=
      (s.nodes dst).part.processAppendLogRequest_alike req recent commitOk
    rw [hout, halike.term]
    rcases hq with rfl | hq
    · exact le_refl _
    · obtain ⟨_, _, _, heq, -, hle, -⟩ := hq.eq
      rw [heq]
      exact hle
  | commit _ _ _ _ _ _ hpart _ _ _ _ _ =>
    obtain ⟨role, leader, committed, hpart, -⟩ := hpart
    exact term_setNode (by rw [hpart]) b

/-- The last log an answer tells of was accepted in its term, or the follower has left that
term. -/
def AnswersTell (s : Group) : Prop :=
  ∀ v a rid resp, .appendResp v a rid resp ∈ s.net → RaftPart.accepts resp.errorCode →
    (v, resp.lastLogTerm, resp.lastLogId) ∈ s.accepted ∨
      resp.lastLogTerm < (s.nodes v).part.term

theorem lastLogTerm_le_of_reach (hnd : cfg.members.Nodup)
    (h : Reach (step cfg) (fun s act => s.safetyOk cfg act = true) (init cfg) s) (a : HostAddr) :
    (s.nodes a).part.lastLogTerm ≤ (s.nodes a).part.term := by
  have hsound := sound_of_reach hnd h
  obtain ⟨-, N, -, hinv⟩ := refined_of_reach hnd h
  rcases Nat.eq_zero_or_pos (s.nodes a).part.lastLogId with h0 | hpos
  · rw [(hsound.send.intact a).lastTerm h0]
    exact Nat.zero_le _
  · obtain ⟨e, he, hterm⟩ := (hsound.log.wf a).exists_last hpos
    rw [← hterm]
    exact hinv.node.le a e (List.mem_of_getElem? he)

theorem AnswersTell.effect (h : s.AnswersTell) (hsound : Sound cfg s) (hsound' : Sound cfg s')
    (hle : ∀ a, (s'.nodes a).part.lastLogTerm ≤ (s'.nodes a).part.term)
    (hok : s.safetyOk cfg act = true) (he : Effect cfg s act s') : s'.AnswersTell := by
  have hmatch := matchingOk_of_safetyOk hok
  have hterm := term_le_effect hsound.election (freshElection_of_matchingOk hmatch) he
  have hacc : ∀ x ∈ s.accepted, x ∈ s'.accepted := by
    intro x hx
    cases he with
    | receive _ _ => exact List.mem_append_right _ hx
    | commit _ _ _ _ _ _ _ _ _ _ _ _ => exact List.mem_cons_of_mem _ hx
    | _ => exact hx
  intro v a rid resp hm hcode
  have hold (hm : .appendResp v a rid resp ∈ s.net) :
      (v, resp.lastLogTerm, resp.lastLogId) ∈ s'.accepted ∨
        resp.lastLogTerm < (s'.nodes v).part.term :=
    (h v a rid resp hm hcode).imp (hacc _) fun hlt => hlt.trans_le (hterm v)
  cases he with
  | drop hnet =>
    rcases hnet _ hm with hm | ⟨_, _, _, _, h0, -⟩
    · exact hold hm
    · cases h0
  | prepare _ _ =>
    rcases List.mem_append.mp hm with hm | hm
    · exact hold hm
    · obtain ⟨_, -, h0⟩ := List.mem_map.mp hm
      cases h0
  | vote _ _ =>
    rcases List.mem_append.mp hm with hm | hm
    · exact hold (List.mem_of_mem_eraseIdx hm)
    · cases List.mem_singleton.mp hm
  | collect _ _ _ _ hnet => exact hold (hnet _ hm)
  | @host _ _ _ _ _ out hs =>
    simp only [hostOutcome, List.mem_append] at hm
    rcases hm with hm | hm
    · exact hold (hs.mem_net _ hm)
    · cases hreq : out.request with
      | none => simp [hreq] at hm
      | some req => simp [hreq] at hm
  | @receive i rid' recent commitOk src dst req cut out hmsg hout =>
    rcases List.mem_append.mp hm with hm | hm
    · exact hold (List.mem_of_mem_eraseIdx hm)
    split at hm
    · cases hm
    obtain ⟨rfl, rfl, rfl, rfl⟩ := Message.appendResp.inj (List.mem_singleton.mp hm)
    obtain ⟨hsnap, -⟩ := hsound.lastLogTermSent_le hmsg hmatch
    have htells : RaftPart.TellsLast out := by
      rcases RaftPart.processAppendLogRequest_cases (hsound.log.running v) hsnap recent commitOk
        with ⟨-, -, -, hno⟩ | ⟨-, q, -, hhand⟩
      · exact absurd (hout ▸ hcode) hno
      · exact (hout ▸ hhand).tellsLast
    have hint := hsound'.send.intact v
    have haddr := hsound'.fixed.addr v
    have hle := hle v
    simp only [setNode_nodes_self] at hint haddr hle ⊢
    obtain ⟨hlast, hid | hlt⟩ := htells
    · rw [hlast, hid]
      rcases hle.lt_or_eq with hlt | heq
      · exact .inr hlt
      · refine .inl (List.mem_append_left _ ?_)
        simp [acceptedBy, heq, haddr]
    · exact absurd hint.committed_le (Nat.not_le.mpr hlt)
  | _ => exact hold hm

theorem answersTell_of_reach (hnd : cfg.members.Nodup)
    (h : Reach (step cfg) (fun s act => s.safetyOk cfg act = true) (init cfg) s) :
    s.AnswersTell := by
  induction h with
  | refl =>
    intro v a rid resp hm
    cases hm
  | @tail t u act hr hok hs ih =>
    have hr' := hr.tail hok hs
    have hforget := (sound_of_reach hnd hr).forget
    exact AnswersTell.effect (s := { t with acked := [] }) ih hforget (sound_of_reach hnd hr')
      (lastLogTerm_le_of_reach hnd hr') hok (step_effect hs)

/-! ### Proven acknowledgements -/

/-- What a follower has accepted in the term of a leader, it holds as long as it is in that
term. -/
theorem get?_of_accepted (hnd : cfg.members.Nodup)
    (h : Reach (step cfg) (fun s act => s.safetyOk cfg act = true) (init cfg) s)
    (hrole : (s.nodes a).part.role = .leader)
    (hterm : (s.nodes v).part.term = (s.nodes a).part.term)
    (hacc : (v, (s.nodes a).part.term, n) ∈ s.accepted) {id : ℕ} (hid : id ≤ n)
    (hget : (s.nodes a).part.wal.get? id = some e) :
    (s.nodes v).part.wal.get? id = some e := by
  have hsound := sound_of_reach hnd h
  obtain ⟨-, N, -, hinv⟩ := refined_of_reach hnd h
  -- the log of the follower goes on with what it accepted
  have hkept : (s.termLog (s.nodes a).part.term).take n <+: (s.nodes v).part.log := by
    have hcarried := hinv.node.carried v _ n hacc
      (Nat.lt_succ_of_le (hinv.node.accepted v _ n hacc).1) n (le_refl n)
    rcases hcarried with hpre | ⟨t, hlt, hlt', -⟩
    · exact hpre
    · have : t < (s.nodes v).part.term + 1 := hlt'
      omega
  have hlen : n ≤ (s.termLog (s.nodes a).part.term).length := (hinv.node.accepted v _ n hacc).2
  have hpre : s.termLog (s.nodes a).part.term <+: (s.nodes a).part.wal.full := by
    rcases hsound.log.leaderLog a hrole with h0 | ⟨h0, -⟩
    · rw [h0]
      exact RaftPart.log_isPrefix _
    · rw [h0]
  obtain ⟨hbase, hget⟩ := Log.getElem?_full_of_get? hget
  rw [(hsound.log.wf a).base] at hbase hget
  have hlt : id - 1 < n := by omega
  obtain ⟨f, hf⟩ : ∃ f, (s.termLog (s.nodes a).part.term)[id - 1]? = some f :=
    ⟨_, List.getElem?_eq_getElem (by omega)⟩
  obtain rfl : f = e := by
    have hf' := TermLog.getElem?_of_isPrefix hpre hf
    rw [hget] at hf'
    exact (Option.some.inj hf').symm
  rw [← List.getElem?_take_of_lt hlt] at hf
  refine Log.get?_of_getElem?_full ?_ ?_
  · rw [(hsound.log.wf v).base]
    exact TermLog.getElem?_of_isPrefix (hkept.trans (RaftPart.log_isPrefix _)) hf
  · rw [(hsound.log.wf v).base, (hsound.send.intact v).dropped]
    exact hbase

/-- A call that a host of a leader fulfils with `SUCCEEDED` is proven. -/
theorem accepted_of_fulfilled (hanswers : s.AnswersTell) (hok : s.provenAck act = true)
    (hs : HostStep cfg s a v act calls' net' out) (hrole : (s.nodes a).part.role = .leader)
    (hc : (c, .succeeded) ∈ out.fulfilled) :
    (s.nodes v).part.term = (s.nodes a).part.term ∧
      ∃ n, (v, (s.nodes a).part.term, n) ∈ s.accepted ∧ c.logId ≤ n := by
  cases hs with
  | call hcall =>
    obtain ⟨rfl, hsent⟩ := Host.le_of_fulfilled hc
    simp only [provenAck, hcall, decide_eq_true_eq] at hok
    obtain ⟨hterm, ⟨w, t, n⟩, hy, rfl, rfl, hle⟩ := hok hrole hsent
    exact ⟨hterm, n, hy, hle⟩
  | response hmsg hgoing hrid =>
    simp only [provenAck, hmsg, decide_eq_true_eq] at hok
    obtain ⟨hcode, calls, htells, hmem⟩ := Host.exists_tells (hok hrole hgoing hrid) hc
    obtain ⟨hterm, hlast, hle⟩ := of_decide_eq_true htells
    refine ⟨hterm, _, ?_, hle c hmem⟩
    rcases hanswers _ _ _ _ (List.mem_of_getElem? hmsg) hcode with hacc | hlt
    · rw [← hlast]
      exact hacc
    · omega
  | exception _ => exact absurd (Host.mem_setResponse hc).1 (by decide)

/-- **Proven acknowledgements are sound.**  In every run that meets the conditions of state
machine safety and in which the five places meet theirs, whoever is reported to a leader to
have the logs of a call has them. -/
theorem ackSound_of_provenAck (cfg : Config) (hnd : cfg.members.Nodup) {s : Group}
    (h : Reach (step cfg) (fun s act => s.ackOk cfg act = true) (init cfg) s) : s.AckSound := by
  refine h.last (I := Reach (step cfg) (fun s act => s.safetyOk cfg act = true) (init cfg))
    ?_ ?_ ?_
  · intro t ht
    exact ht.invariant .refl fun _ _ _ hi hok hs => hi.tail ((Bool.and_eq_true _ _).mp hok).1 hs
  · intro a v c hack
    cases hack
  intro t act u hreach hok hs a v c hack hrole id hid e hget
  obtain ⟨-, hproven⟩ := (Bool.and_eq_true _ _).mp hok
  have hanswers := answersTell_of_reach hnd hreach
  cases step_effect hs with
  | @host _ b peer calls' net' out hhost =>
    -- the report of a successful call changes no partition
    have hparts (d : HostAddr) :
        ((hostOutcome { ({ t with acked := [] } : Group).setNode b
          { t.nodes b with calls := calls' } with net := net' } b peer out).nodes d).part =
          (t.nodes d).part := by
      rw [hostOutcome_nodes, setNode_nodes]
      split_ifs with hd
      · rw [hd]
        rfl
      · rfl
    rw [hparts] at hrole hget
    rw [hparts]
    obtain ⟨⟨c', code⟩, hc, heq⟩ := List.mem_map.mp hack
    obtain ⟨rfl, rfl, rfl⟩ : b = a ∧ peer = v ∧ c' = c := by simpa using heq
    obtain ⟨hc, hcode⟩ := List.mem_filter.mp hc
    obtain rfl := of_decide_eq_true hcode
    obtain ⟨hterm, n, hacc, hle⟩ :=
      accepted_of_fulfilled (s := { t with acked := [] }) hanswers hproven hhost hrole hc
    exact get?_of_accepted hnd hreach hrole hterm hacc (hid.trans hle) hget
  | _ => exact absurd hack (by simp [setNode])

theorem ackSound_catchUpRun :
    ∃ s, Reach (step trio) (fun s act => s.ackOk trio act = true) (init trio) s ∧
      s.acked = [((2, 2), (3, 3), ⟨0, 2, 3⟩)] ∧ (s.nodes (2, 2)).part.role = .leader ∧
      s.AckSound := by
  obtain ⟨s, hreach, hs⟩ := exists_reach_of_run (step trio)
    (fun s act => s.ackOk trio act = true) (init trio)
    (fun s => decide (s.acked = [((2, 2), (3, 3), ⟨0, 2, 3⟩)] ∧
      (s.nodes (2, 2)).part.role = .leader))
    (catchUpRun.take 36) (by decide +kernel)
  obtain ⟨hacked, hrole⟩ := of_decide_eq_true hs
  exact ⟨s, hreach, hacked, hrole, ackSound_of_provenAck trio (by decide) hreach⟩

/-- **An acknowledgement may be unsound**: the third partition is leader of term 2
and told that the second has log 1, but the log of the second is empty. -/
theorem not_ackSound_gapRun :
    ∃ s, Reach (step trio) (fun s act => s.noSnapshot act = true) (init trio) s ∧
      ¬ s.AckSound := by
  obtain ⟨s, hreach, hs⟩ := exists_reach_of_run (step trio)
    (fun s act => s.noSnapshot act = true) (init trio)
    (fun s => decide (((3, 3), (2, 2), ⟨0, 2, 1⟩) ∈ s.acked ∧
      (s.nodes (3, 3)).part.role = .leader ∧
      (s.nodes (3, 3)).part.wal.get? 1 = some ⟨2, 0, .data [2]⟩ ∧
      (s.nodes (2, 2)).part.wal.get? 1 = none))
    gapRun (by decide +kernel)
  obtain ⟨hack, hrole, hleader, hfollower⟩ := of_decide_eq_true hs
  refine ⟨s, hreach, fun hsound => ?_⟩
  have hget := hsound _ _ _ hack hrole 1 (le_refl 1) _ hleader
  rw [hfollower] at hget
  cases hget

end Group
end K2Graph.Raft
