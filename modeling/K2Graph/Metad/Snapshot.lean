import K2Graph.Metad.AdminClient

/-!
# Creating a snapshot

`CREATE SNAPSHOT` blocks the writes of every space, has a checkpoint made of every space and
then unblocks the writes again.  Each of the three is a loop over the spaces that ends at the
first space whose request fails, and a request is sent by `AdminClient::getResponse`: to the
first active host, and to another host only after a failure.  A request that fails may have
been carried out all the same, in part or as a whole.

## Main results

* `consistent_iff` — a snapshot is consistent iff there is one active host or it is not
  answered that it was made, and every host with blocked writes has them unblocked.
-/

namespace K2Graph.Metad.Snapshot

open List
open AdminClient (Answer Event)

/-- `cpp2::ErrorCode`. -/
inductive ErrorCode
  | succeeded
  | eNoHosts
  | eNotFound
  | eLeaderChanged
  | eSnapshotFailure
  | eStoreFailure
  | eRpcFailure
  | eBlockWriteFailure
  | eUnknown
  deriving DecidableEq

/-- `kvstore::ResultCode`; the codes that `to` does not tell apart are one. -/
inductive ResultCode
  | succeeded
  | errKeyNotFound
  | errLeaderChanged
  | errCheckpointError
  | other
  deriving DecidableEq

/-- `MetaCommon::to`. -/
def ResultCode.to : ResultCode → ErrorCode
  | .succeeded => .succeeded
  | .errKeyNotFound => .eNotFound
  | .errLeaderChanged => .eLeaderChanged
  | .errCheckpointError => .eSnapshotFailure
  | .other => .eUnknown

theorem ResultCode.to_eq_succeeded_iff (r : ResultCode) :
    r.to = .succeeded ↔ r = .succeeded := by
  cases r <;> simp [ResultCode.to]

/-! ### Requests -/

/-- How much of a request a host has carried out: for a space it is the parts the host
leads whose writes were blocked or unblocked. -/
inductive Effect
  | nothing
  | some
  | all
  deriving DecidableEq

/-- The answer of a storage host and what the host has done.  `SendBlockSignProcessor` and
`CreateCheckpointProcessor` set no leader in their codes. -/
structure Reply where
  answer : Answer
  effect : Effect
  effect_of_ok : answer = .ok → effect = .all
  no_leader : ∀ leader, answer ≠ .leaderChanged (.some leader)

/-- What comes of the events of `AdminClient::getResponse` from a try on: the hosts that get the
request, with their replies, and whether the status is OK. -/
def outcome (reply : HostAddr → ℕ → Reply) : ℕ → List Event → List (HostAddr × Reply) × Bool
  | retry, .request hosts index :: events =>
      let rest := outcome reply (retry + 1) events
      ((hosts[index]?.map fun host => (host, reply host retry)).toList ++ rest.1, rest.2)
  | _, .setValue status :: _ => ([], status = .ok)
  | _, _ => ([], false)

def getResponse (reply : HostAddr → ℕ → Reply) (retryLimit : ℤ) (hosts : List HostAddr) :
    List (HostAddr × Reply) × Bool :=
  outcome reply 0
    (AdminClient.getResponse (fun host retry => (reply host retry).answer) retryLimit hosts 0 0)

structure Sent where
  space : Int32
  host : HostAddr
  reply : Reply

/-- The requests of one space, as `Sent`. -/
def sentFor (space : Int32) (replies : List (HostAddr × Reply)) : List Sent :=
  replies.map fun r => ⟨space, r.1, r.2⟩

/-- A loop over the spaces that ends at the first one whose request fails. -/
def forSpaces (request : Int32 → List (HostAddr × Reply) × Bool) :
    List Int32 → List Sent × Bool
  | [] => ([], true)
  | space :: spaces =>
      if (request space).2 then
        let rest := forSpaces request spaces
        (sentFor space (request space).1 ++ rest.1, rest.2)
      else (sentFor space (request space).1, false)

/-- The active hosts and the spaces. -/
structure Cluster where
  hosts : List HostAddr
  hosts_nodup : hosts.Nodup
  spaces : List Int32

/-- A pattern of failures: what each read and write of the meta server comes to, and the reply
of each host to each try of each request. -/
structure Failures where
  /-- The put of step 1, with the status INVALID. -/
  record : ResultCode
  /-- `getAllSpaces` before blocking, before the checkpoints and before unblocking. -/
  listed : Bool × Bool × Bool
  blockOn : Int32 → HostAddr → ℕ → Reply
  createCheckpoint : Int32 → HostAddr → ℕ → Reply
  blockOff : Int32 → HostAddr → ℕ → Reply
  /-- The checkpoint of the meta server itself. -/
  metaCheckpoint : Bool
  /-- The put of step 6, with the status VALID. -/
  confirm : ResultCode

variable (c : Cluster)

/-- `Snapshot::blockingWrites` and `Snapshot::createSnapshot`: they differ in the request, the
retry limit and the code of a failed request. -/
def allSpaces (listed : Bool) (reply : Int32 → HostAddr → ℕ → Reply)
    (retryLimit : ℤ) (failure : ErrorCode) : List Sent × ErrorCode :=
  if listed then
    let sent := forSpaces (fun space => getResponse (reply space) retryLimit c.hosts) c.spaces
    (sent.1, if sent.2 then .succeeded else failure)
  else ([], .eStoreFailure)

variable (f : Failures)

/-- `blockingWrites(BLOCK_ON)`. -/
def blockingWrites : List Sent × ErrorCode :=
  allSpaces c f.listed.1 f.blockOn 1 .eBlockWriteFailure

def createSnapshot : List Sent × ErrorCode :=
  allSpaces c f.listed.2.1 f.createCheckpoint 0 .eRpcFailure

/-- `cancelWriteBlocking`, which is `blockingWrites(BLOCK_OFF)`. -/
def cancelWriteBlocking : List Sent × ErrorCode :=
  allSpaces c f.listed.2.2 f.blockOff 1 .eBlockWriteFailure

/-! ### Hosts -/

/-- The writes to a space on a host: on how many of the parts it leads they are blocked. -/
inductive Writes
  | free
  | partly
  | blocked

/-- `setWriteBlocking(space, true)`, as far as it was carried out. -/
def Writes.block : Writes → Effect → Writes
  | w, .nothing => w
  | .blocked, .some => .blocked
  | _, .some => .partly
  | _, .all => .blocked

/-- `setWriteBlocking(space, false)`, as far as it was carried out. -/
def Writes.unblock : Writes → Effect → Writes
  | w, .nothing => w
  | .free, .some => .free
  | _, .some => .partly
  | _, .all => .free

/-- A checkpoint of a space on a host, and the writes when it was made. -/
structure Checkpoint where
  host : HostAddr
  space : Int32
  writes : HostAddr → Int32 → Writes

/-- The storage hosts. -/
structure World where
  writes : HostAddr → Int32 → Writes
  checkpoints : List Checkpoint

/-- No writes are blocked and there is no checkpoint of the name yet. -/
def World.init : World := ⟨fun _ _ => .free, []⟩

/-- A host changes how the writes to a space are blocked. -/
def World.setWrites (w : World) (change : Writes → Effect → Writes) (sent : Sent) : World :=
  { w with
    writes := fun host space =>
      if sent.host = host ∧ sent.space = space then
        change (w.writes host space) sent.reply.effect
      else w.writes host space }

/-- The requests to block the writes are carried out. -/
def World.block (w : World) (sent : List Sent) : World :=
  sent.foldl (World.setWrites · Writes.block) w

/-- The requests to unblock the writes are carried out. -/
def World.unblock (w : World) (sent : List Sent) : World :=
  sent.foldl (World.setWrites · Writes.unblock) w

/-- The requests to make a checkpoint are carried out; one made in part is none. -/
def World.checkpoint (w : World) (sent : List Sent) : World :=
  { w with
    checkpoints := w.checkpoints ++
      (sent.filter fun s => s.reply.effect = .all).map fun s => ⟨s.host, s.space, w.writes⟩ }

/-- The step of `process` whose failure is answered. -/
inductive Step
  | hosts
  | record
  | block
  | checkpoint
  | unblock
  | metaCheckpoint
  | confirm
  | done

/-- The hosts at the end, the step whose failure is answered, and the code. -/
structure Outcome where
  world : World
  step : Step
  code : ErrorCode

/-- `CreateSnapshotProcessor::process`. -/
def process : Outcome :=
  if c.hosts = [] then ⟨.init, .hosts, .eNoHosts⟩
  else if f.record ≠ .succeeded then ⟨.init, .record, f.record.to⟩
  else
    let on := blockingWrites c f
    let made := createSnapshot c f
    let off := cancelWriteBlocking c f
    let blocked := World.init.block on.1
    -- the code of `cancelWriteBlocking` is dropped where another one is answered already
    if on.2 ≠ .succeeded then ⟨blocked.unblock off.1, .block, on.2⟩
    else
      let world := (blocked.checkpoint made.1).unblock off.1
      if made.2 ≠ .succeeded then ⟨world, .checkpoint, made.2⟩
      else if off.2 ≠ .succeeded then ⟨world, .unblock, off.2⟩
      else if !f.metaCheckpoint then ⟨world, .metaCheckpoint, .eStoreFailure⟩
      else if f.confirm ≠ .succeeded then ⟨world, .confirm, f.confirm.to⟩
      else ⟨world, .done, .succeeded⟩

/-! ### What was sent -/

variable {c : Cluster} {f : Failures} {host : HostAddr}

theorem Reply.next_eq (r : Reply) (hosts : List HostAddr) (index : ℕ) :
    AdminClient.next hosts index r.answer = (hosts, (index + 1) % hosts.length) := by
  have h := r.no_leader
  cases hr : r.answer with
  | leaderChanged leader =>
    cases leader with
    | none => rfl
    | some leader => exact absurd hr (h leader)
  | ok => rfl
  | exception => rfl
  | otherCode => rfl

theorem status_eq_ok_iff (answer : Answer) : AdminClient.status answer = .ok ↔ answer = .ok := by
  cases answer <;> simp [AdminClient.status]

/-- A request that is not tried again. -/
theorem getResponse_zero (reply : HostAddr → ℕ → Reply) (host : HostAddr)
    (hosts : List HostAddr) : getResponse reply 0 (host :: hosts) =
      ([(host, reply host 0)], decide ((reply host 0).answer = .ok)) := by
  rw [getResponse, AdminClient.getResponse]
  simp [outcome, status_eq_ok_iff]

/-- A request that is tried again once. -/
theorem getResponse_one (reply : HostAddr → ℕ → Reply) (host : HostAddr)
    (hosts : List HostAddr) : getResponse reply 1 (host :: hosts) =
      if (reply host 0).answer = .ok then ([(host, reply host 0)], true)
      else ([(host, reply host 0), (hosts.headD host, reply (hosts.headD host) 1)],
        decide ((reply (hosts.headD host) 1).answer = .ok)) := by
  have hnext : (host :: hosts)[(0 + 1) % (host :: hosts).length]? = some (hosts.headD host) := by
    cases hosts with
    | nil => simp
    | cons second hosts => simp
  rw [getResponse, AdminClient.getResponse]
  split_ifs with hok
  · simp [hok, outcome, AdminClient.status]
  · rw [getElem?_cons_zero]
    simp only [hok, Nat.cast_zero, false_or, not_le.mpr (zero_lt_one (α := ℤ)), ↓reduceIte,
      Reply.next_eq]
    rw [AdminClient.getResponse, hnext]
    have hnext' := hnext
    simp only [zero_add, length_cons, headD_eq_head?_getD] at hnext'
    simp [outcome, status_eq_ok_iff, hnext']

theorem mem_sentFor :
    s ∈ sentFor space replies ↔ s.space = space ∧ (s.host, s.reply) ∈ replies := by
  constructor
  · intro h
    obtain ⟨r, hr, rfl⟩ := mem_map.mp h
    exact ⟨rfl, hr⟩
  · rintro ⟨rfl, hr⟩
    exact mem_map.mpr ⟨_, hr, rfl⟩

/-- The loop gets to a space when the requests of those before it succeed. -/
theorem mem_forSpaces : s ∈ (forSpaces request spaces).1 ↔
    ∃ before after, spaces = before ++ s.space :: after ∧
      (∀ space ∈ before, (request space).2 = true) ∧ (s.host, s.reply) ∈ (request s.space).1 := by
  induction spaces with
  | nil => simp [forSpaces]
  | cons first spaces ih =>
    have hsplit : (∃ before after, first :: spaces = before ++ s.space :: after ∧
          (∀ space ∈ before, (request space).2 = true) ∧
          (s.host, s.reply) ∈ (request s.space).1) ↔
        s ∈ sentFor first (request first).1 ∨
          (request first).2 = true ∧ s ∈ (forSpaces request spaces).1 := by
      rw [ih, mem_sentFor]
      constructor
      · rintro ⟨before, after, heq, hall, hr⟩
        cases before with
        | nil =>
          obtain ⟨rfl, rfl⟩ := cons.inj heq
          exact .inl ⟨rfl, hr⟩
        | cons space before =>
          obtain ⟨rfl, rfl⟩ := cons.inj heq
          obtain ⟨hfirst, hall⟩ := forall_mem_cons.mp hall
          exact .inr ⟨hfirst, before, after, rfl, hall, hr⟩
      · rintro (⟨rfl, hr⟩ | ⟨hfirst, before, after, rfl, hall, hr⟩)
        · exact ⟨[], spaces, rfl, forall_mem_nil _, hr⟩
        · exact ⟨first :: before, after, rfl, forall_mem_cons.mpr ⟨hfirst, hall⟩, hr⟩
    rw [hsplit, forSpaces]
    split_ifs with hfirst
    · simp [hfirst]
    · simp [hfirst]

theorem forSpaces_done_iff :
    (forSpaces request spaces).2 = true ↔ ∀ space ∈ spaces, (request space).2 = true := by
  induction spaces with
  | nil => simp [forSpaces]
  | cons first spaces ih =>
    rw [forSpaces, forall_mem_cons]
    split_ifs with hfirst
    · simp [hfirst, ih]
    · simp [hfirst]

section AllSpaces

variable {reply : Int32 → HostAddr → ℕ → Reply} {failure : ErrorCode} {limit : ℤ} {listed : Bool}

theorem allSpaces_eq_succeeded_iff (hfailure : failure ≠ .succeeded) :
    (allSpaces c listed reply limit failure).2 = .succeeded ↔ listed = true ∧
      ∀ space ∈ c.spaces, (getResponse (reply space) limit c.hosts).2 = true := by
  have hdone := @forSpaces_done_iff (fun space => getResponse (reply space) limit c.hosts) c.spaces
  rw [← hdone]
  cases listed with
  | false => simp [allSpaces]
  | true =>
    simp only [allSpaces, ↓reduceIte, true_and]
    split_ifs with hdone
    · simp [hdone]
    · simp [hdone, hfailure]

theorem mem_allSpaces : s ∈ (allSpaces c listed reply limit failure).1 ↔ listed = true ∧
    ∃ before after, c.spaces = before ++ s.space :: after ∧
      (∀ space ∈ before, (getResponse (reply space) limit c.hosts).2 = true) ∧
      (s.host, s.reply) ∈ (getResponse (reply s.space) limit c.hosts).1 := by
  cases listed with
  | false => simp [allSpaces]
  | true =>
    simp only [allSpaces, ↓reduceIte, true_and]
    exact mem_forSpaces

end AllSpaces

/-! ### The first two hosts -/

section FirstTwo

variable (c : Cluster)

def Cluster.first : HostAddr := c.hosts.headD ⟨0, 0⟩

/-- The host that a failed request is sent to again; it is the first one if there is no
other. -/
def Cluster.second : HostAddr := c.hosts.tail.headD c.first

/-- One of the two tries of a request is answered with success. -/
def Cluster.Answers (reply : HostAddr → ℕ → Reply) : Prop :=
  (reply c.first 0).answer = .ok ∨ (reply c.second 1).answer = .ok

/-- A request of a space has an effect on a host: the spaces are listed, the requests of the
spaces before it are answered with success, and the host is the first one, or the second one
after the first has failed. -/
def Cluster.Reaches (listed : Bool) (reply : Int32 → HostAddr → ℕ → Reply) (space : Int32)
    (host : HostAddr) (e : Effect) : Prop :=
  listed = true ∧
    (∃ before after, c.spaces = before ++ space :: after ∧ ∀ x ∈ before, c.Answers (reply x)) ∧
    (host = c.first ∧ (reply space c.first 0).effect = e ∨
      (reply space c.first 0).answer ≠ .ok ∧ host = c.second ∧
        (reply space c.second 1).effect = e)

variable {c} (hhosts : c.hosts ≠ [])
include hhosts

theorem Cluster.exists_hosts :
    ∃ hosts, c.hosts = c.first :: hosts ∧ c.second = hosts.headD c.first := by
  obtain ⟨host, hosts, hc⟩ := exists_cons_of_ne_nil hhosts
  refine ⟨hosts, ?_, ?_⟩
  · simp [first, hc]
  · simp [second, first, hc]

theorem Cluster.getResponse_done_iff (reply : HostAddr → ℕ → Reply) :
    (getResponse reply 1 c.hosts).2 = true ↔ c.Answers reply := by
  obtain ⟨hosts, hc, hsecond⟩ := exists_hosts hhosts
  rw [Answers, hc, getResponse_one, hsecond]
  split_ifs with hok
  · simp [hok]
  · simp [hok]

theorem Cluster.reaches_iff {reply : Int32 → HostAddr → ℕ → Reply} (failure : ErrorCode) :
    c.Reaches listed reply space host e ↔ ∃ s ∈ (allSpaces c listed reply 1 failure).1,
      s.host = host ∧ s.space = space ∧ s.reply.effect = e := by
  have hsent : (host = c.first ∧ (reply space c.first 0).effect = e ∨
      (reply space c.first 0).answer ≠ .ok ∧ host = c.second ∧
        (reply space c.second 1).effect = e) ↔
      ∃ r, (host, r) ∈ (getResponse (reply space) 1 c.hosts).1 ∧ r.effect = e := by
    obtain ⟨hosts, hc, hsecond⟩ := exists_hosts hhosts
    rw [hc, getResponse_one, ← hsecond]
    split_ifs with hok
    · simp [hok]
    · simp only [mem_cons, Prod.mk.injEq, not_mem_nil, or_false]
      constructor
      · rintro (⟨rfl, he⟩ | ⟨-, rfl, he⟩)
        · exact ⟨_, .inl ⟨rfl, rfl⟩, he⟩
        · exact ⟨_, .inr ⟨rfl, rfl⟩, he⟩
      · rintro ⟨r, ⟨rfl, rfl⟩ | ⟨rfl, rfl⟩, he⟩
        · exact .inl ⟨rfl, he⟩
        · exact .inr ⟨hok, rfl, he⟩
  rw [Reaches, hsent]
  simp only [mem_allSpaces, getResponse_done_iff hhosts]
  constructor
  · rintro ⟨hlisted, ⟨before, after, hspaces, hall⟩, r, hr, he⟩
    exact ⟨⟨space, host, r⟩, ⟨hlisted, before, after, hspaces, hall, hr⟩, rfl, rfl, he⟩
  · rintro ⟨s, ⟨hlisted, before, after, hspaces, hall, hr⟩, rfl, rfl, he⟩
    exact ⟨hlisted, ⟨before, after, hspaces, hall⟩, s.reply, hr, he⟩

/-- The requests for checkpoints go to the first host. -/
theorem Cluster.host_of_checkpoint (hs : s ∈ (createSnapshot c f).1) :
    s.host = c.first ∧ s.reply = f.createCheckpoint s.space c.first 0 := by
  obtain ⟨-, _, _, -, -, hr⟩ := mem_allSpaces.mp hs
  obtain ⟨hosts, hc, -⟩ := exists_hosts hhosts
  rw [hc, getResponse_zero, mem_singleton] at hr
  exact Prod.mk.inj hr

end FirstTwo

section Steps

variable (c : Cluster) (f : Failures)

/-- The writes of every space are blocked, as far as the meta server gets to know. -/
def Blocks : Prop := f.listed.1 = true ∧ ∀ space ∈ c.spaces, c.Answers (f.blockOn space)

def Checkpoints : Prop :=
  f.listed.2.1 = true ∧ ∀ space ∈ c.spaces, (f.createCheckpoint space c.first 0).answer = .ok

def Unblocks : Prop := f.listed.2.2 = true ∧ ∀ space ∈ c.spaces, c.Answers (f.blockOff space)

def NoFailure : Prop :=
  Blocks c f ∧ Checkpoints c f ∧ Unblocks c f ∧ f.metaCheckpoint = true ∧ f.confirm = .succeeded

/-- Only unblocking fails, of the steps up to it. -/
def OnlyUnblockingFails : Prop := Blocks c f ∧ Checkpoints c f ∧ ¬ Unblocks c f

/-- Wherever a request to block has an effect, the request to unblock is carried out. -/
def Released : Prop :=
  ∀ host space e, c.Reaches f.listed.1 f.blockOn space host e → e ≠ .nothing →
    c.Reaches f.listed.2.2 f.blockOff space host .all

variable {c f} (hhosts : c.hosts ≠ [])
include hhosts

theorem blockingWrites_eq_succeeded_iff :
    (blockingWrites c f).2 = .succeeded ↔ Blocks c f := by
  rw [blockingWrites, allSpaces_eq_succeeded_iff (by decide), Blocks]
  simp only [Cluster.getResponse_done_iff hhosts]

theorem cancelWriteBlocking_eq_succeeded_iff :
    (cancelWriteBlocking c f).2 = .succeeded ↔ Unblocks c f := by
  rw [cancelWriteBlocking, allSpaces_eq_succeeded_iff (by decide), Unblocks]
  simp only [Cluster.getResponse_done_iff hhosts]

theorem createSnapshot_eq_succeeded_iff :
    (createSnapshot c f).2 = .succeeded ↔ Checkpoints c f := by
  obtain ⟨hosts, hc, -⟩ := Cluster.exists_hosts hhosts
  rw [createSnapshot, allSpaces_eq_succeeded_iff (by decide), Checkpoints, hc]
  simp only [getResponse_zero, decide_eq_true_eq]

end Steps

/-! ### What the hosts have done -/

section Effects

variable {w : World} {v : Writes}

@[simp] theorem Writes.block_eq_free : v.block e = .free ↔ v = .free ∧ e = .nothing := by
  cases v <;> cases e <;> simp [Writes.block]

@[simp] theorem Writes.unblock_eq_free : v.unblock e = .free ↔ v = .free ∨ e = .all := by
  cases v <;> cases e <;> simp [Writes.unblock]

theorem Writes.blocked_block (e : Effect) : Writes.blocked.block e = .blocked := by
  cases e <;> rfl

theorem World.block_eq_free_iff :
    (World.block w sent).writes host space = .free ↔ w.writes host space = .free ∧
      ∀ s ∈ sent, s.host = host → s.space = space → s.reply.effect = .nothing := by
  induction sent generalizing w with
  | nil => simp [block]
  | cons s sent ih =>
    have hfirst : (w.block (s :: sent)) = (w.setWrites Writes.block s).block sent := rfl
    rw [hfirst, ih]
    by_cases hs : s.host = host ∧ s.space = space
    · simp [setWrites, hs, and_assoc]
    · simp [setWrites, hs]
      tauto

theorem World.unblock_eq_free_iff :
    (World.unblock w sent).writes host space = .free ↔ w.writes host space = .free ∨
      ∃ s ∈ sent, s.host = host ∧ s.space = space ∧ s.reply.effect = .all := by
  induction sent generalizing w with
  | nil => simp [unblock]
  | cons s sent ih =>
    have hfirst : (w.unblock (s :: sent)) = (w.setWrites Writes.unblock s).unblock sent := rfl
    simp only [hfirst, ih]
    by_cases hs : s.host = host ∧ s.space = space
    · simp [setWrites, hs, or_assoc]
    · simp [setWrites, hs]
      tauto

/-- A request to block that is carried out as a whole lasts until the writes are unblocked. -/
theorem World.block_eq_blocked (h : World.writes w host space = .blocked ∨
      ∃ s ∈ sent, s.host = host ∧ s.space = space ∧ s.reply.effect = .all) :
    (w.block sent).writes host space = .blocked := by
  induction sent generalizing w with
  | nil => simpa [block] using h
  | cons s sent ih =>
    refine ih ?_
    rcases h with h | ⟨s', hs', hhost, hspace, hall⟩
    · by_cases hs : s.host = host ∧ s.space = space
      · simp [setWrites, h, Writes.blocked_block]
      · simp [setWrites, hs, h]
    rcases mem_cons.mp hs' with rfl | hs'
    · left
      simp only [setWrites, hhost, hspace, hall]
      cases w.writes host space <;> rfl
    · exact Or.inr ⟨s', hs', hhost, hspace, hall⟩

theorem World.checkpoints_foldl (change : Writes → Effect → Writes) : ∀ (sent : List Sent)
    (w : World), (sent.foldl (World.setWrites · change) w).checkpoints = w.checkpoints := by
  intro sent
  induction sent with
  | nil => intro w; rfl
  | cons s sent ih => intro w; exact ih (w.setWrites change s)

theorem World.mem_checkpoints (h : w.checkpoints = []) : made ∈ (w.checkpoint sent).checkpoints ↔
      ∃ s ∈ sent, s.reply.effect = .all ∧ made = ⟨s.host, s.space, w.writes⟩ := by
  simp only [checkpoint, h, nil_append, mem_map, mem_filter, decide_eq_true_eq, and_assoc]
  exact ⟨fun ⟨s, hs, hall, he⟩ => ⟨s, hs, hall, he.symm⟩,
    fun ⟨s, hs, hall, he⟩ => ⟨s, hs, hall, he.symm⟩⟩

end Effects

/-! ### The answer -/

section Process

variable {c : Cluster} {f : Failures} (hhosts : c.hosts ≠ []) (hrecord : f.record = .succeeded)
include hhosts hrecord

theorem process_writes_eq_free_iff : (process c f).world.writes host space = .free ↔
      (∀ e, c.Reaches f.listed.1 f.blockOn space host e → e = .nothing) ∨
        c.Reaches f.listed.2.2 f.blockOff space host .all := by
  -- whatever fails, the writes are unblocked once after they were blocked, and the checkpoints
  -- change nothing about them
  have hworld : ∃ w : World, w.writes = (World.init.block (blockingWrites c f).1).writes ∧
      (process c f).world = w.unblock (cancelWriteBlocking c f).1 := by
    simp only [process, hhosts, hrecord, ↓reduceIte, ne_eq, not_true_eq_false]
    split_ifs <;> exact ⟨_, by rfl, rfl⟩
  obtain ⟨w, hw, hworld⟩ := hworld
  rw [hworld, World.unblock_eq_free_iff, hw, World.block_eq_free_iff]
  simp only [Cluster.reaches_iff hhosts .eBlockWriteFailure, World.init, true_and]
  refine or_congr ⟨?_, ?_⟩ Iff.rfl
  · rintro h _ ⟨s, hs, hhost, hspace, rfl⟩
    exact h s hs hhost hspace
  · intro h s hs hhost hspace
    exact h _ ⟨s, hs, hhost, hspace, rfl⟩

theorem process_step_eq_unblock_iff :
    (process c f).step = .unblock ↔ OnlyUnblockingFails c f := by
  rw [OnlyUnblockingFails, ← blockingWrites_eq_succeeded_iff hhosts,
    ← createSnapshot_eq_succeeded_iff hhosts, ← cancelWriteBlocking_eq_succeeded_iff hhosts]
  simp only [process, hhosts, hrecord, ↓reduceIte, ne_eq, not_true_eq_false]
  split_ifs <;> simp_all

theorem process_code_eq_succeeded_iff :
    (process c f).code = .succeeded ↔ NoFailure c f := by
  have hto := f.confirm.to_eq_succeeded_iff
  rw [NoFailure, ← blockingWrites_eq_succeeded_iff hhosts,
    ← createSnapshot_eq_succeeded_iff hhosts, ← cancelWriteBlocking_eq_succeeded_iff hhosts]
  simp only [process, hhosts, hrecord, ↓reduceIte, ne_eq, not_true_eq_false]
  split_ifs <;> simp_all

theorem mem_process_checkpoints (h : (process c f).code = .succeeded) :
    made ∈ (process c f).world.checkpoints ↔
      ∃ s ∈ (createSnapshot c f).1, s.reply.effect = .all ∧
        made = ⟨s.host, s.space, (World.init.block (blockingWrites c f).1).writes⟩ := by
  obtain ⟨hon, hmade, hoff, hmeta, hconfirm⟩ :=
    (process_code_eq_succeeded_iff hhosts hrecord).mp h
  rw [← blockingWrites_eq_succeeded_iff hhosts] at hon
  rw [← createSnapshot_eq_succeeded_iff hhosts] at hmade
  rw [← cancelWriteBlocking_eq_succeeded_iff hhosts] at hoff
  simp only [process, hhosts, hrecord, hon, hmade, hoff, hmeta, hconfirm, ↓reduceIte, ne_eq,
    not_true_eq_false, Bool.not_true, Bool.false_eq_true, World.unblock, World.checkpoints_foldl]
  exact World.mem_checkpoints (World.checkpoints_foldl _ _ _)

end Process

/-! ### Consistency -/

/-- A snapshot that is answered to be made has a checkpoint of every space on every active
host, made while the writes were blocked on all of them; and no writes are left blocked unless
it is answered that unblocking them failed. -/
structure Consistent (c : Cluster) (f : Failures) : Prop where
  checkpointed : (process c f).code = .succeeded →
    ∀ host ∈ c.hosts, ∀ space ∈ c.spaces, ∃ made ∈ (process c f).world.checkpoints,
      made.host = host ∧ made.space = space ∧
        ∀ host' ∈ c.hosts, ∀ space' ∈ c.spaces, made.writes host' space' = .blocked
  unblocked : (∃ host space, (process c f).world.writes host space ≠ .free) →
    (process c f).step = .unblock

theorem released_iff (hhosts : c.hosts ≠ []) (hrecord : f.record = .succeeded) :
    Released c f ↔ ∀ host space, (process c f).world.writes host space = .free := by
  constructor
  · intro h host space
    rw [process_writes_eq_free_iff hhosts hrecord]
    by_cases hany : ∀ e, c.Reaches f.listed.1 f.blockOn space host e → e = .nothing
    · exact Or.inl hany
    · push Not at hany
      obtain ⟨e, hreaches, heffect⟩ := hany
      exact Or.inr (h host space e hreaches heffect)
  · intro h host space e hreaches heffect
    rcases (process_writes_eq_free_iff hhosts hrecord).mp (h host space) with hnone | hsome
    · exact absurd (hnone e hreaches) heffect
    · exact hsome

theorem Cluster.Reaches.of_blocks (hhost : c.hosts = [host]) (h : Blocks c f)
    (hspace : space ∈ c.spaces) : c.Reaches f.listed.1 f.blockOn space host .all := by
  have hfirst : c.first = host := by simp [Cluster.first, hhost]
  have hsecond : c.second = host := by simp [Cluster.second, hfirst, hhost]
  obtain ⟨before, after, hspaces⟩ := append_of_mem hspace
  refine ⟨h.1, ⟨before, after, hspaces, fun x hx => h.2 x (by simp [hspaces, hx])⟩, ?_⟩
  by_cases hok : (f.blockOn space c.first 0).answer = .ok
  · exact .inl ⟨hfirst.symm, Reply.effect_of_ok _ hok⟩
  · exact .inr ⟨hok, hsecond.symm, Reply.effect_of_ok _ ((h.2 space hspace).resolve_left hok)⟩

theorem checkpointed_of_singleton (hhost : c.hosts = [host]) (hrecord : f.record = .succeeded)
    (hcode : (process c f).code = .succeeded) (hspace : space ∈ c.spaces) :
    ∃ made ∈ (process c f).world.checkpoints, made.host = host ∧ made.space = space ∧
      ∀ space' ∈ c.spaces, made.writes host space' = .blocked := by
  have hhosts : c.hosts ≠ [] := by simp [hhost]
  have hfirst : c.first = host := by simp [Cluster.first, hhost]
  obtain ⟨hon, hmade, -⟩ := (process_code_eq_succeeded_iff hhosts hrecord).mp hcode
  have hanswer := hmade.2 space hspace
  obtain ⟨before, after, hspaces⟩ := append_of_mem hspace
  have hs : (⟨space, host, f.createCheckpoint space host 0⟩ : Sent) ∈ (createSnapshot c f).1 := by
    refine mem_allSpaces.mpr ⟨hmade.1, before, after, hspaces, fun x hx => ?_, ?_⟩
    · have hx := hmade.2 x (by simp [hspaces, hx])
      rw [hfirst] at hx
      simp [hhost, getResponse_zero, hx]
    · simp [hhost, getResponse_zero]
  rw [hfirst] at hanswer
  refine ⟨⟨host, space, _⟩, (mem_process_checkpoints hhosts hrecord hcode).mpr
    ⟨_, hs, Reply.effect_of_ok _ hanswer, rfl⟩, rfl, rfl, fun space' hspace' => ?_⟩
  exact World.block_eq_blocked
    (Or.inr ((Cluster.reaches_iff hhosts _).mp (.of_blocks hhost hon hspace')))

/-- A second active host makes no checkpoint. -/
theorem not_checkpointed_second (hhost : c.hosts = first :: second :: hosts)
    (hrecord : f.record = .succeeded) (hcode : (process c f).code = .succeeded) :
    ∀ made ∈ (process c f).world.checkpoints, made.host ≠ second := by
  intro made hmade
  have hhosts : c.hosts ≠ [] := by simp [hhost]
  obtain ⟨s, hs, -, rfl⟩ := (mem_process_checkpoints hhosts hrecord hcode).mp hmade
  have hfirst : s.host = first := by
    rw [(Cluster.host_of_checkpoint hhosts hs).1, Cluster.first, hhost]
    rfl
  have hnodup := c.hosts_nodup
  rw [hhost] at hnodup
  intro hsecond
  have : first = second := hfirst.symm.trans hsecond
  simp [this] at hnodup

/-- A snapshot is consistent iff it ends before any request is sent, or it meets two
conditions: no step fails only with one active host or no space, and every host with blocked
writes has them unblocked unless unblocking is the first step that fails. -/
theorem consistent_iff (c : Cluster) (f : Failures) :
    Consistent c f ↔
      c.hosts = [] ∨ f.record ≠ .succeeded ∨
        ((NoFailure c f → c.spaces = [] ∨ c.hosts.length = 1) ∧
          (OnlyUnblockingFails c f ∨ Released c f)) := by
  by_cases hhosts : c.hosts = []
  · simp only [hhosts, true_or, iff_true]
    exact ⟨by simp [hhosts], by simp [process, hhosts, World.init]⟩
  by_cases hrecord : f.record = .succeeded
  swap
  · simp only [hhosts, hrecord, false_or, ne_eq, not_false_eq_true, true_or, iff_true]
    have hto := f.record.to_eq_succeeded_iff
    exact ⟨by simp [process, hhosts, hrecord, hto], by simp [process, hhosts, hrecord, World.init]⟩
  simp only [hhosts, hrecord, false_or, ne_eq, not_true_eq_false]
  have hcode := process_code_eq_succeeded_iff hhosts hrecord
  have hstep := process_step_eq_unblock_iff hhosts hrecord
  constructor
  · rintro ⟨hmade, hfree⟩
    refine ⟨fun hnone => ?_, ?_⟩
    · -- a second host would have made no checkpoint
      by_contra hmany
      rw [not_or] at hmany
      obtain ⟨hspaces, hlength⟩ := hmany
      obtain ⟨space, hspace⟩ := exists_mem_of_ne_nil _ hspaces
      match hc : c.hosts with
      | [] => exact hhosts hc
      | [first] => simp [hc] at hlength
      | first :: second :: hosts =>
        obtain ⟨made, hin, heq, -⟩ :=
          hmade (hcode.mpr hnone) second (by simp [hc]) space hspace
        exact not_checkpointed_second hc hrecord (hcode.mpr hnone) made hin heq
    · by_cases hreleased : Released c f
      · exact Or.inr hreleased
      · rw [released_iff hhosts hrecord] at hreleased
        push Not at hreleased
        exact Or.inl (hstep.mp (hfree hreleased))
  · rintro ⟨hone, hreleased⟩
    refine ⟨fun hsucceeded host hhost space hspace => ?_, ?_⟩
    · rcases hone (hcode.mp hsucceeded) with hspaces | hlength
      · simp [hspaces] at hspace
      obtain ⟨only, honly⟩ := length_eq_one_iff.mp hlength
      rw [honly, mem_singleton] at hhost
      subst hhost
      obtain ⟨made, hin, heq, hspace', hblocked⟩ :=
        checkpointed_of_singleton honly hrecord hsucceeded hspace
      refine ⟨made, hin, heq, hspace', ?_⟩
      intro host' hhost' space' hspaces
      rw [honly, mem_singleton] at hhost'
      exact hhost' ▸ hblocked space' hspaces
    · rintro ⟨host, space, hblocked⟩
      rcases hreleased with hfails | hreleased
      · exact hstep.mpr hfails
      · exact absurd ((released_iff hhosts hrecord).mp hreleased host space) hblocked

/-- A request that is answered with success. -/
def Reply.done : Reply := ⟨.ok, .all, fun _ => rfl, fun _ => nofun⟩

def Failures.none : Failures :=
  ⟨.succeeded, (true, true, true), fun _ _ _ => .done, fun _ _ _ => .done, fun _ _ _ => .done,
    true, .succeeded⟩

/-- Two active hosts and one space. -/
def twoHosts : Cluster := ⟨[⟨1, 1⟩, ⟨2, 1⟩], by decide, [1]⟩

/-- With two hosts and no failure it is answered that the snapshot is made, and the second
host has made no checkpoint. -/
theorem twoHosts_not_consistent : ¬ Consistent twoHosts .none := by
  intro h
  have hcode : (process twoHosts .none).code = .succeeded := by
    rw [process_code_eq_succeeded_iff (by decide) rfl]
    exact ⟨⟨rfl, fun _ _ => .inl rfl⟩, ⟨rfl, fun _ _ => rfl⟩, ⟨rfl, fun _ _ => .inl rfl⟩, rfl, rfl⟩
  obtain ⟨made, hin, heq, -⟩ := h.checkpointed hcode ⟨2, 1⟩ (by decide) 1 (by decide)
  exact not_checkpointed_second rfl rfl hcode made hin heq

end K2Graph.Metad.Snapshot
