import K2Graph.Lib.Run
import K2Graph.Storaged.Keys

/-!
# The vertex id of a name

`GetUUIDProcessor` looks a name up and answers the vertex id that is stored for it.  When
the lookup fails, for whatever reason, it makes an id out of a hash of the name and the
seconds of the clock, and writes it; it answers when the write has gone through the log.
Nothing keeps two requests for one name apart in between.

## Main results

* `UuidStore.Consistent.step` — one step keeps what the part knows of a name together.
* `UuidStore.uuid_unique` — requests whose ids agree answer one id for a name.
* `UuidStore.exists_two_uuids` — two requests that both look first answer two ids.
-/

namespace K2Graph.Storaged

open LittleEndian Kvstore

/-- `NebulaKeyUtils::uuidKey` of `name.c_str()`: the name ends at its first zero. -/
def uuidKey (partId : Int32) (name : Bytes) : Bytes :=
  keyItem partId .uuid ++ name.takeWhile (· ≠ 0)

/-- The id of a name that has none: the high half of its hash and the low half of the
time. -/
def newVertexId (hashFunc : Bytes → UInt64) (name : Bytes) (now : UInt64) : Int64 :=
  ((hashFunc name &&& 0xFFFFFFFF00000000) ||| (now &&& 0x00000000FFFFFFFF)).toInt64

/-- A part: what it stores, the time in seconds, the requests whose ids are being written
and the requests that were answered, each with its name and its id. -/
structure UuidStore where
  engine : Engine
  now : UInt64
  pending : List (Bytes × Int64) := []
  answered : List (Bytes × Int64) := []

namespace UuidStore

inductive Action where
  /-- A request looks its name up; `readable` says whether the store can be read. -/
  | get (name : Bytes) (readable : Bool)
  /-- A write leaves the log: it is applied or not, and its request is told of success or
  of an error, which does not exclude that it was applied. -/
  | write (request : Bytes × Int64) (applied succeeded : Bool)
  | tick (seconds : UInt64)

variable (hashFunc : Bytes → UInt64) (partId : Int32)

/-- What a lookup gives. -/
def lookup (s : UuidStore) (name : Bytes) (readable : Bool) : Option Bytes :=
  if readable then s.engine.lookup (uuidKey partId name) else none

/-- `GetUUIDProcessor::process` up to the answer or the write, the end of a write, and the
clock.  A stored value of another size than an id stops the process. -/
def step (s : UuidStore) : Action → Option UuidStore
  | .get name readable =>
      match s.lookup partId name readable with
      | some val =>
          if val.length = 8 then
            some { s with answered := (name, int64At val 0) :: s.answered }
          else none
      | none => some { s with pending := (name, newVertexId hashFunc name s.now) :: s.pending }
  | .write request applied succeeded =>
      if request ∈ s.pending ∧ (succeeded → applied) then
        some { s with
          engine :=
            if applied then
              s.engine.write [.put (uuidKey partId request.1) (ofInt 8 request.2.toInt)]
            else s.engine
          pending := s.pending.erase request
          answered := if succeeded then request :: s.answered else s.answered }
      else none
  | .tick seconds => some { s with now := s.now + seconds }

/-- An id is made only when it is what is stored or being written under the key of its
name, if anything is. -/
def Agrees (s : UuidStore) : Action → Prop
  | .get name readable =>
      s.lookup partId name readable = none →
        (∀ val ∈ s.engine.lookup (uuidKey partId name),
          int64At val 0 = newVertexId hashFunc name s.now) ∧
        ∀ r ∈ s.pending, uuidKey partId r.1 = uuidKey partId name →
          r.2 = newVertexId hashFunc name s.now
  | _ => True

instance (s : UuidStore) (act : Action) : Decidable (s.Agrees hashFunc partId act) := by
  cases act <;> unfold Agrees <;> infer_instance

/-- The ids of a key are one id: a request that was answered got what is stored, and what
is being written is what is stored, if anything is, and what others write. -/
structure Consistent (s : UuidStore) : Prop where
  answered : ∀ r ∈ s.answered,
    ∃ val, s.engine.lookup (uuidKey partId r.1) = some val ∧ int64At val 0 = r.2
  stored : ∀ r ∈ s.pending, ∀ val ∈ s.engine.lookup (uuidKey partId r.1), int64At val 0 = r.2
  pending : ∀ r ∈ s.pending, ∀ q ∈ s.pending,
    uuidKey partId r.1 = uuidKey partId q.1 → r.2 = q.2

variable {hashFunc partId} {s : UuidStore}

theorem int64At_ofInt (v : Int64) : int64At (ofInt 8 v.toInt) 0 = v :=
  int64At_of_eq [] v (List.prefix_refl _) rfl

theorem lookup_put (e : Engine) (r : Bytes × Int64) (k : Bytes) :
    (e.write [.put (uuidKey partId r.1) (ofInt 8 r.2.toInt)]).lookup k =
      if uuidKey partId r.1 = k then some (ofInt 8 r.2.toInt) else e.lookup k := by
  rw [Engine.lookup_write]
  rfl

section

variable (h : s.Consistent partId)
include h

theorem Consistent.answer (hval : s.engine.lookup (uuidKey partId r.1) = some val)
    (hr : int64At val 0 = r.2) : Consistent partId { s with answered := r :: s.answered } where
  answered q hq := by
    rcases List.mem_cons.mp hq with rfl | hq
    · exact ⟨val, hval, hr⟩
    · exact h.answered q hq
  stored := h.stored
  pending := h.pending

theorem Consistent.wait
    (hstored : ∀ val ∈ s.engine.lookup (uuidKey partId r.1), int64At val 0 = r.2)
    (hpending : ∀ q ∈ s.pending, uuidKey partId q.1 = uuidKey partId r.1 → q.2 = r.2) :
    Consistent partId { s with pending := r :: s.pending } where
  answered := h.answered
  stored q hq := by
    rcases List.mem_cons.mp hq with rfl | hq
    · exact hstored
    · exact h.stored q hq
  pending q hq q' hq' hkey := by
    rcases List.mem_cons.mp hq with rfl | hold <;> rcases List.mem_cons.mp hq' with rfl | hold'
    · rfl
    · exact (hpending q' hold' hkey.symm).symm
    · exact hpending q hold hkey
    · exact h.pending q hold q' hold' hkey

theorem Consistent.put (hr : r ∈ s.pending) :
    Consistent partId { s with
      engine := s.engine.write [.put (uuidKey partId r.1) (ofInt 8 r.2.toInt)] } where
  answered q hq := by
    obtain ⟨val, hval, hid⟩ := h.answered q hq
    rw [lookup_put]
    by_cases hkey : uuidKey partId r.1 = uuidKey partId q.1
    · have hrq : r.2 = q.2 := by rw [← hid, h.stored r hr val (hkey ▸ hval)]
      exact ⟨_, if_pos hkey, by rw [int64At_ofInt, hrq]⟩
    · exact ⟨val, by rw [if_neg hkey, hval], hid⟩
  stored q hq val hval := by
    rw [lookup_put] at hval
    split_ifs at hval with hkey
    · obtain rfl := Option.mem_some.mp hval
      rw [int64At_ofInt, h.pending r hr q hq hkey]
    · exact h.stored q hq val hval
  pending := h.pending

theorem Consistent.erase (r : Bytes × Int64) :
    Consistent partId { s with pending := s.pending.erase r } where
  answered := h.answered
  stored q hq := h.stored q (List.mem_of_mem_erase hq)
  pending q hq q' hq' := h.pending q (List.mem_of_mem_erase hq) q' (List.mem_of_mem_erase hq')

/-- **One step keeps the ids of a key together.** -/
theorem Consistent.step (hok : s.Agrees hashFunc partId act)
    (hs : s.step hashFunc partId act = some s') : s'.Consistent partId := by
  cases act with
  | get name readable =>
    simp only [UuidStore.step] at hs
    split at hs
    · rename_i val hval
      simp only [Option.ite_none_right_eq_some, Option.some.injEq] at hs
      obtain ⟨-, rfl⟩ := hs
      refine h.answer (r := (name, _)) ?_ rfl
      rw [lookup] at hval
      split at hval
      · exact hval
      · cases hval
    · rename_i hnone
      obtain rfl := Option.some.inj hs
      exact h.wait (hok hnone).1 (hok hnone).2
  | write r applied succeeded =>
    simp only [UuidStore.step, Option.ite_none_right_eq_some, Option.some.injEq] at hs
    obtain ⟨⟨hr, hsound⟩, rfl⟩ := hs
    cases applied with
    | false =>
      -- an error, and nothing was written
      obtain rfl : succeeded = false := by simpa using hsound
      exact h.erase r
    | true =>
      have hput := (h.put hr).erase r
      cases succeeded with
      | false => exact hput
      | true =>
        refine hput.answer ?_ (int64At_ofInt r.2)
        rw [lookup_put, if_pos rfl]
  | tick seconds =>
    obtain rfl := Option.some.inj hs
    exact ⟨h.answered, h.stored, h.pending⟩

end

/-- **Requests whose ids agree answer one id for a name**, from whatever is stored at
first. -/
theorem uuid_unique {engine : Engine} {now : UInt64}
    (h : Reach (step hashFunc partId) (Agrees hashFunc partId) { engine, now } s)
    {name : Bytes} {v v' : Int64} (hv : (name, v) ∈ s.answered) (hv' : (name, v') ∈ s.answered) :
    v = v' := by
  have hcon : s.Consistent partId :=
    h.invariant ⟨by simp, by simp, by simp⟩ fun _ _ _ hi hok hs => hi.step hok hs
  obtain ⟨val, hval, hid⟩ := hcon.answered _ hv
  obtain ⟨val', hval', hid'⟩ := hcon.answered _ hv'
  obtain rfl : val = val' := Option.some.inj (hval.symm.trans hval')
  exact hid.symm.trans hid'

/-- A name is asked for a second time after its id was written. -/
theorem uuid_unique_sample :
    ∃ s, Reach (step (fun _ => 0) 1) (Agrees (fun _ => 0) 1) { engine := ∅, now := 5 } s ∧
      s.answered = [([97], 5), ([97], 5)] ∧ ∀ v, ([97], v) ∈ s.answered → v = 5 := by
  obtain ⟨s, hs, hp⟩ := exists_reach_of_run (step (fun _ => 0) 1) (Agrees (fun _ => 0) 1)
    { engine := ∅, now := 5 } (fun s => decide (s.answered = [([97], 5), ([97], 5)]))
    [.get [97] true, .write ([97], 5) true true, .tick 1, .get [97] true] (by decide)
  have ha := of_decide_eq_true hp
  exact ⟨s, hs, ha, fun v hv => uuid_unique hs hv (by simp [ha])⟩

theorem newVertexId_ne (name : Bytes) :
    newVertexId hashFunc name 0 ≠ newVertexId hashFunc name 1 := by
  intro h
  have hbit := congrArg (fun v : Int64 => v.toBitVec.getLsbD 0) h
  simp [newVertexId] at hbit

/-- **Two requests that both look before either writes answer two ids** for one name,
whatever the hash, when the clock moves on between them. -/
theorem two_uuids_of_hash (hashFunc : Bytes → UInt64) :
    ∃ s v v', Reach (step hashFunc 1) (fun _ _ => True) { engine := ∅, now := 0 } s ∧
      ([97], v) ∈ s.answered ∧ ([97], v') ∈ s.answered ∧ v ≠ v' := by
  obtain ⟨r, hr⟩ : ∃ r : Bytes × Int64, r = ([97], newVertexId hashFunc [97] 0) := ⟨_, rfl⟩
  obtain ⟨r', hr'⟩ : ∃ r : Bytes × Int64, r = ([97], newVertexId hashFunc [97] 1) := ⟨_, rfl⟩
  have hlooked : Reach (step hashFunc 1) (fun _ _ => True) { engine := ∅, now := 0 }
      { engine := ∅, now := 1, pending := [r', r] } := by
    refine .tail (a := .get [97] true) (.tail (a := .tick 1) (.tail (a := .get [97] true)
      .refl trivial rfl) trivial rfl) trivial ?_
    rw [hr, hr']
    rfl
  refine ⟨_, r.2, r'.2, .tail (a := .write r true true) (.tail (a := .write r' true true)
    hlooked trivial (if_pos ⟨by simp, fun _ => rfl⟩)) trivial (if_pos ⟨by simp, fun _ => rfl⟩), ?_⟩
  rw [hr, hr']
  exact ⟨.head _, .tail _ (.head _), newVertexId_ne [97]⟩

theorem exists_two_uuids :
    ∃ s v v', Reach (step (fun _ => 0) 1) (fun _ _ => True) { engine := ∅, now := 0 } s ∧
      ([97], v) ∈ s.answered ∧ ([97], v') ∈ s.answered ∧ v ≠ v' := two_uuids_of_hash _

end UuidStore
end K2Graph.Storaged
