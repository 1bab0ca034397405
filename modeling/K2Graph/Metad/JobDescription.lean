import K2Graph.Kvstore.LogEncoder

/-!
# The record of a job

`JobDescription::jobVal` writes strings behind their lengths and numbers of fixed width, and
`parseVal` reads them back with a moving offset, each read behind a check of the size.  The
status is the number of `cpp2::JobStatus`.

## Main results

* `parseVal_jobVal` — a record is read back, and of a part of it the parsing throws.
-/

namespace K2Graph.Metad.Job

open LittleEndian List Kvstore

/-- What a job stores. -/
structure JobDescription where
  cmd : List UInt8
  paras : List (List UInt8)
  status : Int32
  startTime : Int64
  stopTime : Int64

/-- A string behind its length. -/
def sized (s : List UInt8) : List UInt8 := ofNat 8 s.length ++ s

def JobDescription.jobVal (d : JobDescription) : List UInt8 :=
  sized d.cmd ++ ((ofNat 8 d.paras.length ++ d.paras.flatMap sized) ++
    (ofInt 4 d.status.toInt ++ (ofInt 8 d.startTime.toInt ++ ofInt 8 d.stopTime.toInt)))

inductive Failure
  | runtimeError
  /-- Reading over the end. -/
  | undefined

/-- `parseFixedVal`: the check, in which the sum is a `size_t`, and the read. -/
def parseFixed (offset len : ℕ) (rawVal : List UInt8) : Except Failure (List UInt8) :=
  if rawVal.length < (offset + len) % 2 ^ 64 then .error .runtimeError
  else if rawVal.length < offset + len then .error .undefined
  else .ok ((rawVal.drop offset).take len)

def parseString (offset : ℕ) (rawVal : List UInt8) : Except Failure (List UInt8) := do
  let len ← parseFixed offset 8 rawVal
  parseFixed (offset + 8) (toNat len) rawVal

/-- The loop of `parseStrVector`, with the offset behind it. -/
def parseStrings : (size offset : ℕ) → List UInt8 → Except Failure (List (List UInt8) × ℕ)
  | 0, offset, _ => .ok ([], offset)
  | size + 1, offset, rawVal => do
      let s ← parseString offset rawVal
      let rest ← parseStrings size (offset + 8 + s.length) rawVal
      return (s :: rest.1, rest.2)

def parseStrVector (offset : ℕ) (rawVal : List UInt8) :
    Except Failure (List (List UInt8) × ℕ) := do
  let size ← parseFixed offset 8 rawVal
  parseStrings (toNat size) (offset + 8) rawVal

def parseVal (rawVal : List UInt8) : Except Failure JobDescription := do
  let cmd ← parseString 0 rawVal
  let paras ← parseStrVector (8 + cmd.length) rawVal
  let status ← parseFixed paras.2 4 rawVal
  let tStart ← parseFixed (paras.2 + 4) 8 rawVal
  let tStop ← parseFixed (paras.2 + 4 + 8) 8 rawVal
  return ⟨cmd, paras.1, .ofInt (toInt status), .ofInt (toInt tStart), .ofInt (toInt tStop)⟩

/-! ### Reading a part of a record -/

/-- Of the first bytes of a record, which are those before `start` at least, `a` is read if they
reach to `stop`. -/
def Reads (full : List UInt8) (start stop : ℕ) (parse : List UInt8 → Except Failure α) (a : α) :
    Prop :=
  ∀ k, start ≤ k → parse (full.take k) = if stop ≤ k then .ok a else .error .runtimeError

/-- The bytes that stand at an offset. -/
def At (full : List UInt8) (offset : ℕ) (x : List UInt8) : Prop :=
  ∃ pre post, full = pre ++ (x ++ post) ∧ pre.length = offset

theorem At.split (h : At full offset (x ++ y)) :
    At full offset x ∧ At full (offset + x.length) y := by
  obtain ⟨pre, post, rfl, rfl⟩ := h
  exact ⟨⟨pre, y ++ post, by simp, rfl⟩, pre ++ x, post, by simp, by simp⟩

theorem length_sized (s : List UInt8) : (sized s).length = 8 + s.length := by
  rw [sized, length_append, length_ofNat]

theorem length_le_flatMap (paras : List (List UInt8)) :
    paras.length ≤ (paras.flatMap sized).length := by
  induction paras with
  | nil => exact le_rfl
  | cons s paras ih =>
    rw [length_cons, flatMap_cons, length_append, length_sized]
    omega

variable {α β : Type} {full : List UInt8} {start mid stop offset : ℕ}

theorem Reads.pure (a : α) : Reads full start start (fun _ => .ok a) a := by
  intro k hk
  rw [if_pos hk]

theorem Reads.bind {parse : List UInt8 → Except Failure α}
    {next : α → List UInt8 → Except Failure β} (h : Reads full start mid parse a)
    (hnext : Reads full mid stop (next a) b) (hle : mid ≤ stop) :
    Reads full start stop (fun rawVal => parse rawVal >>= fun a => next a rawVal) b := by
  intro k hk
  simp only [h k hk]
  by_cases hmid : mid ≤ k
  · rw [if_pos hmid]
    exact hnext k hmid
  · rw [if_neg hmid, if_neg (by omega)]
    rfl

variable (hfull : full.length < 2 ^ 64)
include hfull

theorem reads_parseFixed (h : At full offset x) (hlen : x.length = len) :
    Reads full start (offset + len) (parseFixed offset len) x := by
  obtain ⟨pre, post, rfl, rfl⟩ := h
  subst hlen
  intro k hk
  have hlen : ((pre ++ (x ++ post)).take k).length = min k (pre ++ (x ++ post)).length :=
    length_take
  rw [length_append, length_append] at hlen hfull
  rw [parseFixed, Nat.mod_eq_of_lt (by omega)]
  by_cases hle : pre.length + x.length ≤ k
  · rw [if_pos hle, if_neg (by omega), if_neg (by omega), drop_take, drop_left, take_take,
      min_eq_left (by omega), take_left]
  · rw [if_neg hle, if_pos (by omega)]

theorem reads_parseString (h : At full offset (sized s)) :
    Reads full start (offset + 8 + s.length) (parseString offset) s := by
  obtain ⟨hlen, hs⟩ := h.split
  have hlt : s.length < 256 ^ 8 := by
    obtain ⟨pre, post, rfl, -⟩ := hs
    simp only [length_append] at hfull
    omega
  rw [length_ofNat] at hs
  refine (reads_parseFixed hfull hlen (length_ofNat _ _)).bind ?_ (Nat.le_add_right _ _)
  rw [toNat_ofNat hlt]
  exact reads_parseFixed hfull hs rfl

theorem reads_parseStrings (h : At full offset (paras.flatMap sized)) :
    Reads full offset (offset + (paras.flatMap sized).length) (parseStrings paras.length offset)
      (paras, offset + (paras.flatMap sized).length) := by
  induction paras generalizing offset with
  | nil => exact Reads.pure _
  | cons s paras ih =>
    obtain ⟨hs, hrest⟩ := At.split h
    rw [length_sized, ← add_assoc] at hrest
    rw [flatMap_cons, length_append, length_sized, ← add_assoc, ← add_assoc]
    refine (reads_parseString hfull hs).bind ?_ (Nat.le_add_right _ _)
    exact (ih hrest).bind (Reads.pure _) le_rfl

theorem reads_parseStrVector (h : At full offset (ofNat 8 paras.length ++ paras.flatMap sized)) :
    Reads full start (offset + 8 + (paras.flatMap sized).length) (parseStrVector offset)
      (paras, offset + 8 + (paras.flatMap sized).length) := by
  obtain ⟨hlen, hparas⟩ := h.split
  have hlt : paras.length < 256 ^ 8 := by
    have hle := length_le_flatMap paras
    obtain ⟨pre, post, rfl, -⟩ := hparas
    simp only [length_append] at hfull
    omega
  rw [length_ofNat] at hparas
  refine (reads_parseFixed hfull hlen (length_ofNat _ _)).bind ?_ (Nat.le_add_right _ _)
  rw [toNat_ofNat hlt]
  exact reads_parseStrings hfull hparas

omit hfull

theorem reads_parseVal (d : JobDescription) (hsize : d.jobVal.length < 2 ^ 64) :
    Reads d.jobVal 0 d.jobVal.length parseVal d := by
  have hlen : d.jobVal.length =
      8 + d.cmd.length + 8 + (d.paras.flatMap sized).length + 4 + 8 + 8 := by
    simp only [JobDescription.jobVal, length_append, length_sized, length_ofNat, length_ofInt]
    omega
  have hd : d = ⟨d.cmd, d.paras, .ofInt (toInt (ofInt 4 d.status.toInt)),
      .ofInt (toInt (ofInt 8 d.startTime.toInt)), .ofInt (toInt (ofInt 8 d.stopTime.toInt))⟩ := by
    rw [toInt_ofInt (fits_int32 _), toInt_ofInt (fits_int64 _), toInt_ofInt (fits_int64 _),
      Int32.ofInt_toInt, Int64.ofInt_toInt, Int64.ofInt_toInt]
  have h : At d.jobVal 0 d.jobVal := ⟨[], [], (append_nil _).symm, rfl⟩
  obtain ⟨hcmd, h⟩ := h.split
  rw [length_sized, zero_add] at h
  obtain ⟨hparas, h⟩ := h.split
  rw [length_append, length_ofNat, ← add_assoc] at h
  obtain ⟨hstatus, h⟩ := h.split
  rw [length_ofInt] at h
  obtain ⟨hstart, hstop⟩ := h.split
  rw [length_ofInt] at hstop
  rw [hlen]
  refine (reads_parseString hsize hcmd).bind ?_ (by omega)
  refine (reads_parseStrVector hsize hparas).bind ?_ (by omega)
  refine (reads_parseFixed hsize hstatus (length_ofInt _ _)).bind ?_ (by omega)
  refine (reads_parseFixed hsize hstart (length_ofInt _ _)).bind ?_ (by omega)
  refine (reads_parseFixed hsize hstop (length_ofInt _ _)).bind ?_ le_rfl
  exact hd ▸ Reads.pure _

/-- **A record is read back, and of a part of it the parsing throws.** -/
theorem parseVal_jobVal (d : JobDescription) (hsize : d.jobVal.length < 2 ^ 64) :
    parseVal d.jobVal = .ok d ∧
      ∀ rawVal, rawVal <+: d.jobVal → rawVal ≠ d.jobVal →
        parseVal rawVal = .error .runtimeError := by
  have hall := reads_parseVal d hsize
  constructor
  · simpa using hall d.jobVal.length (Nat.zero_le _)
  · intro rawVal hpre hne
    have hlt : rawVal.length < d.jobVal.length :=
      lt_of_le_of_ne hpre.length_le fun heq => hne (hpre.eq_of_length heq)
    have h := hall rawVal.length (Nat.zero_le _)
    rwa [← prefix_iff_eq_take.mp hpre, if_neg (not_le.mpr hlt)] at h

theorem parseVal_jobVal_two :
    parseVal (JobDescription.jobVal ⟨[102], [[1], []], 1, 5, 6⟩) =
      .ok ⟨[102], [[1], []], 1, 5, 6⟩ :=
  (parseVal_jobVal _ (by decide)).1

end K2Graph.Metad.Job
