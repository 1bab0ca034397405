import K2Graph.Kvstore.Engine
import Mathlib.Tactic.Ring

/-!
# Logs as bytes

`LogEncoder` turns an operation into a log: a timestamp, a type, a number, and byte
strings with their lengths before them.  The decoders return `folly::StringPiece`s, which
are places in the log and are read only when they are used; reading outside the log is
undefined, and fails here.

The decoder of mixed batches keeps its offset in an `int` and moves on by an unsigned
32-bit sum, so it reads what was written only while both are large enough
(`OffsetsFit`).  The other decoders have no such limit, since they compute in `size_t`.

## Main results

* `decodeSingleValue_encode`, `decodeMultiValues_encode`, `decodeBatchValue_encode`,
  `decodeHost_encode`, `decodeKV_encode` — what is decoded is what was encoded.
-/

namespace K2Graph.Kvstore

open List LittleEndian

/-! ### Types and pieces -/

inductive LogType where
  | put
  | multiPut
  | remove
  | multiRemove
  | removeRange
  | addLearner
  | transLeader
  | addPeer
  | removePeer
  | batchWrite
  deriving DecidableEq

namespace LogType

def toByte : LogType → UInt8
  | put => 0x1
  | multiPut => 0x2
  | remove => 0x3
  | multiRemove => 0x4
  | removeRange => 0x6
  | addLearner => 0x07
  | transLeader => 0x08
  | addPeer => 0x09
  | removePeer => 0x10
  | batchWrite => 0x11

def ofByte (b : UInt8) : Option LogType :=
  [put, multiPut, remove, multiRemove, removeRange, addLearner, transLeader, addPeer, removePeer,
    batchWrite].find? fun type => type.toByte = b

@[simp] theorem ofByte_toByte (type : LogType) : ofByte type.toByte = some type := by
  cases type <;> decide

end LogType

inductive BatchLogType where
  | put
  | remove
  | removeRange
  deriving DecidableEq

namespace BatchLogType

def toByte : BatchLogType → UInt8
  | put => 0x1
  | remove => 0x2
  | removeRange => 0x3

def ofByte (b : UInt8) : Option BatchLogType :=
  [put, remove, removeRange].find? fun type => type.toByte = b

@[simp] theorem ofByte_toByte (type : BatchLogType) : ofByte type.toByte = some type := by
  cases type <;> decide

end BatchLogType

/-- `HostAddr`: an IP and a port. -/
structure HostAddr where
  ip : Int32
  port : Int32

/-- `folly::StringPiece`: a place in a byte string. -/
structure StringPiece where
  begin_ : ℤ
  size : ℕ

/-- The bytes of a piece, if they are there. -/
def StringPiece.read (piece : StringPiece) (data : Bytes) : Option Bytes :=
  readAt data piece.begin_ piece.size

/-! ### Encoding -/

/-- A length in front of a string; of a string whose length does not fit in a `uint32_t`,
only a part is written. -/
def encodeValue (v : Bytes) : Bytes := ofNat 4 v.length ++ v.take (v.length % 2 ^ 32)

variable (ts : Int64)

section

variable (type : LogType)

/-- The first `kHeadLen` bytes. -/
def encodeHead (num : ℕ) : Bytes :=
  ofInt 8 ts.toInt ++ ([type.toByte] ++ ofNat 4 num)

def encodeKV (key val : Bytes) : Bytes :=
  ofNat 4 key.length ++ (ofNat 4 val.length ++
    (key.take (key.length % 2 ^ 32) ++ val.take (val.length % 2 ^ 32)))

def encodeSingleValue (val : Bytes) : Bytes :=
  encodeHead ts type val.length ++ val

/-- `encodeMultiValues` of a vector of strings. -/
def encodeMultiValues (values : List Bytes) : Bytes :=
  encodeHead ts type values.length ++ values.flatMap encodeValue

/-- `encodeMultiValues` of a vector of pairs. -/
def encodeMultiKVs (kvs : List (Bytes × Bytes)) : Bytes :=
  encodeHead ts type (2 * kvs.length) ++ kvs.flatMap fun kv => encodeValue kv.1 ++ encodeValue kv.2

/-- `encodeMultiValues` of two strings. -/
def encodeTwoValues (v1 v2 : Bytes) : Bytes :=
  encodeHead ts type 2 ++ (encodeValue v1 ++ encodeValue v2)

/-- One operation of a mixed batch: the lower four bytes of each size, and the string. -/
def encodeBatchOp (op : BatchLogType × Bytes × Bytes) : Bytes :=
  [op.1.toByte] ++ (ofNat 4 op.2.1.length ++ (op.2.1 ++ (ofNat 4 op.2.2.length ++ op.2.2)))

def encodeBatchValue (batch : List (BatchLogType × Bytes × Bytes)) : Bytes :=
  encodeHead ts .batchWrite batch.length ++ batch.flatMap encodeBatchOp

def encodeHost (host : HostAddr) : Bytes :=
  ofInt 8 ts.toInt ++ ([type.toByte] ++ (ofInt 4 host.ip.toInt ++ ofInt 4 host.port.toInt))

end

/-! ### Decoding -/

def decodeKV (data : Bytes) : Option (StringPiece × StringPiece) := do
  let ksize ← readNat data 0 4
  let vsize ← readNat data 4 4
  return (⟨4 + 4, ksize⟩, ⟨4 + 4 + ksize, vsize⟩)

variable (encoded : Bytes)

def decodeSingleValue : Option StringPiece := do
  let len ← readNat encoded (8 + 1) 4
  return ⟨8 + 1 + 4, len⟩

/-- The loop of `decodeMultiValues`, from `p` on. -/
def decodeValues (encoded : Bytes) : ℕ → ℤ → Option (List StringPiece)
  | 0, _ => some []
  | n + 1, p => do
      let len ← readNat encoded p 4
      let values ← decodeValues encoded n (p + (4 + len))
      return ⟨p + 4, len⟩ :: values

def decodeMultiValues : Option (List StringPiece) := do
  let numValues ← readNat encoded (8 + 1) 4
  decodeValues encoded numValues (8 + 1 + 4)

/-- Conversion to `int`. -/
def toInt (x : ℤ) : ℤ := x.bmod (2 ^ 32)

/-- The loop of `decodeBatchValue`, from `p` on. -/
def decodeOps (encoded : Bytes) : ℕ → ℤ → Option (List (UInt8 × StringPiece × StringPiece))
  | 0, _ => some []
  | n + 1, p => do
      let type ← (← readAt encoded p 1)[0]?
      let p := p + 1
      let len1 ← readNat encoded p 4
      let offset := toInt (4 + len1)
      let len2 ← readNat encoded (p + offset) 4
      let offset := toInt (offset + 4)
      -- the sum of an `int` and a `uint32_t` is a `uint32_t`
      let batch ← decodeOps encoded n (p + (offset + len2) % 2 ^ 32)
      return (type, ⟨p + 4, len1⟩, ⟨p + offset, len2⟩) :: batch

def decodeBatchValue : Option (List (UInt8 × StringPiece × StringPiece)) := do
  let numValues ← readNat encoded (8 + 1) 4
  decodeOps encoded numValues (8 + 1 + 4)

/-- Fails where one of the `CHECK`s does. -/
def decodeHost (type : LogType) (encoded : Bytes) : Option HostAddr := do
  if encoded.length = 8 + 1 + 8 ∧ encoded[8]? = some type.toByte then
    return ⟨Int32.ofInt (← readInt encoded (8 + 1) 4),
      Int32.ofInt (← readInt encoded (8 + 1 + 4) 4)⟩
  else none

def getTimestamp (command : Bytes) : Option Int64 := do
  return Int64.ofInt (← readInt command 0 8)

/-! ### Reading back -/

theorem fits_int64 (x : Int64) : Fits 8 x.toInt := by
  have h1 := x.le_toInt
  have h2 := x.toInt_lt
  unfold Fits
  omega

theorem fits_int32 (x : Int32) : Fits 4 x.toInt := by
  have h1 := x.le_toInt
  have h2 := x.toInt_lt
  unfold Fits
  omega

variable {data : Bytes} (ts : Int64) (type : LogType) (host : HostAddr)

@[simp] theorem length_encodeHead (num : ℕ) : (encodeHead ts type num).length = 13 := by
  simp [encodeHead]

theorem getElem?_encodeHead (num : ℕ) (rest : Bytes) :
    (encodeHead ts type num ++ rest)[8]? = some type.toByte := by
  rw [encodeHead]
  simp

theorem readNat_encodeHead (rest : Bytes) (h : num < 2 ^ 32) :
    readNat (encodeHead ts type num ++ rest) (8 + 1) 4 = some num := by
  refine readNat_of_eq (ofInt 8 ts.toInt ++ [type.toByte]) h ⟨rest, ?_⟩ ?_
  · simp [encodeHead]
  · simp

theorem encodeValue_eq (h : v.length < 2 ^ 32) : encodeValue v = ofNat 4 v.length ++ v := by
  rw [encodeValue, Nat.mod_eq_of_lt h, take_length]

theorem decodeSingleValue_encode (h : val.length < 2 ^ 32) :
    ∃ piece, decodeSingleValue (encodeSingleValue ts type val) = some piece ∧
      piece.read (encodeSingleValue ts type val) = some val := by
  refine ⟨⟨8 + 1 + 4, val.length⟩, ?_, ?_⟩
  · rw [decodeSingleValue, encodeSingleValue, readNat_encodeHead ts type val h]
    rfl
  · refine readAt_of_eq (encodeHead ts type val.length) ⟨[], ?_⟩ (by simp) rfl
    rw [encodeSingleValue, append_nil]

theorem decodeValues_encode (h : ∀ v ∈ values, v.length < 2 ^ 32) (pre : Bytes)
    (hdata : data = pre ++ values.flatMap encodeValue) :
    ∃ pieces, decodeValues data values.length pre.length = some pieces ∧
      List.Forall₂ (fun piece v => StringPiece.read piece data = some v) pieces values := by
  induction values generalizing pre with
  | nil => exact ⟨[], rfl, .nil⟩
  | cons v values ih =>
    have hv := h v mem_cons_self
    have hsplit : data = pre ++ (ofNat 4 v.length ++ (v ++ values.flatMap encodeValue)) := by
      rw [hdata, flatMap_cons, encodeValue_eq hv, append_assoc]
    obtain ⟨pieces, hdec, hread⟩ := ih (fun w hw => h w (mem_cons_of_mem _ hw))
      (pre ++ (ofNat 4 v.length ++ v)) (by rw [hsplit]; simp only [append_assoc])
    have hp : ((pre ++ (ofNat 4 v.length ++ v)).length : ℤ) = pre.length + (4 + v.length) := by
      simp
    rw [hp] at hdec
    refine ⟨⟨pre.length + 4, v.length⟩ :: pieces, ?_, .cons ?_ hread⟩
    · rw [length_cons, decodeValues, readNat_of_eq pre hv ⟨_, hsplit⟩ rfl]
      dsimp only [bind, Option.bind]
      rw [hdec]
      rfl
    · refine readAt_of_eq (pre ++ ofNat 4 v.length) ⟨values.flatMap encodeValue, ?_⟩ ?_ rfl
      · rw [hsplit, append_assoc]
      · simp

theorem decodeMultiValues_encode (hnum : values.length < 2 ^ 32)
    (h : ∀ v ∈ values, v.length < 2 ^ 32) :
    ∃ pieces, decodeMultiValues (encodeMultiValues ts type values) = some pieces ∧
      List.Forall₂ (fun piece v =>
        StringPiece.read piece (encodeMultiValues ts type values) = some v) pieces values := by
  obtain ⟨pieces, hdec, hread⟩ :=
    decodeValues_encode h (encodeHead ts type values.length)
      (encodeMultiValues.eq_def ts type values)
  refine ⟨pieces, ?_, hread⟩
  rw [decodeMultiValues]
  nth_rewrite 1 [encodeMultiValues]
  rw [readNat_encodeHead ts type _ hnum]
  exact hdec

theorem encodeMultiKVs_eq (kvs : List (Bytes × Bytes)) :
    encodeMultiKVs ts type kvs =
      encodeMultiValues ts type (kvs.flatMap fun kv => [kv.1, kv.2]) := by
  have hlen : (kvs.flatMap fun kv => [kv.1, kv.2]).length = 2 * kvs.length := by
    simp [mul_comm]
  rw [encodeMultiKVs, encodeMultiValues, hlen, flatMap_assoc]
  simp

theorem encodeTwoValues_eq (v1 v2 : Bytes) :
    encodeTwoValues ts type v1 v2 = encodeMultiValues ts type [v1, v2] := by
  simp [encodeTwoValues, encodeMultiValues]

/-! ### Mixed batches -/

/-- The offset to the end of the second length fits in an `int`, and the offset to the
next operation, if there is one, in a `uint32_t`. -/
def OffsetsFit : List (BatchLogType × Bytes × Bytes) → Prop
  | [] => True
  | op :: ops => 8 + op.2.1.length < 2 ^ 31 ∧
      (ops ≠ [] → 8 + op.2.1.length + op.2.2.length < 2 ^ 32) ∧ OffsetsFit ops

instance decidableOffsetsFit :
    (batch : List (BatchLogType × Bytes × Bytes)) → Decidable (OffsetsFit batch)
  | [] => .isTrue trivial
  | op :: ops =>
      have := decidableOffsetsFit ops
      inferInstanceAs (Decidable (8 + op.2.1.length < 2 ^ 31 ∧
        (ops ≠ [] → 8 + op.2.1.length + op.2.2.length < 2 ^ 32) ∧ OffsetsFit ops))

/-- What `commitLogs` gets from one operation of a batch. -/
structure DecodedAs (data : Bytes) (item : UInt8 × StringPiece × StringPiece)
    (op : BatchLogType × Bytes × Bytes) : Prop where
  type : item.1 = op.1.toByte
  key : item.2.1.read data = some op.2.1
  value : item.2.2.read data = some op.2.2

theorem toInt_of_lt {n : ℕ} (h : n < 2 ^ 31) : toInt n = n := by
  exact Int.bmod_eq_of_le (by omega) (by omega)

theorem decodeOps_succ {type : UInt8} (n : ℕ) (htype : readAt data p 1 = some [type])
    (hlen1 : readNat data (p + 1) 4 = some len1)
    (hlen2 : readNat data (p + 1 + toInt (4 + len1)) 4 = some len2) : decodeOps data (n + 1) p =
      (decodeOps data n (p + 1 + (toInt (toInt (4 + len1) + 4) + len2) % 2 ^ 32)).map
        ((type, ⟨p + 1 + 4, len1⟩, ⟨p + 1 + toInt (toInt (4 + len1) + 4), len2⟩) :: ·) := by
  rw [decodeOps, htype]
  dsimp only [bind, Option.bind, getElem?_cons_zero]
  rw [hlen1]
  dsimp only
  rw [hlen2]
  dsimp only
  cases decodeOps data n (p + 1 + (toInt (toInt (4 + len1) + 4) + len2) % 2 ^ 32) with
  | none => rfl
  | some batch => rfl

/-- What the loop reads where an operation stands. -/
theorem reads_encodeBatchOp {type : BatchLogType} (hkey : key.length < 2 ^ 32)
    (hval : val.length < 2 ^ 32) (hdata : data = pre ++ (encodeBatchOp (type, key, val) ++ post)) :
    readAt data pre.length 1 = some [type.toByte] ∧
      readNat data (pre.length + 1) 4 = some key.length ∧
      readNat data (pre.length + 1 + (4 + key.length)) 4 = some val.length ∧
      StringPiece.read ⟨pre.length + 1 + 4, key.length⟩ data = some key ∧
      StringPiece.read ⟨pre.length + 1 + (8 + key.length), val.length⟩ data = some val := by
  have hsplit : data = pre ++ ([type.toByte] ++ (ofNat 4 key.length ++ (key ++
      (ofNat 4 val.length ++ (val ++ post))))) := by
    rw [hdata, encodeBatchOp]
    simp
  refine ⟨readAt_of_eq pre ⟨_, hsplit⟩ rfl rfl, ?_, ?_, ?_, ?_⟩
  · refine readNat_of_eq (pre ++ [type.toByte]) hkey
      ⟨key ++ (ofNat 4 val.length ++ (val ++ post)), ?_⟩ (by simp)
    rw [hsplit, append_assoc]
  · refine readNat_of_eq (pre ++ ([type.toByte] ++ (ofNat 4 key.length ++ key))) hval
      ⟨val ++ post, ?_⟩ ?_
    · rw [hsplit]
      simp
    · simp only [length_append, length_ofNat, length_singleton]
      push_cast
      ring
  · refine readAt_of_eq (pre ++ ([type.toByte] ++ ofNat 4 key.length))
      ⟨ofNat 4 val.length ++ (val ++ post), ?_⟩ ?_ rfl
    · rw [hsplit]
      simp
    · simp only [length_append, length_ofNat, length_singleton]
      push_cast
      ring
  · refine readAt_of_eq (pre ++ ([type.toByte] ++ (ofNat 4 key.length ++ (key ++
      ofNat 4 val.length)))) ⟨post, ?_⟩ ?_ rfl
    · rw [hsplit]
      simp
    · simp only [length_append, length_ofNat, length_singleton]
      push_cast
      ring

theorem decodeOps_encode (hfit : OffsetsFit batch) (h : ∀ op ∈ batch, op.2.2.length < 2 ^ 32)
    (pre : Bytes) (hdata : data = pre ++ batch.flatMap encodeBatchOp) :
    ∃ items, decodeOps data batch.length pre.length = some items ∧
      List.Forall₂ (DecodedAs data) items batch := by
  induction batch generalizing pre with
  | nil => exact ⟨[], rfl, .nil⟩
  | cons op ops ih =>
    obtain ⟨type, key, val⟩ := op
    obtain ⟨hoff, hnext, hrest⟩ := hfit
    have hval : val.length < 2 ^ 32 := h _ mem_cons_self
    dsimp only at hoff hnext
    rw [flatMap_cons] at hdata
    obtain ⟨htype, hlen1, hlen2, hkr, hvr⟩ := reads_encodeBatchOp (by omega) hval hdata
    -- neither offset is too large for an `int`
    have hoff1 : toInt (4 + (key.length : ℤ)) = 4 + key.length := by
      have h := toInt_of_lt (n := 4 + key.length) (by omega)
      rwa [Nat.cast_add] at h
    have hoff2 : toInt (4 + (key.length : ℤ) + 4) = 8 + key.length := by
      have hsum : (4 + (key.length : ℤ) + 4) = (8 + key.length : ℕ) := by push_cast; ring
      rw [hsum, toInt_of_lt hoff, Nat.cast_add, Nat.cast_ofNat]
    obtain ⟨items, hdec, hread⟩ : ∃ items,
        decodeOps data ops.length
          (pre.length + 1 + ((8 + key.length : ℤ) + val.length) % 2 ^ 32) = some items ∧
          List.Forall₂ (DecodedAs data) items ops := by
      by_cases hnil : ops = []
      · rw [hnil]
        exact ⟨[], rfl, .nil⟩
      have hnext := hnext hnil
      obtain ⟨items, hdec, hread⟩ := ih hrest (fun o ho => h o (mem_cons_of_mem _ ho))
        (pre ++ encodeBatchOp (type, key, val)) (by rw [hdata, append_assoc])
      have hp : ((pre ++ encodeBatchOp (type, key, val)).length : ℤ) =
          pre.length + 1 + (8 + key.length + val.length) := by
        simp only [encodeBatchOp, length_append, length_ofNat, length_singleton]
        push_cast
        ring
      refine ⟨items, ?_, hread⟩
      rw [Int.emod_eq_of_lt (by omega) (by omega), ← hp]
      exact hdec
    refine ⟨(type.toByte, ⟨pre.length + 1 + 4, key.length⟩,
      ⟨pre.length + 1 + (8 + key.length), val.length⟩) :: items, ?_, .cons ⟨rfl, hkr, hvr⟩ hread⟩
    rw [length_cons, decodeOps_succ ops.length htype hlen1 (by rw [hoff1]; exact hlen2),
      hoff1, hoff2, hdec, Option.map_some]

/-- **What was encoded as a mixed batch**, if the offsets fit. -/
theorem decodeBatchValue_encode (hnum : batch.length < 2 ^ 32) (hfit : OffsetsFit batch)
    (h : ∀ op ∈ batch, op.2.2.length < 2 ^ 32) :
    ∃ items, decodeBatchValue (encodeBatchValue ts batch) = some items ∧
      List.Forall₂ (DecodedAs (encodeBatchValue ts batch)) items batch := by
  obtain ⟨items, hdec, hread⟩ := decodeOps_encode hfit h (encodeHead ts .batchWrite batch.length)
    (encodeBatchValue.eq_def ts batch)
  refine ⟨items, ?_, hread⟩
  rw [decodeBatchValue]
  nth_rewrite 1 [encodeBatchValue]
  rw [readNat_encodeHead ts .batchWrite _ hnum]
  exact hdec

/-! ### Hosts and rows -/

theorem getElem?_encodeHost : (encodeHost ts type host)[8]? = some type.toByte := by
  rw [encodeHost]
  simp

theorem decodeHost_encode : decodeHost type (encodeHost ts type host) = some host := by
  have hip : readInt (encodeHost ts type host) (8 + 1) 4 = some host.ip.toInt := by
    refine readInt_of_eq (ofInt 8 ts.toInt ++ [type.toByte]) (fits_int32 _)
      ⟨ofInt 4 host.port.toInt, ?_⟩ ?_
    · rw [encodeHost, append_assoc]
    · simp
  have hport : readInt (encodeHost ts type host) (8 + 1 + 4) 4 = some host.port.toInt := by
    refine readInt_of_eq (ofInt 8 ts.toInt ++ ([type.toByte] ++ ofInt 4 host.ip.toInt))
      (fits_int32 _) ⟨[], ?_⟩ ?_
    · simp [encodeHost]
    · simp
  have hlen : (encodeHost ts type host).length = 8 + 1 + 8 := by simp [encodeHost]
  rw [decodeHost, if_pos ⟨hlen, getElem?_encodeHost ts type host⟩, hip, hport]
  simp

theorem getTimestamp_encodeHost : getTimestamp (encodeHost ts type host) = some ts := by
  have hts : readInt (encodeHost ts type host) 0 8 = some ts.toInt := by
    refine readInt_of_eq [] (fits_int64 _) ⟨[type.toByte] ++ (ofInt 4 host.ip.toInt ++
      ofInt 4 host.port.toInt), ?_⟩ rfl
    rw [encodeHost, nil_append]
  rw [getTimestamp, hts]
  simp

theorem decodeKV_encode (hkey : key.length < 2 ^ 32) (hval : val.length < 2 ^ 32) :
    ∃ kv, decodeKV (encodeKV key val) = some kv ∧ kv.1.read (encodeKV key val) = some key ∧
      kv.2.read (encodeKV key val) = some val := by
  have heq : encodeKV key val = ofNat 4 key.length ++ (ofNat 4 val.length ++ (key ++ val)) := by
    rw [encodeKV, Nat.mod_eq_of_lt hkey, Nat.mod_eq_of_lt hval, take_length, take_length]
  have hk : readNat (encodeKV key val) 0 4 = some key.length :=
    readNat_of_eq [] hkey ⟨_, heq⟩ rfl
  have hv : readNat (encodeKV key val) 4 4 = some val.length :=
    readNat_of_eq (ofNat 4 key.length) hval ⟨_, heq⟩ (by simp)
  have hkr : StringPiece.read ⟨4 + 4, key.length⟩ (encodeKV key val) = some key := by
    refine readAt_of_eq (ofNat 4 key.length ++ ofNat 4 val.length) ⟨val, ?_⟩ (by simp) rfl
    rw [heq, append_assoc]
  have hvr : StringPiece.read ⟨4 + 4 + key.length, val.length⟩ (encodeKV key val) = some val := by
    refine readAt_of_eq (ofNat 4 key.length ++ (ofNat 4 val.length ++ key)) ⟨[], ?_⟩ ?_ rfl
    · rw [heq]
      simp
    · simp only [length_append, length_ofNat]
      push_cast
      ring
  refine ⟨(⟨4 + 4, key.length⟩, ⟨4 + 4 + key.length, val.length⟩), ?_, hkr, hvr⟩
  rw [decodeKV, hk, hv]
  rfl

end K2Graph.Kvstore
