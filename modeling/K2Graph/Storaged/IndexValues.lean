import K2Graph.Storaged.Rows

/-!
# Values in index keys

The bytes of an encoded number should be in the order of the numbers, and be decoded to the
number.  For integers this is so.  A negative `double` is encoded with its magnitude less
one, subtracted from the largest one, so the smallest negative number meets zero; and minus
zero, which is not less than zero, is encoded as if it were below all numbers.  Decoding asks
whether the bits are a negative number, but those of numbers that are close to zero are not a
number.

## Main results

* `ordered_and_decoded_iff` — when two numbers are in order and the first one is decoded.
-/

namespace K2Graph.Storaged

open List hiding lt_of_le_of_lt
open LittleEndian Kvstore
open Filter (VariantType Double)

/-! ### Decoding -/

variable (raw : Bytes)

/-- The number in eight bytes, most significant byte first. -/
def ofBigEndian : UInt64 := .ofNat (toNat (raw.take 8).reverse)

def decodeInt64 : Int64 := (ofBigEndian raw).toInt64 ^^^ Int64.minValue

/-- `decodeDouble`, which does the same to a negative number as `encodeDouble`. -/
def decodeDouble : Double := ⟨encodeBits ⟨ofBigEndian raw ^^^ 0x8000000000000000⟩⟩

/-! ### The order of doubles -/

variable (v : Double)

/-- Neither a number nor infinite. -/
def isNaN : Prop := 2 ^ 63 - 2 ^ 52 < v.bits.toNat % 2 ^ 63

/-- The place of a number among all numbers; both zeros are in the same place. -/
def rank : ℤ :=
  if v.bits.toNat < 2 ^ 63 then v.bits.toNat else 2 ^ 63 - v.bits.toNat

def plusZero : Double := ⟨0⟩

def minusZero : Double := ⟨0x8000000000000000⟩

/-- The bytes of two numbers are in the order of the numbers. -/
def Ordered (v w : Double) : Prop :=
  (encodeDouble v < encodeDouble w ↔ rank v < rank w) ∧
    (encodeDouble w < encodeDouble v ↔ rank w < rank v) ∧
    (rank v = rank w → encodeDouble v = encodeDouble w)

/-! ### Bytes -/

theorem bigEndian_lt_iff (hx : x < 256 ^ n) (hy : y < 256 ^ n) :
    bigEndian n x < bigEndian n y ↔ x < y := by
  constructor
  · intro hlt
    by_contra hle
    exact List.not_lt.mpr (bigEndian_le_bigEndian (Nat.le_of_not_lt hle) hx) hlt
  intro hlt
  refine (List.le_iff_lt_or_eq.mp (bigEndian_le_bigEndian hlt.le hy)).resolve_right fun heq => ?_
  have hnat := congrArg toNat (reverse_injective heq)
  rw [toNat_ofNat hx, toNat_ofNat hy] at hnat
  omega

theorem ofBigEndian_bigEndian (x : UInt64) : ofBigEndian (bigEndian 8 x.toNat) = x := by
  have hlen : (bigEndian 8 x.toNat).length = 8 := by rw [bigEndian, length_reverse, length_ofNat]
  rw [ofBigEndian, take_of_length_le hlen.le, bigEndian, reverse_reverse,
    toNat_ofNat x.toNat_lt, UInt64.ofNat_toNat]

/-- Inverting the highest bit. -/
theorem xor_two_pow (h : n < 2 ^ (k + 1)) : n ^^^ 2 ^ k = (2 ^ k + n) % 2 ^ (k + 1) := by
  refine Nat.eq_of_testBit_eq fun j => ?_
  rw [Nat.testBit_xor, Nat.testBit_mod_two_pow]
  rcases lt_trichotomy j k with hj | rfl | hj
  · rw [Nat.testBit_two_pow_add_gt hj]
    simp [hj.ne', Nat.lt_succ_of_lt hj]
  · rw [Nat.testBit_two_pow_add_eq]
    simp
  · rw [Nat.testBit_lt_two_pow (lt_of_lt_of_le h (Nat.pow_le_pow_right (by decide) hj))]
    simp [hj.ne, not_lt.mpr (Nat.succ_le_of_lt hj)]

theorem toNat_xor_signBit (x : UInt64) :
    (x ^^^ 0x8000000000000000).toNat = (2 ^ 63 + x.toNat) % 2 ^ 64 := by
  exact xor_two_pow x.toNat_lt

/-! ### Integers -/

theorem toNat_toUInt64_xor (v : Int64) :
    ((v ^^^ Int64.minValue).toUInt64.toNat : ℤ) = v.toInt + 2 ^ 63 := by
  have hxor : (v ^^^ Int64.minValue).toUInt64 = v.toUInt64 ^^^ 0x8000000000000000 := rfl
  have hint : v.toInt = (v.toUInt64.toNat : ℤ).bmod (2 ^ 64) := BitVec.toInt_eq_toNat_bmod _
  rw [hxor, toNat_xor_signBit, hint, Int.bmod]
  omega

theorem encodeInt64_lt_iff (a b : Int64) : encodeInt64 a < encodeInt64 b ↔ a < b := by
  rw [encodeInt64, encodeInt64, bigEndian_lt_iff (UInt64.toNat_lt _) (UInt64.toNat_lt _),
    Int64.lt_iff_toInt_lt]
  have ha := toNat_toUInt64_xor a
  have hb := toNat_toUInt64_xor b
  omega

theorem decodeInt64_encodeInt64 (v : Int64) : decodeInt64 (encodeInt64 v) = v := by
  rw [decodeInt64, encodeInt64, ofBigEndian_bigEndian, Int64.toInt64_toUInt64, Int64.xor_assoc,
    Int64.xor_self, Int64.xor_zero]

/-! ### Doubles -/

theorem isNegative_iff :
    isNegative v = true ↔ 2 ^ 63 < v.bits.toNat ∧ v.bits.toNat ≤ 2 ^ 64 - 2 ^ 52 := by
  rw [isNegative, decide_eq_true_iff]
  exact Iff.rfl

theorem toNat_encodeBits :
    (encodeBits v).toNat = if 2 ^ 63 < v.bits.toNat ∧ v.bits.toNat ≤ 2 ^ 64 - 2 ^ 52 then
      (2 ^ 64 + 2 ^ 63 + 1 - v.bits.toNat) % 2 ^ 64 else v.bits.toNat := by
  rw [encodeBits]
  by_cases hneg : isNegative v = true
  · have hbits : (-(Int64.maxValue + v.bits.toInt64)).toUInt64 =
        -(0x7FFFFFFFFFFFFFFF + v.bits) := rfl
    have hrange := (isNegative_iff v).mp hneg
    have hmax : (0x7FFFFFFFFFFFFFFF : UInt64).toNat = 2 ^ 63 - 1 := rfl
    have hsize : UInt64.size = 2 ^ 64 := rfl
    rw [if_pos hneg, if_pos hrange, hbits, UInt64.toNat_neg, UInt64.toNat_add, hsize]
    omega
  · rw [if_neg hneg, if_neg (fun h => hneg ((isNegative_iff v).mpr h))]

/-- The number whose bytes are the key. -/
def code : ℕ := (encodeBits v ^^^ 0x8000000000000000).toNat

theorem code_eq {v : Double} (h : ¬ isNaN v) :
    code v = if v.bits.toNat < 2 ^ 63 then 2 ^ 63 + v.bits.toNat
      else if v.bits.toNat = 2 ^ 63 then 0 else 2 ^ 64 + 1 - v.bits.toNat := by
  have hlt := v.bits.toNat_lt
  rw [isNaN] at h
  rw [code, toNat_xor_signBit, toNat_encodeBits]
  split_ifs <;> omega

theorem decodeDouble_encodeDouble_iff :
    decodeDouble (encodeDouble v) = v ↔
      ¬ (2 ^ 63 < v.bits.toNat ∧ v.bits.toNat ≤ 2 ^ 63 + 2 ^ 52) := by
  have hlt := v.bits.toNat_lt
  have hcode := toNat_xor_signBit (encodeBits v ^^^ 0x8000000000000000)
  have hfirst := toNat_xor_signBit (encodeBits v)
  have hbits := toNat_encodeBits v
  have hagain := toNat_encodeBits ⟨encodeBits v ^^^ 0x8000000000000000 ^^^ 0x8000000000000000⟩
  have heq : decodeDouble (encodeDouble v) = v ↔
      (encodeBits ⟨encodeBits v ^^^ 0x8000000000000000 ^^^ 0x8000000000000000⟩).toNat =
        v.bits.toNat := by
    rw [decodeDouble, encodeDouble, ofBigEndian_bigEndian, UInt64.toNat_inj]
    exact Double.mk.injEq .. ▸ Iff.rfl
  rw [heq]
  dsimp only at hagain
  split_ifs at hbits hagain <;> omega

theorem eq_of_bits {v : Double} : v = ⟨n⟩ ↔ v.bits.toNat = n.toNat := by
  rw [UInt64.toNat_inj]
  exact Double.mk.injEq .. ▸ Iff.rfl

/-- **When index values are in order and decoded.**  Integers always are.  The first `double`
is decoded unless it is negative and no further from zero than the smallest normal number; the
bytes of two are in order unless minus zero meets plus zero or a negative number, or plus zero
the largest negative one. -/
theorem ordered_and_decoded_iff (a b : Int64) (v w : Double) (hv : ¬ isNaN v) (hw : ¬ isNaN w) :
    ((encodeInt64 a < encodeInt64 b ↔ a < b) ∧ decodeInt64 (encodeInt64 a) = a ∧
        Ordered v w ∧ decodeDouble (encodeDouble v) = v) ↔
      (rank v < -2 ^ 52 ∨ 0 ≤ rank v) ∧
        (v = minusZero → w = minusZero ∨ 0 < rank w) ∧
        (w = minusZero → v = minusZero ∨ 0 < rank v) ∧ (v = plusZero → rank w ≠ -1) := by
  have hlt := v.bits.toNat_lt
  have hlex (v w : Double) : encodeDouble v < encodeDouble w ↔ code v < code w :=
    bigEndian_lt_iff (UInt64.toNat_lt _) (UInt64.toNat_lt _)
  have heq : encodeDouble v = encodeDouble w ↔ code v = code w := by
    constructor
    · intro h
      have hnat := congrArg toNat (reverse_injective h)
      rwa [toNat_ofNat (UInt64.toNat_lt _), toNat_ofNat (UInt64.toNat_lt _)] at hnat
    · exact fun h => congrArg (bigEndian 8) h
  have hzero : (0x8000000000000000 : UInt64).toNat = 2 ^ 63 := rfl
  have hzero' : (0 : UInt64).toNat = 0 := rfl
  rw [decodeDouble_encodeDouble_iff, Ordered, hlex, hlex, heq, code_eq hv, code_eq hw,
    and_iff_right (encodeInt64_lt_iff a b), and_iff_right (decodeInt64_encodeInt64 a),
    minusZero, plusZero, eq_of_bits, eq_of_bits, eq_of_bits, rank, rank]
  split_ifs <;> omega

/-- Minus two and one. -/
theorem ordered_and_decoded_minusTwo :
    Ordered ⟨0xC000000000000000⟩ ⟨0x3FF0000000000000⟩ ∧
      decodeDouble (encodeDouble ⟨0xC000000000000000⟩) = ⟨0xC000000000000000⟩ := by
  refine ((ordered_and_decoded_iff 0 0 ⟨0xC000000000000000⟩ ⟨0x3FF0000000000000⟩ ?_ ?_).mpr
    ?_).2.2
  · rw [isNaN]
    decide
  · rw [isNaN]
    decide
  · decide

/-- The largest negative number is encoded as zero is. -/
theorem not_ordered_zero : ¬ isNaN ⟨0x8000000000000001⟩ ∧ ¬ isNaN plusZero ∧
    ¬ Ordered ⟨0x8000000000000001⟩ plusZero := by
  refine ⟨by rw [isNaN]; decide, by rw [isNaN]; decide, fun h => ?_⟩
  have hlt := h.1.mpr (by decide)
  exact List.lt_irrefl _ hlt

/-! ### Reading a column -/

/-- `decodeVariant`; the other types are unknown to it. -/
def decodeVariant : SupportedType → Option VariantType
  | .bool => raw.head?.map fun b => .bool (b ≠ 0)
  | .int => some (.int (decodeInt64 raw))
  | .timestamp => some (.int (decodeInt64 raw))
  | .double => some (.double (decodeDouble raw))
  | .float => some (.double (decodeDouble raw))
  | .string => some (.string raw)
  | _ => none

/-- `subpiece`, which throws behind the end; a negative length stands for a very large one. -/
def subpiece (key : Bytes) (offset len : ℤ) : Option Bytes :=
  if 0 ≤ offset ∧ offset ≤ key.length then
    some (if len < 0 then key.drop offset.toNat else (key.drop offset.toNat).take len.toNat)
  else none

/-- The length of a column; that of a string stands at the end of the key. -/
def columnLen (tailLen : ℕ) (key : Bytes) (vCount : ℤ) : SupportedType → Option ℤ
  | .bool => some 1
  | .int => some 8
  | .timestamp => some 8
  | .float => some 8
  | .double => some 8
  | .string => readInt key (key.length - vCount * 4 - tailLen) 4
  | _ => some 0

/-- The loop of `getIndexVal`. -/
def getIndexVal (tailLen : ℕ) (key prop : Bytes) : List ColumnDef → ℤ → ℤ → ℤ → Option Bytes
  | [], offset, len, _ => subpiece key offset len
  | col :: cols, offset, _, vCount => do
      let len ← columnLen tailLen key vCount col.type
      let vCount := if col.type = .string then vCount - 1 else vCount
      if col.name = prop then subpiece key offset len
      else getIndexVal tailLen key prop cols (offset + len) len vCount

def decodeValue (tailLen : ℕ) (fields : List ColumnDef) (key prop : Bytes) :
    Option VariantType := do
  let col ← fields.find? fun col => col.name = prop
  let vColNum := (fields.filter fun col => col.type = .string).length
  let raw ← getIndexVal tailLen key prop fields 8 0 vColNum
  decodeVariant raw col.type

inductive Typed : SupportedType → VariantType → Prop
  | bool (v : Bool) : Typed .bool (.bool v)
  | int (v : Int64) : Typed .int (.int v)
  | timestamp (v : Int64) : Typed .timestamp (.int v)
  | double (v : Double) : Typed .double (.double v)
  | string (v : Bytes) : Typed .string (.string v)

/-- The columns of an index, with the values a row has for them. -/
structure IndexRow where
  columns : List (ColumnDef × VariantType)
  same : ∀ x ∈ columns, ∀ y ∈ columns, x.1.name = y.1.name → x = y
  typed : ∀ x ∈ columns, Typed x.1.type x.2

def IndexRow.fields (row : IndexRow) : List ColumnDef := row.columns.map Prod.fst

/-- What `collectIndexValues` makes of columns. -/
def indexValues (columns : List (ColumnDef × VariantType)) : IndexValues :=
  columns.map fun x => (x.1.type, encodeVariant x.2)

/-- A value that can be read from an index key. -/
def Covered : VariantType → Prop
  | .double v => ¬ (2 ^ 63 < v.bits.toNat ∧ v.bits.toNat ≤ 2 ^ 63 + 2 ^ 52)
  | .string v => v.length < 2 ^ 31
  | _ => True

section Columns

variable {head tail : Bytes} {before after : List (ColumnDef × VariantType)}
  {x : ColumnDef × VariantType} (columns : List (ColumnDef × VariantType))

def strings : ℕ :=
  (columns.filter fun x => x.1.type = .string).length

def valueBytes : Bytes :=
  columns.flatMap fun x => encodeVariant x.2

def lengthBytes : Bytes :=
  (columns.filter fun x => x.1.type = .string).flatMap fun x => ofInt 4 (encodeVariant x.2).length

theorem indexRaw_indexValues :
    indexRaw (indexValues columns) = valueBytes columns ++ lengthBytes columns := by
  rw [indexRaw, indexValues, flatMap_map, filter_map, flatMap_map]
  rfl

theorem length_lengthBytes :
    (lengthBytes columns).length = 4 * strings columns := by
  rw [lengthBytes, strings]
  simp [mul_comm]

/-- The length that is taken for a column. -/
def lenOf (x : ColumnDef × VariantType) : ℤ :=
  if x.1.type = .string then toInt (ofInt 4 (encodeVariant x.2).length)
  else (encodeVariant x.2).length

theorem columnLen_eq (hx : Typed x.1.type x.2) (htail : tail.length = tailLen)
    (hkey : key = head ++ (indexRaw (indexValues (before ++ x :: after)) ++ tail)) :
    columnLen tailLen key (strings (x :: after)) x.1.type = some (lenOf x) := by
  obtain ⟨⟨name, type⟩, v⟩ := x
  cases hx with
  | string s =>
    have hkey' : key = (head ++ valueBytes (before ++ (⟨name, .string⟩, .string s) :: after) ++
        lengthBytes before) ++ (ofInt 4 s.length ++ (lengthBytes after ++ tail)) := by
      rw [hkey, indexRaw_indexValues]
      simp [lengthBytes, encodeVariant]
    have hstrings : strings ((⟨name, .string⟩, .string s) :: after) = strings after + 1 := by
      simp [strings]
    show readInt key _ 4 = some (toInt (ofInt 4 s.length))
    rw [readInt, readAt_of_eq _ ⟨_, hkey'⟩ ?_ (length_ofInt 4 _).symm, Option.map_some]
    rw [hkey']
    simp only [length_append, length_ofInt, length_lengthBytes]
    omega
  | bool v => rfl
  | int v => rfl
  | timestamp v => rfl
  | double v => rfl

variable (before) in
/-- **The loop comes to a column**, if it goes over the columns before it as they are. -/
theorem getIndexVal_eq (htail : tail.length = tailLen)
    (hkey : key = head ++ (indexRaw (indexValues (before ++ (done ++ x :: after))) ++ tail))
    (hdone : ∀ y ∈ done, Typed y.1.type y.2 ∧ y.1.name ≠ x.1.name ∧
      lenOf y = (encodeVariant y.2).length)
    (hx : Typed x.1.type x.2) (len : ℤ) :
    getIndexVal tailLen key x.1.name ((done ++ x :: after).map Prod.fst)
        ((head ++ valueBytes before).length : ℕ) len (strings (done ++ x :: after)) =
      subpiece key ((head ++ valueBytes (before ++ done)).length : ℕ) (lenOf x) := by
  induction done generalizing before len with
  | nil =>
    rw [nil_append, map_cons, getIndexVal, columnLen_eq hx htail hkey, append_nil]
    exact if_pos rfl
  | cons y done ih =>
    rw [forall_mem_cons] at hdone
    obtain ⟨⟨hy, hne, hlen⟩, hdone⟩ := hdone
    rw [cons_append] at hkey
    have hkey' : key = head ++ (indexRaw (indexValues (before ++ [y] ++ (done ++ x :: after))) ++
        tail) := by
      rw [hkey, append_assoc, singleton_append]
    have hoffset : ((head ++ valueBytes before).length : ℤ) + lenOf y =
        ((head ++ valueBytes (before ++ [y])).length : ℕ) := by
      simp [hlen, valueBytes, add_assoc]
    have hcount : (if y.1.type = .string then (strings (y :: (done ++ x :: after)) : ℤ) - 1
        else strings (y :: (done ++ x :: after))) = strings (done ++ x :: after) := by
      by_cases hstring : y.1.type = .string <;> simp [strings, hstring]
    rw [cons_append, map_cons, getIndexVal, columnLen_eq hy htail hkey, Option.bind_eq_bind,
      Option.bind_some, if_neg hne, hoffset, hcount, ih (before ++ [y]) hkey' hdone, append_assoc,
      singleton_append]

/-- A column is taken as it is, unless it is a string that is too long. -/
theorem lenOf_eq (hx : Typed x.1.type x.2) (h : Covered x.2) :
    lenOf x = (encodeVariant x.2).length := by
  obtain ⟨⟨name, type⟩, v⟩ := x
  cases hx with
  | string s =>
    have hlen : s.length < 2 ^ 31 := h
    show toInt (ofInt 4 s.length) = s.length
    exact toInt_ofInt ⟨by omega, by omega⟩
  | _ => rfl

/-- **What is read from a column** is its value, if it is covered. -/
theorem decode_iff (hx : Typed x.1.type x.2) (hkey : key = pre ++ (encodeVariant x.2 ++ post))
    (hoffset : offset = pre.length) (hpost : post ≠ []) :
    (subpiece key offset (lenOf x)).bind (fun raw => decodeVariant raw x.1.type) = some x.2 ↔
      Covered x.2 := by
  have hsub (len : ℤ) : subpiece key offset len = some (if len < 0 then encodeVariant x.2 ++ post
      else (encodeVariant x.2 ++ post).take len.toNat) := by
    have hle : (0 : ℤ) ≤ offset ∧ (offset : ℤ) ≤ key.length := by
      rw [hkey, length_append]
      omega
    rw [subpiece, if_pos hle, hkey, hoffset, Int.toNat_natCast, drop_left]
  by_cases hlen : lenOf x = (encodeVariant x.2).length
  · rw [hsub, hlen, if_neg (by omega), Int.toNat_natCast, take_left, Option.bind_some]
    obtain ⟨⟨name, type⟩, v⟩ := x
    cases hx with
    | bool v => cases v <;> simp [decodeVariant, encodeVariant, Covered]
    | int v | timestamp v => simp [decodeVariant, encodeVariant, Covered, decodeInt64_encodeInt64]
    | double v =>
      rw [decodeVariant, encodeVariant, Covered, ← decodeDouble_encodeDouble_iff]
      simp
    | string s =>
      refine iff_of_true rfl ?_
      have hfits := fits_toInt (ofInt 4 s.length)
      have hself : toInt (ofInt 4 s.length) = s.length := hlen
      rw [length_ofInt, Fits] at hfits
      show s.length < 2 ^ 31
      omega
  · refine iff_of_false ?_ fun h => hlen (lenOf_eq hx h)
    obtain ⟨⟨name, type⟩, v⟩ := x
    cases hx with
    | string s =>
      rw [hsub]
      intro heq
      have hraw : (if lenOf (⟨name, .string⟩, .string s) < 0 then s ++ post
          else (s ++ post).take (lenOf (⟨name, .string⟩, .string s)).toNat) = s := by
        injection heq with heq
        injection heq
      have hlength := congrArg length hraw
      have hpos := length_pos_of_ne_nil hpost
      have hne : lenOf (⟨name, .string⟩, .string s) ≠ s.length := hlen
      split_ifs at hlength with hneg
      · rw [length_append] at hlength
        omega
      · rw [length_take, length_append] at hlength
        omega
    | _ => exact absurd rfl hlen

/-- A column is read from a key iff it is covered, if those before it are. -/
theorem decodeValue_iff (row : IndexRow) (hhead : head.length = 8) (htail : tail.length = tailLen)
    (hne : tail ≠ []) (hkey : key = head ++ (indexRaw (indexValues row.columns) ++ tail))
    (hrow : row.columns = done ++ x :: after) (hx : x ∉ done) (hdone : ∀ y ∈ done, Covered y.2) :
    decodeValue tailLen row.fields key x.1.name = some x.2 ↔ Covered x.2 := by
  have htyped := row.typed
  have hsame := row.same
  rw [hrow, forall_mem_append, forall_mem_cons] at htyped
  have hbefore (y : ColumnDef × VariantType) (hy : y ∈ done) : y.1.name ≠ x.1.name := fun h => by
    have heq : y = x := hsame y (by simp [hrow, hy]) x (by simp [hrow]) h
    exact hx (heq ▸ hy)
  have hfind : row.fields.find? (fun col => col.name = x.1.name) = some x.1 := by
    have hnone : (done.map Prod.fst).find? (fun col => col.name = x.1.name) = none := by
      rw [find?_eq_none, forall_mem_map]
      exact fun y hy => by simpa using hbefore y hy
    rw [IndexRow.fields, hrow, map_append, find?_append, hnone, Option.none_or, map_cons,
      find?_cons_of_pos (by simp)]
  have hcount : (row.fields.filter fun col => col.type = .string).length =
      strings row.columns := by
    rw [IndexRow.fields, filter_map, length_map]
    rfl
  rw [hrow] at hkey
  have hval := getIndexVal_eq [] htail hkey (fun y hy =>
    ⟨htyped.1 y hy, hbefore y hy, lenOf_eq (htyped.1 y hy) (hdone y hy)⟩) htyped.2.1 0
  have hstart : ((head ++ valueBytes []).length : ℤ) = 8 := by
    simp [valueBytes, hhead]
  have hkey' : key = (head ++ valueBytes done) ++ (encodeVariant x.2 ++
      (valueBytes after ++ lengthBytes (done ++ x :: after) ++ tail)) := by
    rw [hkey, indexRaw_indexValues]
    simp [valueBytes]
  rw [hstart] at hval
  rw [decodeValue, hfind, hcount, IndexRow.fields, hrow]
  simp only [Option.bind_eq_bind]
  rw [hval, ← decode_iff htyped.2.1 hkey' rfl (append_ne_nil_of_right_ne_nil _ hne)]
  rfl

/-- All columns are read from a key iff all of them are covered. -/
theorem forall_decodeValue_iff (row : IndexRow) (hhead : head.length = 8)
    (htail : tail.length = tailLen) (hne : tail ≠ []) :
    (∀ x ∈ row.columns, decodeValue tailLen row.fields
        (head ++ (indexRaw (indexValues row.columns) ++ tail)) x.1.name = some x.2) ↔
      ∀ x ∈ row.columns, Covered x.2 := by
  constructor
  · intro hall
    -- the columns are covered up to any of them
    have hprefix (done : List (ColumnDef × VariantType)) :
        ∀ after, row.columns = done ++ after → ∀ y ∈ done, Covered y.2 := by
      induction done using reverseRecOn with
      | nil => simp
      | append_singleton done x ih =>
        intro after hrow
        rw [append_assoc] at hrow
        have hdone := ih _ hrow
        rw [forall_mem_append, forall_mem_singleton]
        refine ⟨hdone, ?_⟩
        by_cases hx : x ∈ done
        · exact hdone x hx
        · exact (decodeValue_iff row hhead htail hne rfl hrow hx hdone).mp
            (hall x (by simp [hrow]))
    exact hprefix row.columns [] (append_nil _).symm
  · intro hall x hx
    obtain ⟨done, after, hrow, hnew⟩ := eq_append_cons_of_mem hx
    exact (decodeValue_iff row hhead htail hne rfl hrow hnew fun y hy =>
      hall y (by simp [hrow, hy])).mpr (hall x hx)

end Columns

/-- **Covering reads**: every column of a row is read from the index keys of a vertex or an edge
iff no string has 2 ^ 31 bytes and no double is a negative number next to zero. -/
theorem covered_iff (part indexId : Int32) (vId : Int64) (edge : EdgeKey) (row : IndexRow) :
    (∀ x ∈ row.columns,
      decodeValue 8 row.fields (vertexIndexKey part indexId vId (indexValues row.columns))
        x.1.name = some x.2 ∧
      decodeValue 24 row.fields (edgeIndexKey part indexId edge (indexValues row.columns))
        x.1.name = some x.2) ↔
      ∀ x ∈ row.columns, Covered x.2 := by
  have hhead : (indexPrefix part indexId).length = 8 := by
    simp [indexPrefix]
  have hvertex := forall_decodeValue_iff row hhead (length_ofInt 8 vId.toInt)
    (ne_nil_of_length_pos (by simp))
  have htail : (ofInt 8 edge.src.toInt ++ ofInt 8 edge.ranking.toInt ++
      ofInt 8 edge.dst.toInt).length = 24 := by
    simp
  have hedge := forall_decodeValue_iff row hhead htail (ne_nil_of_length_pos (by simp))
  rw [forall₂_and, vertexIndexKey, edgeIndexKey, hvertex, hedge, and_self]

/-- A row with the largest double under zero. -/
def tinyRow : IndexRow where
  columns := [(⟨[100], .double⟩, .double ⟨0x8000000000000001⟩)]
  same := by simp
  typed := by simpa using Typed.double _

/-- It is read back as zero. -/
theorem not_covered_tinyRow :
    (⟨[100], .double⟩, .double ⟨0x8000000000000001⟩) ∈ tinyRow.columns ∧
      decodeValue 8 tinyRow.fields (vertexIndexKey 1 1 1 (indexValues tinyRow.columns)) [100] =
        some (.double plusZero) := by
  exact ⟨mem_singleton_self _, by decide⟩

end K2Graph.Storaged
