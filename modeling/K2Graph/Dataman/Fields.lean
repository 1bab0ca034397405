import K2Graph.Dataman.RowReader

/-!
# Reading the fields of a row

The bytes of a value are read with the getter of its type, wherever they stand in the data.
A reader that knows where the blocks of fields begin finds every field, and knows nothing
wrong about the others afterwards.  So the fields can be read in any order and however
often.

## Main results

* `Encoded.getAt`, `Encoded.fieldEnd` — the bytes of a value are read.
* `Tracks.skipToField`, `Tracks.get` — a field is found and read.
* `Tracks.run` — any sequence of reads.
-/

namespace K2Graph.Dataman

open List hiding le_refl le_trans not_lt
open Option
open LittleEndian

/-! ### What a field holds -/

variable (casts : FloatCasts)

/-- A value as a field of the type holds it, if it goes with the type. -/
def stored : Value → SupportedType → Option Value
  | .bool v, .bool => some (.bool v)
  | .float v, .float => some (.float v)
  | .float v, .double => some (.double (casts.toDouble v))
  | .double v, .float => some (.float (casts.toFloat v))
  | .double v, .double => some (.double v)
  | .string v, .string => some (.string v)
  | .int v, .int => some (.int v)
  | .int v, .timestamp => some (.int v)
  | .int v, .vid => some (.int v)
  | _, _ => none

def zero : SupportedType → Value
  | .bool => .bool false
  | .int => .int 0
  | .timestamp => .int 0
  | .vid => .int 0
  | .float => .float 0
  | .double => .double 0
  | .string => .string []

/-- A field: the value that was written, if it was not skipped. -/
abbrev Cell := Option Value

/-- The value that a field holds. -/
def held : Cell → SupportedType → Option Value
  | some v, type => stored casts v type
  | none, type => some (zero type)

def Schema.typeAt (schema : Schema) (i : ℕ) : SupportedType := (schema.fieldType i).getD .bool

/-- What stands in the row for a field. -/
def cellBytes : Cell → SupportedType → List UInt8
  | some v, type => fieldBytes casts v type
  | none, type => defaultBytes type

/-- What stands in the row for the fields. -/
def chunks (schema : Schema) (cells : List Cell) : List (List UInt8) :=
  cells.mapIdx fun i cell => cellBytes casts cell (schema.typeAt i)

def offsetOf (chunks : List (List UInt8)) (i : ℕ) : ℕ := (chunks.take i).flatten.length

/-- A string whose length, with the bytes that hold it, is an `int32_t` that is not
negative. -/
def ShortString (s : List UInt8) : Prop :=
  s.length < 2 ^ 63 ∧ 0 ≤ int32 ((writeInt (.ofNat s.length)).length + s.length)

/-! ### Reading a field -/

inductive Encoded : SupportedType → Value → List UInt8 → Prop
  | bool (v : Bool) : Encoded .bool (.bool v) [if v then 1 else 0]
  | int (v : Int64) : Encoded .int (.int v) (writeInt v.toUInt64)
  | timestamp (v : Int64) : Encoded .timestamp (.int v) (writeInt v.toUInt64)
  | vid (v : Int64) : Encoded .vid (.int v) (ofNat 8 v.toUInt64.toNat)
  | float (v : UInt32) : Encoded .float (.float v) (ofNat 4 v.toNat)
  | double (v : UInt64) : Encoded .double (.double v) (ofNat 8 v.toNat)
  | string (v : List UInt8) (h : ShortString v) :
      Encoded .string (.string v) (writeInt (.ofNat v.length) ++ v)

theorem encoded_cellBytes {casts : FloatCasts} (h : held casts cell type = some v)
    (hstring : ∀ s, cell = some (.string s) → type = .string → ShortString s) :
    Encoded type v (cellBytes casts cell type) := by
  cases cell with
  | none =>
    cases h
    cases type with
    | bool => exact .bool false
    | int => exact .int 0
    | timestamp => exact .timestamp 0
    | vid => exact .vid 0
    | float => exact .float 0
    | double => exact .double 0
    | string => exact .string [] ⟨by decide, by decide⟩
  | some value =>
    change stored casts value type = some v at h
    cases value <;> cases type <;> simp only [stored, reduceCtorEq, some.injEq] at h <;>
      subst h
    · exact .bool _
    · exact .int _
    · exact .vid _
    · exact .timestamp _
    · exact .float _
    · exact .double _
    · exact .float _
    · exact .double _
    · exact .string _ (hstring _ rfl rfl)

section Reading

variable {casts} {r : RowReader}

theorem dataFrom_of_append (h : r.data = pre ++ (chunk ++ post)) :
    r.dataFrom pre.length = some (chunk ++ post) := by
  have hle : (0 : ℤ) ≤ pre.length ∧ (pre.length : ℤ) ≤ r.data.length := by
    rw [h, length_append]
    omega
  rw [RowReader.dataFrom, if_pos hle, h, Int.toNat_natCast, drop_left]

theorem readInteger_of_append (h : r.data = pre ++ (writeInt x ++ post)) :
    r.readInteger pre.length = some (x.toInt64, ((writeInt x).length : ℤ)) := by
  have hlt : x.toNat < 128 ^ (9 + 1) := lt_of_lt_of_le x.toNat_lt (by decide)
  unfold RowReader.readInteger
  simp only [dataFrom_of_append h, writeInt, bind_eq_bind, bind_some, Varint.decode_encode hlt,
    Option.pure_def, UInt64.ofNat_toNat]

theorem readFixed_of_append (hx : x < 256 ^ width) (h : r.data = pre ++ (ofNat width x ++ post)) :
    r.readFixed width pre.length = some (.ok x) := by
  have hle : ¬ (r.data.length : ℤ) < pre.length + width := by
    rw [h, length_append, length_append, length_ofNat]
    omega
  rw [RowReader.readFixed, if_neg hle, dataFrom_of_append h, map_some,
    take_left' (length_ofNat width x), toNat_ofNat hx]

theorem toInt_ofNat_length (h : n < 2 ^ 63) : (UInt64.ofNat n).toInt64.toInt = n := by
  have hnat : (UInt64.ofNat n).toNat = n := by
    rw [UInt64.toNat_ofNat']
    omega
  show (UInt64.ofNat n).toBitVec.toInt = n
  rw [BitVec.toInt_eq_toNat_bmod, UInt64.toNat_toBitVec, hnat,
    Int.bmod_eq_of_le (by omega) (by omega)]

theorem readString_of_append (hs : ShortString s)
    (h : r.data = pre ++ ((writeInt (.ofNat s.length) ++ s) ++ post)) : r.readString pre.length =
      some (int32 ((writeInt (.ofNat s.length)).length + s.length), s) := by
  have hassoc : r.data = pre ++ (writeInt (.ofNat s.length) ++ (s ++ post)) := by
    rw [h, append_assoc]
  have hint := readInteger_of_append hassoc
  have hlen := toInt_ofNat_length hs.1
  have hrest : r.dataFrom (pre.length + (writeInt (.ofNat s.length)).length) =
    some (s ++ post) := by
    rw [← Int.natCast_add, ← length_append]
    exact dataFrom_of_append (by rw [h, append_assoc, append_assoc])
  have hle :
    ¬ (r.data.length : ℤ) < pre.length + (writeInt (.ofNat s.length)).length + s.length := by
    rw [h]
    simp only [length_append]
    omega
  have hneg : ¬ (UInt64.ofNat s.length).toInt64 < 0 := by
    rw [Int64.lt_iff_toInt_lt, hlen]
    show ¬ (s.length : ℤ) < 0
    omega
  unfold RowReader.readString
  simp only [hint, hrest, hlen, hle, hneg, bind_eq_bind, bind_some, if_false,
    Option.pure_def, Int.toNat_natCast, take_left]

/-- **The bytes of a value are read.** -/
theorem Encoded.getAt (h : Encoded type v chunk) (hdata : r.data = pre ++ (chunk ++ post)) :
    r.getAt casts pre.length type type.getter = some (.ok v) := by
  cases h with
  | bool v =>
    show r.getBool pre.length .bool = _
    rw [RowReader.getBool, dataFrom_of_append hdata]
    cases v <;> rfl
  | int v =>
    show r.getInt pre.length .int = _
    rw [RowReader.getInt, readInteger_of_append hdata, map_some, Int64.toInt64_toUInt64]
  | timestamp v =>
    show r.getInt pre.length .timestamp = _
    rw [RowReader.getInt, readInteger_of_append hdata, map_some, Int64.toInt64_toUInt64]
  | vid v =>
    show r.getVid pre.length .vid = _
    rw [RowReader.getVid, if_pos (.inr rfl), RowReader.getInt64,
      readFixed_of_append v.toUInt64.toNat_lt hdata, map_some, Except.map,
      UInt64.ofNat_toNat, Int64.toInt64_toUInt64]
  | float v =>
    show r.getFloat casts pre.length .float = _
    rw [RowReader.getFloat, readFixed_of_append v.toNat_lt hdata, map_some, Except.map,
      UInt32.ofNat_toNat]
  | double v =>
    show r.getDouble casts pre.length .double = _
    rw [RowReader.getDouble, readFixed_of_append v.toNat_lt hdata, map_some, Except.map,
      UInt64.ofNat_toNat]
  | string v hs =>
    show r.getString pre.length .string = _
    rw [RowReader.getString, readString_of_append hs hdata, map_some, if_neg (not_lt.mpr hs.2)]

attribute [simp] RowReader.getAt RowReader.getBool RowReader.getInt RowReader.getInt64
  RowReader.getFloat RowReader.getDouble RowReader.getString RowReader.getVid

theorem Encoded.isSome_getAt (casts : FloatCasts) (h : Encoded type v chunk)
    (hdata : r.data = pre ++ (chunk ++ post)) (getter : Getter) :
    (r.getAt casts pre.length type getter).isSome = true := by
  -- a getter reads as the type of the field tells, or returns an error at once
  cases h with
  | bool v => cases getter <;> simp [dataFrom_of_append hdata]
  | int v | timestamp v => cases getter <;> simp [readInteger_of_append hdata]
  | vid v => cases getter <;> simp [readFixed_of_append v.toUInt64.toNat_lt hdata]
  | float v | double v => cases getter <;> simp [readFixed_of_append v.toNat_lt hdata]
  | string v hs => cases getter <;> simp [readString_of_append hs hdata]

theorem Encoded.fieldEnd (h : Encoded type v chunk) (hdata : r.data = pre ++ (chunk ++ post)) :
    r.fieldEnd pre.length type = some ((pre.length : ℤ) + chunk.length) := by
  cases h with
  | bool v => rfl
  | int v | timestamp v => rw [RowReader.fieldEnd, readInteger_of_append hdata, map_some]
  | vid v | float v | double v => rw [RowReader.fieldEnd]; rfl
  | string v hs =>
    have hassoc : r.data = pre ++ (writeInt (.ofNat v.length) ++ (v ++ post)) := by
      rw [hdata, append_assoc]
    rw [RowReader.fieldEnd, readInteger_of_append hassoc, map_some, toInt_ofNat_length hs.1,
      length_append, Int.natCast_add, add_assoc]

end Reading

/-! ### Finding a field -/

/-- The reader knows nothing wrong about where the fields are. -/
structure Tracks (schema : Schema) (chunks : List (List UInt8)) (r : RowReader) : Prop where
  schema_eq : r.schema = schema
  data : r.data = chunks.flatten
  known : ∀ j ≤ schema.numFields, 0 ≤ r.offsets j → r.offsets j = offsetOf chunks j
  ends : r.offsets schema.numFields = offsetOf chunks schema.numFields
  starts : ∀ b, 16 * b ≤ schema.numFields → r.offsets (16 * b) = offsetOf chunks (16 * b)
  visited : ∀ b j, j ≤ r.visited b → 16 * b + j ≤ schema.numFields →
    r.offsets (16 * b + j) = offsetOf chunks (16 * b + j)

/-- The fields of a row with their bytes. -/
structure Row (schema : Schema) (values : List Value) (chunks : List (List UInt8)) : Prop where
  length_values : values.length = schema.numFields
  length_chunks : chunks.length = schema.numFields
  encoded : ∀ i v chunk, values[i]? = some v → chunks[i]? = some chunk →
    Encoded (schema.typeAt i) v chunk

variable {chunks : List (List UInt8)}

theorem offsetOf_succ (h : chunks[i]? = some chunk) :
    offsetOf chunks (i + 1) = offsetOf chunks i + chunk.length := by
  rw [offsetOf, offsetOf, take_add_one, h]
  simp

theorem flatten_eq_of_getElem? (h : chunks[i]? = some chunk) :
    chunks.flatten = (chunks.take i).flatten ++ (chunk ++ (chunks.drop (i + 1)).flatten) := by
  obtain ⟨hi, rfl⟩ := List.getElem?_eq_some_iff.mp h
  rw [← flatten_cons, ← flatten_append, cons_getElem_drop_succ, take_append_drop]

theorem offsetOf_mono (chunks : List (List UInt8)) (h : i ≤ j) :
    offsetOf chunks i ≤ offsetOf chunks j := by
  induction h with
  | refl => exact le_refl _
  | @step j _ ih =>
    refine le_trans ih ?_
    cases hchunk : chunks[j]? with
    | some chunk =>
      rw [offsetOf_succ hchunk]
      exact Nat.le_add_right _ _
    | none => rw [offsetOf, offsetOf, take_add_one, hchunk, toList_none, append_nil]

theorem offsetOf_of_length_le (h : chunks.length ≤ i) :
    offsetOf chunks i = chunks.flatten.length := by
  rw [offsetOf, take_of_length_le h]

section Finding

variable {casts} {schema : Schema} {r : RowReader}

theorem Schema.fieldType_eq_some (hi : i < schema.numFields) :
    schema.fieldType i = some (schema.typeAt i) := by
  have hfield : schema.fields[i]? = some schema.fields[i] := getElem?_eq_getElem hi
  rw [typeAt, fieldType, hfield]
  rfl

theorem Row.exists_chunk (hrow : Row schema values chunks) (hi : i < schema.numFields) :
    ∃ v chunk, values[i]? = some v ∧ chunks[i]? = some chunk ∧
      Encoded (schema.typeAt i) v chunk := by
  have hlenv : i < values.length := by rw [hrow.length_values]; exact hi
  have hlenc : i < chunks.length := by rw [hrow.length_chunks]; exact hi
  have hv := getElem?_eq_getElem hlenv
  have hc := getElem?_eq_getElem hlenc
  exact ⟨_, _, hv, hc, hrow.encoded i _ _ hv hc⟩

theorem Tracks.note (h : Tracks schema chunks r) (hne : i ≠ schema.numFields) (hmod : i % 16 ≠ 0)
    (hblock : ∀ j, 16 * (i / 16) ≤ j → j < i → r.offsets j = offsetOf chunks j) :
    Tracks schema chunks (r.note i (offsetOf chunks i)) where
  schema_eq := h.schema_eq
  data := h.data
  known := by
    intro j hj hpos
    simp only [RowReader.note] at hpos ⊢
    by_cases hji : j = i
    · rw [hji, Function.update_self]
    · rw [Function.update_of_ne hji] at hpos ⊢
      exact h.known j hj hpos
  ends := by
    simp only [RowReader.note]
    rw [Function.update_of_ne (Ne.symm hne)]
    exact h.ends
  starts := by
    intro b hb
    have hbi : 16 * b ≠ i := by omega
    simp only [RowReader.note]
    rw [Function.update_of_ne hbi]
    exact h.starts b hb
  visited := by
    intro b j hj hb
    simp only [RowReader.note] at hj ⊢
    by_cases hji : 16 * b + j = i
    · rw [hji, Function.update_self]
    rw [Function.update_of_ne hji]
    by_cases hbase : b = i / 16
    · subst hbase
      rw [Function.update_self] at hj
      exact hblock _ (by omega) (by omega)
    · rw [Function.update_of_ne hbase] at hj
      exact h.visited b j hj hb

theorem Tracks.skipToNext (h : Tracks schema chunks r) (hrow : Row schema values chunks)
    (hi : i < schema.numFields)
    (hblock : ∀ j, 16 * (i / 16) ≤ j → j ≤ i → r.offsets j = offsetOf chunks j) :
    ∃ r', r.skipToNext i (offsetOf chunks i) = some (↑(offsetOf chunks (i + 1)), r') ∧
      Tracks schema chunks r' ∧
      ∀ j, 16 * (i / 16) ≤ j → j ≤ i + 1 → r'.offsets j = offsetOf chunks j := by
  obtain ⟨v, chunk, -, hchunk, hencoded⟩ := hrow.exists_chunk hi
  have hdata : r.data =
      (chunks.take i).flatten ++ (chunk ++ (chunks.drop (i + 1)).flatten) := by
    rw [h.data, flatten_eq_of_getElem? hchunk]
  have hend :
    r.fieldEnd (offsetOf chunks i) (schema.typeAt i) = some ↑(offsetOf chunks (i + 1)) := by
    rw [offsetOf_succ hchunk]
    exact hencoded.fieldEnd hdata
  rw [RowReader.skipToNext, h.schema_eq, Schema.fieldType_eq_some hi]
  by_cases hknown : 0 ≤ r.offsets (i + 1)
  · have hoffset := h.known (i + 1) hi hknown
    refine ⟨r, ?_, h, fun j hj hji => ?_⟩
    · simp only [if_pos hknown]
      rw [hoffset]
    · rcases Nat.le_succ_iff.mp hji with hle | rfl
      · exact hblock j hj hle
      · exact hoffset
  have hlen : ¬ (r.data.length : ℤ) < ↑(offsetOf chunks (i + 1)) := by
    have hmono := offsetOf_mono chunks (Nat.succ_le_of_lt hi)
    rw [offsetOf_of_length_le hrow.length_chunks.le] at hmono
    rw [h.data, not_lt]
    exact_mod_cast hmono
  simp only [if_neg hknown, hend, if_neg hlen]
  -- an offset that was not known is that of no block and not the end
  have hne : i + 1 ≠ schema.numFields := by
    intro heq
    rw [heq, h.ends] at hknown
    exact hknown (Int.natCast_nonneg _)
  have hmod : (i + 1) % 16 ≠ 0 := by
    intro hmod
    have hoffset := h.starts ((i + 1) / 16) (by omega)
    rw [show 16 * ((i + 1) / 16) = i + 1 by omega] at hoffset
    rw [hoffset] at hknown
    exact hknown (Int.natCast_nonneg _)
  refine ⟨_, rfl, h.note hne hmod fun j hj hji => hblock j (by omega) (by omega), ?_⟩
  intro j hj hji
  simp only [RowReader.note]
  rcases Nat.le_succ_iff.mp hji with hle | rfl
  · have hji : j ≠ i + 1 := by omega
    rw [Function.update_of_ne hji]
    exact hblock j hj hle
  · rw [Function.update_self]

theorem Tracks.skipFields (hrow : Row schema values chunks) (count : ℕ) (h : Tracks schema chunks r)
    (hb : i / 16 = b) (hcount : i + count < schema.numFields) (hend : (i + count) / 16 = b)
    (hblock : ∀ j, 16 * b ≤ j → j ≤ i → r.offsets j = offsetOf chunks j) :
    ∃ r', r.skipFields count i (offsetOf chunks i) = some (↑(offsetOf chunks (i + count)), r') ∧
      Tracks schema chunks r' := by
  induction count generalizing r i with
  | zero => exact ⟨r, rfl, h⟩
  | succ count ih =>
    have hi : i < schema.numFields := by omega
    obtain ⟨r', hnext, htracks, hblock'⟩ := h.skipToNext hrow hi (by rw [hb]; exact hblock)
    have hsum : i + (count + 1) = i + 1 + count := by omega
    rw [RowReader.skipFields, hnext, hsum]
    exact ih htracks (by omega) (by omega) (by omega) fun j hj hji => hblock' j (by omega) hji

theorem Tracks.skipToField (h : Tracks schema chunks r) (hrow : Row schema values chunks)
    (hi : i < schema.numFields) :
    ∃ r', r.skipToField i = some (↑(offsetOf chunks i), r') ∧ Tracks schema chunks r' := by
  have hle : ¬ r.schema.numFields ≤ i := by
    rw [h.schema_eq]
    omega
  rw [RowReader.skipToField]
  simp only
  have hblock (j : ℕ) (hj : 16 * (i / 16) ≤ j) (hji : j ≤ i / 16 * 16 + r.visited (i / 16))
      (hn : j ≤ schema.numFields) : r.offsets j = offsetOf chunks j := by
    have hvisited := h.visited (i / 16) (j - 16 * (i / 16)) (by omega) (by omega)
    rwa [Nat.add_sub_cancel' hj] at hvisited
  split_ifs with hvisited
  · exact ⟨r, by rw [hblock i (by omega) hvisited (by omega)], h⟩
  have hcount : i / 16 * 16 + r.visited (i / 16) + (i - (i / 16 * 16 + r.visited (i / 16))) =
    i := by
    omega
  rw [hblock (i / 16 * 16 + r.visited (i / 16)) (by omega) (le_refl _) (by omega)]
  have hfound := h.skipFields hrow (i := i / 16 * 16 + r.visited (i / 16))
    (i - (i / 16 * 16 + r.visited (i / 16))) (by omega) (by omega) (by omega)
    fun j hj hji => hblock j hj hji (by omega)
  rwa [hcount] at hfound

/-- **A field is read**, with the getter of its type. -/
theorem Tracks.get (h : Tracks schema chunks r) (hrow : Row schema values chunks)
    (hi : i < schema.numFields) (hv : values[i]? = some v) :
    ∃ r', r.get casts (schema.typeAt i).getter i = some (.ok v, r') ∧ Tracks schema chunks r' := by
  obtain ⟨v', chunk, hv', hchunk, hencoded⟩ := hrow.exists_chunk hi
  obtain rfl : v' = v := some.inj (hv'.symm.trans hv)
  obtain ⟨r', hfound, htracks⟩ := h.skipToField hrow hi
  have hpos : ¬ ((offsetOf chunks i : ℕ) : ℤ) < 0 := by omega
  refine ⟨r', ?_, htracks⟩
  rw [RowReader.get, hfound]
  simp only [if_neg hpos, htracks.schema_eq, Schema.fieldType_eq_some hi]
  have hdata : r'.data =
      (chunks.take i).flatten ++ (chunk ++ (chunks.drop (i + 1)).flatten) := by
    rw [htracks.data, flatten_eq_of_getElem? hchunk]
  have hread : r'.getAt casts (offsetOf chunks i) (schema.typeAt i) (schema.typeAt i).getter =
      some (.ok v') := hencoded.getAt hdata
  rw [hread, map_some]

theorem getAt_eq_of_data {r' : RowReader} (h : r.data = r'.data) (offset : ℤ)
    (type : SupportedType) (getter : Getter) :
    r.getAt casts offset type getter = r'.getAt casts offset type getter := by
  obtain ⟨_, data, _, _⟩ := r
  obtain ⟨_, data', _, _⟩ := r'
  obtain rfl : data = data' := h
  cases getter <;> cases type <;> rfl

variable (casts : FloatCasts)

/-- **A field is read** with any getter: what it finds is the same for every reader that
knows nothing wrong, and such a reader is left. -/
theorem Row.exists_get (hrow : Row schema values chunks) (getter : Getter)
    (hi : i < schema.numFields) : ∃ result, ∀ r, Tracks schema chunks r →
      r.getAt casts (offsetOf chunks i) (schema.typeAt i) getter = some result ∧
        ∃ r', r.get casts getter i = some (result, r') ∧ Tracks schema chunks r' := by
  obtain ⟨v, chunk, -, hchunk, hencoded⟩ := hrow.exists_chunk hi
  obtain ⟨result, hresult⟩ := isSome_iff_exists.mp (hencoded.isSome_getAt casts
    (r := ⟨schema, chunks.flatten, fun _ => 0, fun _ => 0⟩) (flatten_eq_of_getElem? hchunk) getter)
  have hread (r : RowReader) (h : Tracks schema chunks r) :
      r.getAt casts (offsetOf chunks i) (schema.typeAt i) getter = some result :=
    (getAt_eq_of_data h.data _ _ _).trans hresult
  refine ⟨result, fun r h => ⟨hread r h, ?_⟩⟩
  obtain ⟨r', hfound, htracks⟩ := h.skipToField hrow hi
  have hpos : ¬ ((offsetOf chunks i : ℕ) : ℤ) < 0 := by omega
  refine ⟨r', ?_, htracks⟩
  rw [RowReader.get, hfound]
  simp only [if_neg hpos, htracks.schema_eq, Schema.fieldType_eq_some hi, hread r' htracks,
    map_some]

theorem Tracks.get_of_le (h : Tracks schema chunks r) (getter : Getter)
    (hi : schema.numFields ≤ i) : r.get casts getter i = some (.error indexOutOfRange, r) := by
  rw [RowReader.get, RowReader.skipToField, if_pos (by rw [h.schema_eq]; exact hi)]
  rfl

/-- A read, with any getter and of any field, leaves a reader that knows nothing wrong, and
its result does not depend on the reader. -/
theorem Row.exists_read (hrow : Row schema values chunks) (access : Access) :
    ∃ result, ∀ r, Tracks schema chunks r →
      ∃ r', r.read casts access = some (result, r') ∧ Tracks schema chunks r' := by
  have hindex (getter : Getter) (i : ℕ) : ∃ result, ∀ r, Tracks schema chunks r →
      ∃ r', r.get casts getter i = some (result, r') ∧ Tracks schema chunks r' := by
    by_cases hi : i < schema.numFields
    · obtain ⟨result, hget⟩ := hrow.exists_get casts getter hi
      exact ⟨result, fun r h => (hget r h).2⟩
    · exact ⟨_, fun r h => ⟨r, h.get_of_le casts getter (Nat.le_of_not_lt hi), h⟩⟩
  cases access with
  | index getter i => exact hindex getter i
  | name getter name =>
    cases hname : schema.fieldIndex name with
    | none =>
      refine ⟨.error nameNotFound, fun r h => ⟨r, ?_, h⟩⟩
      rw [RowReader.read, RowReader.getByName, h.schema_eq, hname]
    | some i =>
      obtain ⟨result, hget⟩ := hindex getter i
      refine ⟨result, fun r h => ?_⟩
      rw [RowReader.read, RowReader.getByName, h.schema_eq, hname]
      exact hget r h

theorem Tracks.run (h : Tracks schema chunks r)
    (hrow : Row schema values chunks) (accesses : List Access) :
    ∃ r', r.run casts accesses = some r' ∧ Tracks schema chunks r' := by
  induction accesses generalizing r with
  | nil => exact ⟨r, rfl, h⟩
  | cons access accesses ih =>
    obtain ⟨result, hread⟩ := hrow.exists_read casts access
    obtain ⟨r', haccess, htracks⟩ := hread r h
    obtain ⟨r'', hrun, htracks'⟩ := ih htracks
    refine ⟨r'', ?_, htracks'⟩
    rw [RowReader.run, foldlM_cons, haccess]
    exact hrun

end Finding

end K2Graph.Dataman
