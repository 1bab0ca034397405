import K2Graph.Dataman.RoundTrip

/-!
# Row sets

`RowSetWriter` puts the length of every row before it.  For a row that comes in a `RowWriter`
the length is what `size` tells, before `encodeTo` fills up the fields that have not been
written, so it is too short if there are such fields.  `RowSetReader` then takes a part of the
row for the row, and the rest of it for a length and more rows.  A length may also be negative,
so that the iterator stays where it is or goes back.

## Main results

* `yields_iff` — the rows are read back when all fields have been written.
* `iterates_of_advances` — the iteration over any bytes ends when every length leads on.
-/

namespace K2Graph.Dataman

open List hiding le_refl lt_of_le_of_lt lt_trans not_lt
open LittleEndian

/-! ### Writing -/

variable (schema : Schema) (w : RowWriter)

/-- `RowWriter::size`. -/
def RowWriter.size : ℕ :=
  w.cord.length + calcOccupiedBytes w.cord.length * w.blockOffsets.length +
    (if 0 < schema.version then calcOccupiedBytes schema.version.toUInt64.toNat else 0) + 1

/-- What is done with a `RowSetWriter`: rows are added from a `RowWriter` and as strings, and
all rows of another `RowSetWriter`. -/
inductive RowSet
  | empty
  | addWriter (s : RowSet) (w : RowWriter)
  | addRow (s : RowSet) (row : List UInt8)
  | addAll (s other : RowSet)

namespace RowSet

variable (schema : Schema)

def data : RowSet → List UInt8
  | empty => []
  | addWriter s w => s.data ++ (writeInt (.ofNat (w.size schema)) ++ w.encode schema)
  | addRow s row => s.data ++ (writeInt (.ofNat row.length) ++ row)
  | addAll s other => s.data ++ other.data

/-- The rows, each encoded on its own, with the lengths that are written before them. -/
def rows : RowSet → List (ℕ × List UInt8)
  | empty => []
  | addWriter s w => s.rows ++ [(w.size schema, w.encode schema)]
  | addRow s row => s.rows ++ [(row.length, row)]
  | addAll s other => s.rows ++ other.rows

/-- The rows that come in a `RowWriter`. -/
def writers : RowSet → List RowWriter
  | empty => []
  | addWriter s w => s.writers ++ [w]
  | addRow s _ => s.writers
  | addAll s other => s.writers ++ other.writers

theorem data_eq (s : RowSet) :
    s.data schema = (s.rows schema).flatMap fun x => writeInt (.ofNat x.1) ++ x.2 := by
  induction s with
  | empty => rfl
  | addWriter s w ih | addRow s row ih => rw [data, rows, flatMap_append, ih, flatMap_singleton]
  | addAll s other ih ih' => rw [data, rows, flatMap_append, ih, ih']

end RowSet

/-! ### Reading -/

/-- `RowSetReader::Iterator::prepareReader`: the row at an offset and the offset behind it.
A length that is not a number throws, and the iterator is moved to the end; a negative
length makes `subpiece` take everything.  What is read from outside of the data is undefined,
and so is a sum that is not an `int32_t`. -/
def prepareReader (data : List UInt8) (offset : ℤ) : Option (Option (List UInt8 × ℤ)) :=
  if offset < 0 then none
  else
    let bytes := data.drop offset.toNat
    match Varint.decode 10 bytes with
    | none => if 10 ≤ bytes.length then some none else none
    | some (v, lenBytes) =>
        let rowLen := int32 v
        let rest := bytes.drop lenBytes
        if 2 ^ 31 ≤ lenBytes + rowLen then none
        else some (some (if rowLen < 0 then rest else rest.take rowLen.toNat,
          offset + lenBytes + rowLen))

/-- The rows that an iterator meets from an offset on.  A row that is not opened ends the
process. -/
inductive Yields (schema : Schema) (data : List UInt8) : ℤ → List (List UInt8) → Prop
  | done {offset : ℤ} (h : data.length ≤ offset) : Yields schema data offset []
  | failed {offset : ℤ} (h : offset < data.length) (hrow : prepareReader data offset = some none) :
      Yields schema data offset []
  | row {offset next : ℤ} {row : List UInt8} {rows : List (List UInt8)}
      (h : offset < data.length) (hrow : prepareReader data offset = some (some (row, next)))
      (hopens : (getRowReader schema row).isSome = true) (hrest : Yields schema data next rows) :
      Yields schema data offset (row :: rows)

/-! ### Lengths -/

theorem occupiedBytes_mono (k : ℕ) (h : v ≤ v') : occupiedBytes k v ≤ occupiedBytes k v' := by
  induction k generalizing v v' with
  | zero => exact le_refl _
  | succ k ih =>
    rw [occupiedBytes, occupiedBytes]
    have hdiv : v / 256 ≤ v' / 256 := Nat.div_le_div_right h
    have hrest := ih hdiv
    split_ifs <;> omega

theorem foldl_skipField_grows (fields : List (List UInt8 × SupportedType)) (w : RowWriter) :
    w.cord.length + fields.length ≤
        (fields.foldl (fun w field => w.skipField field.2) w).cord.length ∧
      w.blockOffsets.length ≤
        (fields.foldl (fun w field => w.skipField field.2) w).blockOffsets.length := by
  induction fields generalizing w with
  | nil => exact ⟨le_refl _, le_refl _⟩
  | cons field fields ih =>
    obtain ⟨hcord, hblocks⟩ := ih (w.skipField field.2)
    have hpos : 0 < (defaultBytes field.2).length := by cases field.2 <;> decide
    have hlen : (w.skipField field.2).cord.length = w.cord.length + (defaultBytes field.2).length :=
      length_append
    have hblock : w.blockOffsets.length ≤ (w.skipField field.2).blockOffsets.length := by
      simp only [RowWriter.skipField]
      split_ifs <;> simp
    rw [foldl_cons, length_cons]
    omega

theorem length_encode :
    (w.encode schema).length = (w.skip schema (schema.numFields - w.colNum)).size schema := by
  simp only [RowWriter.encode, RowWriter.size, length_cons, length_append, length_ofNat,
    length_flatMap_ofNat]
  ring

/-- **`size` tells the length of the row** when all fields have been written. -/
theorem size_eq_iff :
    w.size schema ≤ (w.encode schema).length ∧
      (w.size schema = (w.encode schema).length ↔ schema.numFields ≤ w.colNum) := by
  rw [length_encode]
  by_cases hfull : schema.numFields ≤ w.colNum
  · have hskip : w.skip schema (schema.numFields - w.colNum) = w := by
      rw [RowWriter.skip, Int.toNat_of_nonpos (by omega), take_zero, foldl_nil]
    rw [hskip]
    exact ⟨le_refl _, iff_of_true rfl hfull⟩
  obtain ⟨hcord, hblocks⟩ := foldl_skipField_grows
    ((schema.fields.drop w.colNum).take (schema.numFields - w.colNum : ℤ).toNat) w
  have hcount : 0 < ((schema.fields.drop w.colNum).take
      (schema.numFields - w.colNum : ℤ).toNat).length := by
    rw [length_take, length_drop]
    change 0 < min _ (schema.numFields - w.colNum)
    omega
  have hmono := occupiedBytes_mono 8 ((Nat.le_add_right _ _).trans hcord)
  have hbytes := mul_le_mul hmono hblocks
  have hlt : w.size schema < (w.skip schema (schema.numFields - w.colNum)).size schema := by
    simp only [RowWriter.size, RowWriter.skip, calcOccupiedBytes]
    omega
  exact ⟨hlt.le, iff_of_false hlt.ne hfull⟩

/-! ### Round trip -/

section RoundTrip

variable {schema : Schema}

theorem length_writeInt_pos (v : UInt64) : 0 < (writeInt v).length := by
  rw [writeInt, Varint.encode]
  split_ifs <;> simp

theorem prepareReader_append (hlen : (writeInt (.ofNat len)).length + len < 2 ^ 31)
    (hdata : data = pre ++ (writeInt (.ofNat len) ++ rest)) : prepareReader data pre.length =
      some (some (rest.take len, (pre.length : ℤ) + (writeInt (.ofNat len)).length + len)) := by
  have hnat : (UInt64.ofNat len).toNat = len := by
    rw [UInt64.toNat_ofNat']
    omega
  have hint : int32 len = len := Int.bmod_eq_of_le (by omega) (by omega)
  have hdecode : Varint.decode 10 (writeInt (.ofNat len) ++ rest) =
      some (len, (writeInt (.ofNat len)).length) := by
    rw [writeInt, hnat]
    exact Varint.decode_encode (lt_of_lt_of_le (by omega : len < 2 ^ 31) (by decide)) rest
  have hpos : ¬ (len : ℤ) < 0 := by omega
  rw [prepareReader, if_neg (by omega), hdata]
  simp only [hdecode, hint, drop_left, if_neg hpos, Int.toNat_natCast]
  rw [if_neg (by omega)]

theorem yields_flatMap_iff {rows : List (ℕ × List UInt8)} (hlen : ∀ x ∈ rows, x.1 ≤ x.2.length)
    (hshort : ∀ x ∈ rows, (writeInt (.ofNat x.1)).length + x.1 < 2 ^ 31)
    (hopens : ∀ x ∈ rows, (getRowReader schema x.2).isSome = true)
    (hdata : data = pre ++ rows.flatMap fun x => writeInt (.ofNat x.1) ++ x.2) :
    Yields schema data pre.length (rows.map Prod.snd) ↔ ∀ x ∈ rows, x.1 = x.2.length := by
  induction rows generalizing pre with
  | nil =>
    refine iff_of_true (.done ?_) fun x hx => nomatch hx
    rw [hdata, flatMap_nil, append_nil]
  | cons x rows ih =>
    obtain ⟨len, row⟩ := x
    rw [forall_mem_cons] at hlen hshort hopens
    rw [flatMap_cons, append_assoc] at hdata
    dsimp only at hlen hshort hopens hdata
    have hrow := prepareReader_append hshort.1 hdata
    have hlt : (pre.length : ℤ) < data.length := by
      have hpos : 0 < (writeInt (.ofNat len)).length := length_writeInt_pos _
      rw [hdata, length_append, length_append]
      omega
    have hnext : data = (pre ++ writeInt (.ofNat len) ++ row) ++
        rows.flatMap fun x => writeInt (.ofNat x.1) ++ x.2 := by
      rw [hdata, append_assoc, append_assoc]
    have hrest := ih hlen.2 hshort.2 hopens.2 hnext
    have hoffset : ((pre ++ writeInt (.ofNat len) ++ row).length : ℤ) =
        pre.length + (writeInt (.ofNat len)).length + row.length := by
      rw [length_append, length_append]
      omega
    rw [hoffset] at hrest
    rw [take_append_of_le_length hlen.1] at hrow
    rw [forall_mem_cons]
    constructor
    · rintro (_ | _ | ⟨-, hrow', -, hyields⟩)
      rw [hrow] at hrow'
      obtain ⟨hpiece, rfl⟩ := Prod.mk.inj (Option.some.inj (Option.some.inj hrow'))
      have heq : len = row.length := by
        have hlength : (row.take len).length = row.length := congrArg length hpiece
        rw [length_take] at hlength
        omega
      refine ⟨heq, hrest.mp ?_⟩
      rwa [heq] at hyields ⊢
    · rintro ⟨heq, hall⟩
      dsimp only at heq
      rw [heq, take_length] at hrow
      refine .row hlt hrow hopens.1 ?_
      rw [heq] at hrest
      exact hrest.mpr hall

/-- **Rows are read back from a row set**, each as it is encoded on its own and in order, iff
all fields of every `RowWriter` have been written. -/
theorem yields_iff (schema : Schema) (s : RowSet)
    (hshort : ∀ x ∈ s.rows schema, (writeInt (.ofNat x.1)).length + x.1 < 2 ^ 31)
    (hopens : ∀ x ∈ s.rows schema, (getRowReader schema x.2).isSome = true) :
    Yields schema (s.data schema) 0 ((s.rows schema).map Prod.snd) ↔
      ∀ w ∈ s.writers, schema.numFields ≤ w.colNum := by
  have hall : (∀ x ∈ s.rows schema, x.1 ≤ x.2.length) ∧
      ((∀ x ∈ s.rows schema, x.1 = x.2.length) ↔
        ∀ w ∈ s.writers, schema.numFields ≤ w.colNum) := by
    clear hshort hopens
    induction s with
    | empty => simp [RowSet.rows, RowSet.writers]
    | addWriter s w ih =>
      have hsize := size_eq_iff schema w
      simp only [RowSet.rows, RowSet.writers, forall_mem_append, forall_mem_singleton]
      exact ⟨⟨ih.1, hsize.1⟩, and_congr ih.2 hsize.2⟩
    | addRow s row ih =>
      simp only [RowSet.rows, forall_mem_append, forall_mem_singleton]
      exact ⟨⟨ih.1, le_refl _⟩, (and_iff_left trivial).trans ih.2⟩
    | addAll s other ih ih' =>
      simp only [RowSet.rows, RowSet.writers, forall_mem_append]
      exact ⟨⟨ih.1, ih'.1⟩, and_congr ih.2 ih'.2⟩
  have hyields := @yields_flatMap_iff _ _ [] _ hall.1 hshort hopens (s.data_eq schema)
  rw [← hall.2]
  exact hyields

end RoundTrip

/-- A row set with a row of one field that has been written, and the same row again. -/
def oneRow : RowSet :=
  .addAll (.addWriter .empty ⟨[1], 1, []⟩) (.addRow .empty ([64, 44, 1, 1]))

theorem yields_oneRow : Yields (intSchema 1 (by decide)) (oneRow.data (intSchema 1 (by decide))) 0
    [[64, 44, 1, 1], [64, 44, 1, 1]] := by
  exact (yields_iff (intSchema 1 (by decide)) oneRow (by decide +kernel)
    (by decide +kernel)).mpr (by decide)

/-- The only field has not been written: the length of the row is three, but it has four bytes,
the last of which is taken for the length of another row. -/
theorem not_yields_emptyRow :
    ¬ Yields (intSchema 1 (by decide))
      ((RowSet.addWriter .empty .empty).data (intSchema 1 (by decide))) 0
      [RowWriter.encode (intSchema 1 (by decide)) .empty] := by
  have hrow :
    (prepareReader ((RowSet.addWriter .empty .empty).data (intSchema 1 (by decide))) 0).map
      (Option.map Prod.fst) ≠
        some (some (RowWriter.encode (intSchema 1 (by decide)) .empty)) := by
    decide +kernel
  rintro (_ | _ | ⟨-, hrow', -, -⟩)
  rw [hrow'] at hrow
  exact hrow rfl

/-! ### Any bytes -/

section AnyBytes

variable {schema : Schema} {data : List UInt8} {offset next : ℤ} {row : List UInt8}
  {rows : List (List UInt8)}

/-- The iteration ends after at most as many rows as there are bytes, every one of them a part
of the data. -/
def Iterates (schema : Schema) (data : List UInt8) : Prop :=
  ∃ rows, Yields schema data 0 rows ∧ rows.length ≤ data.length ∧ ∀ row ∈ rows, row <:+: data

/-- The offsets that the lengths in the data lead to, each from the one before. -/
inductive Starts (data : List UInt8) : ℕ → Prop
  | zero : Starts data 0
  | next {offset lenBytes v : ℕ} (h : Starts data offset) (hlt : offset < data.length)
      (hlen : Varint.decode 10 (data.drop offset) = some (v, lenBytes)) :
      Starts data (offset + lenBytes + int32 v).toNat

/-- The length at an offset leads on: it is refused after ten bytes, or with its own bytes it is
positive and an `int32_t`, and the row it tells of is opened. -/
def Advances (schema : Schema) (data : List UInt8) (offset : ℕ) : Prop :=
  let bytes := data.drop offset
  match Varint.decode 10 bytes with
  | none => 10 ≤ bytes.length
  | some (v, lenBytes) =>
      let rest := bytes.drop lenBytes
      (0 < lenBytes + int32 v ∧ lenBytes + int32 v < 2 ^ 31) ∧
        (getRowReader schema (if int32 v < 0 then rest else rest.take (int32 v).toNat)).isSome

theorem infix_of_prepareReader (h : prepareReader data offset = some (some (row, next))) :
    0 ≤ offset ∧ row <:+: data := by
  rw [prepareReader] at h
  split_ifs at h with hneg
  refine ⟨not_lt.mp hneg, ?_⟩
  dsimp only at h
  split at h
  · split_ifs at h
    cases h
  have hrest (k : ℕ) := ((drop_suffix k _).trans (drop_suffix offset.toNat data)).isInfix
  split_ifs at h
  · obtain ⟨rfl, -⟩ := Prod.mk.inj (Option.some.inj (Option.some.inj h))
    exact hrest _
  · obtain ⟨rfl, -⟩ := Prod.mk.inj (Option.some.inj (Option.some.inj h))
    exact (IsPrefix.isInfix <| take_prefix _ _).trans (hrest _)

theorem Yields.infix (h : Yields schema data offset rows) : ∀ row ∈ rows, row <:+: data := by
  induction h with
  | done _ | failed _ _ => exact fun row hrow => nomatch hrow
  | row _ hrow _ _ ih => exact forall_mem_cons.mpr ⟨(infix_of_prepareReader hrow).2, ih⟩

theorem not_yields_of_stays (hlt : offset < data.length)
    (hrow : prepareReader data offset = some (some (row, offset))) :
    ¬ Yields schema data offset rows := by
  intro h
  induction h with
  | done hend => omega
  | failed _ hnone =>
    rw [hnone] at hrow
    cases hrow
  | row _ hrow' _ _ ih =>
    rw [hrow'] at hrow
    cases hrow
    exact ih hlt hrow'

/-- Every row uses up a byte of the data. -/
theorem exists_yields
    (hall : ∀ offset, Starts data offset → offset < data.length → Advances schema data offset)
    {offset : ℕ} (h : Starts data offset) :
    ∃ rows, Yields schema data offset rows ∧ rows.length ≤ data.length - offset := by
  induction hn : data.length - offset using Nat.strong_induction_on generalizing offset with
  | _ n ih =>
    rcases lt_or_ge offset data.length with hlt | hge
    swap
    · exact ⟨[], .done (by exact_mod_cast hge), Nat.zero_le _⟩
    have hlt' : (offset : ℤ) < data.length := by exact_mod_cast hlt
    have hnext := hall offset h hlt
    unfold Advances at hnext
    dsimp only at hnext
    cases hlen : Varint.decode 10 (data.drop offset) with
    | none =>
      rw [hlen] at hnext
      refine ⟨[], .failed hlt' ?_, Nat.zero_le _⟩
      rw [prepareReader, if_neg (by omega)]
      simp only [Int.toNat_natCast, hlen, hnext, ↓reduceIte]
    | some x =>
      obtain ⟨v, lenBytes⟩ := x
      rw [hlen] at hnext
      obtain ⟨⟨hpos, hfits⟩, hopens⟩ := hnext
      have hstarts := h.next hlt hlen
      obtain ⟨rows, hrows, hcount⟩ := ih _ (by omega) hstarts rfl
      refine ⟨_ :: rows, .row hlt' ?_ hopens hrows, ?_⟩
      · have hbehind : ((offset + lenBytes + int32 v).toNat : ℤ) = offset + lenBytes + int32 v := by
          omega
        rw [prepareReader, if_neg (by omega), hbehind]
        simp only [Int.toNat_natCast, hlen]
        rw [if_neg (by omega)]
      · rw [length_cons]
        omega

/-- **The iteration over any bytes ends**, after no more rows than bytes, when every length it
comes to leads on. -/
theorem iterates_of_advances (schema : Schema) (data : List UInt8)
    (h : ∀ offset, Starts data offset → offset < data.length → Advances schema data offset) :
    Iterates schema data := by
  obtain ⟨rows, hrows, hlen⟩ := exists_yields h .zero
  exact ⟨rows, hrows, hlen, hrows.infix⟩

/-- One row of four bytes. -/
theorem iterates_fourBytes : Iterates (intSchema 1 (by decide)) [4, 64, 44, 1, 1] := by
  have hfirst : Varint.decode 10 (drop 0 [4, 64, 44, 1, 1]) = some (4, 1) := by decide
  have hstarts {offset : ℕ} (h : Starts [4, 64, 44, 1, 1] offset) : offset = 0 ∨ offset = 5 := by
    induction h with
    | zero => exact .inl rfl
    | next _ hlt hlen ih =>
      rcases ih with rfl | rfl
      · obtain ⟨rfl, rfl⟩ := Prod.mk.inj (Option.some.inj (hfirst.symm.trans hlen))
        exact .inr (by decide)
      · exact absurd hlt (by decide)
  refine iterates_of_advances _ _ fun offset h hlt => ?_
  rcases hstarts h with rfl | rfl
  · simp only [Advances, hfirst]
    exact ⟨by decide, by decide +kernel⟩
  · exact absurd hlt (by decide)

/-- A length of −5 in five bytes: the iterator hands out a row and stays where it is. -/
theorem not_iterates :
    prepareReader [251, 255, 255, 255, 15, 64, 44, 1, 1] 0 = some (some ([64, 44, 1, 1], 0)) ∧
      ¬ Iterates (intSchema 1 (by decide)) [251, 255, 255, 255, 15, 64, 44, 1, 1] := by
  have hrow : prepareReader [251, 255, 255, 255, 15, 64, 44, 1, 1] 0 =
      some (some ([64, 44, 1, 1], 0)) := by
    decide +kernel
  refine ⟨hrow, ?_⟩
  rintro ⟨rows, hrows, -⟩
  exact not_yields_of_stays (by decide) hrow hrows

end AnyBytes
end K2Graph.Dataman
