import K2Graph.Dataman.RoundTrip

/-!
# Iterators over a row

Several iterators and the getters share one reader, and with it the offsets that have been
noted.  What an iterator knows about its own field is always right, since it goes on from its
own offset: by the bytes that it has read, or, if it has read nothing, by `skipToNext`.

Only the second way notes the offset, and with it that all fields of the block up to there
have been found.  An iterator that has gone the first way before makes this wrong: the fields
that it read are taken for found, and a getter returns the -1 that stands for their offset.

## Main results

* `agrees_of_careful` — where no iterator does so, every read is as on a fresh reader.
* `not_agrees` — a row of three fields where one does.
-/

namespace K2Graph.Dataman

open List hiding le_refl lt_of_le_of_lt lt_trans not_lt

/-- `RowReader::Iterator`. -/
structure Iterator where
  index : ℕ := 0
  bytes : ℤ := 0
  offset : ℤ := 0

/-- `operator++`.  When something is wrong the iterator is moved to the end. -/
def RowReader.next (r : RowReader) (it : Iterator) : Option (RowReader × Iterator) :=
  if it.index = r.schema.numFields then some (r, it)
  else if 0 < it.bytes then some (r, ⟨it.index + 1, 0, it.offset + it.bytes⟩)
  else (r.skipToNext it.index it.offset).map fun (offset, r) =>
    if offset < 0 then (r, ⟨r.schema.numFields, it.bytes, offset⟩)
    else (r, ⟨it.index + 1, 0, offset⟩)

/-- By how much a getter moves the offset; the length of a string is an `int32_t`. -/
def RowReader.advance (r : RowReader) (offset : ℤ) : SupportedType → Option ℤ
  | .string => (r.readString offset).map Prod.fst
  | type => (r.fieldEnd offset type).map (· - offset)

variable (casts : FloatCasts)

/-- A getter of the `Cell`.  When it fails the iterator is moved to the end. -/
def RowReader.cell (r : RowReader) (it : Iterator) (getter : Getter) :
    Option (Except ℤ Value × Iterator) :=
  if it.index = r.schema.numFields then some (.error indexOutOfRange, it)
  else do
    let type ← r.schema.fieldType it.index
    match ← r.getAt casts it.offset type getter with
    | .ok v => return (.ok v, { it with bytes := ← r.advance it.offset type })
    | .error e => return (.error e, { it with index := r.schema.numFields })

/-- A reader and its iterators. -/
structure Reading where
  reader : RowReader
  iterators : List Iterator

/-- What is done with them; iterators are told by number. -/
inductive ReadOp
  | get (access : Access)
  | begin
  | next (n : ℕ)
  | cell (n : ℕ) (getter : Getter)

variable (s : Reading)

/-- One operation, with what is returned if it is a read. -/
def Reading.step : ReadOp → Option (Option (Except ℤ Value) × Reading)
  | .get access =>
      (s.reader.read casts access).map fun (v, r) => (some v, ⟨r, s.iterators⟩)
  | .begin => some (none, ⟨s.reader, s.iterators ++ [{}]⟩)
  | .next n =>
      match s.iterators[n]? with
      | none => some (none, s)
      | some it => (s.reader.next it).map fun (r, it) => (none, ⟨r, s.iterators.set n it⟩)
  | .cell n getter =>
      match s.iterators[n]? with
      | none => some (none, s)
      | some it => (s.reader.cell casts it getter).map fun (v, it) =>
          (some v, ⟨s.reader, s.iterators.set n it⟩)

/-- What a read returns on a fresh reader; that of an iterator is a read of its field. -/
def Reading.fresh (r : RowReader) : ReadOp → Option (Except ℤ Value)
  | .get access => (r.read casts access).map Prod.fst
  | .cell n getter => s.iterators[n]?.bind fun it => (r.get casts getter it.index).map Prod.fst
  | .begin => none
  | .next _ => none

/-- Every read returns what it does on the fresh reader `r`. -/
def Reading.Agrees (r : RowReader) : Reading → List ReadOp → Prop
  | _, [] => True
  | s, op :: ops => ∃ s', s.step casts op = some (s.fresh casts r op, s') ∧ s'.Agrees r ops

/-- An iterator moves without having read only if the next offset or all those of its block
have been noted, and it reads what is shorter than `2 ^ 31` bytes. -/
def Reading.allows : ReadOp → Bool
  | .next n =>
      match s.iterators[n]? with
      | some it => 0 < it.bytes || 0 ≤ s.reader.offsets (it.index + 1) ||
          (List.range' (16 * (it.index / 16)) (it.index % 16 + 1)).all
            fun j => 0 ≤ s.reader.offsets j
      | none => true
  | .cell n _ =>
      match s.iterators[n]? with
      | some it => ((s.reader.schema.fieldType it.index).bind
          (s.reader.fieldEnd it.offset)).all fun next => next - it.offset < 2 ^ 31
      | none => true
  | _ => true

def Reading.careful : Reading → List ReadOp → Bool
  | _, [] => true
  | s, op :: ops => s.allows op && (s.step casts op).all fun x => x.2.careful ops

/-! ### What iterators know -/

section Iterators

variable {casts : FloatCasts} {schema : Schema} {chunks : List (List UInt8)} {r : RowReader}

/-- The iterator is at the end, or at its field, of which it has read all or nothing. -/
def Stands (schema : Schema) (chunks : List (List UInt8)) (it : Iterator) : Prop :=
  it.index = schema.numFields ∨
    it.index < schema.numFields ∧ it.offset = offsetOf chunks it.index ∧
      (0 < it.bytes → it.offset + it.bytes = offsetOf chunks (it.index + 1))

theorem stands_of_le (hi : i ≤ schema.numFields) :
    Stands schema chunks ⟨i, 0, offsetOf chunks i⟩ := by
  rcases lt_or_eq_of_le hi with hlt | heq
  · exact .inr ⟨hlt, rfl, fun h => absurd h (lt_irrefl _)⟩
  · exact .inl heq

theorem Tracks.next (h : Tracks schema chunks r) (hrow : Row schema values chunks)
    (hit : Stands schema chunks it)
    (hnoted : 0 < it.bytes ∨ 0 ≤ r.offsets (it.index + 1) ∨ ∀ j, 16 * (it.index / 16) ≤ j →
      j ≤ it.index → 0 ≤ r.offsets j) :
    ∃ r' it', r.next it = some (r', it') ∧ Tracks schema chunks r' ∧
      Stands schema chunks it' := by
  rw [RowReader.next, h.schema_eq]
  by_cases hend : it.index = schema.numFields
  · exact ⟨r, it, by rw [if_pos hend], h, hit⟩
  obtain ⟨hi, hoffset, hread⟩ := hit.resolve_left hend
  have hpos : ¬ ((offsetOf chunks (it.index + 1) : ℕ) : ℤ) < 0 := by omega
  rw [if_neg hend]
  by_cases hbytes : 0 < it.bytes
  · rw [if_pos hbytes, hread hbytes]
    exact ⟨r, _, rfl, h, stands_of_le hi⟩
  rw [if_neg hbytes, hoffset]
  rcases hnoted.resolve_left hbytes with hknown | hblock
  · have hnext : r.skipToNext it.index (offsetOf chunks it.index) =
        some (↑(offsetOf chunks (it.index + 1)), r) := by
      rw [RowReader.skipToNext, h.schema_eq, Schema.fieldType_eq_some hi]
      dsimp only
      rw [if_pos hknown, h.known _ hi hknown]
    rw [hnext, Option.map_some]
    exact ⟨r, _, by simp only [if_neg hpos], h, stands_of_le hi⟩
  · obtain ⟨r', hnext, htracks, -⟩ := h.skipToNext hrow hi fun j hj hji =>
      h.known j (by omega) (hblock j hj hji)
    rw [hnext, Option.map_some]
    exact ⟨r', _, by simp only [if_neg hpos], htracks, stands_of_le hi⟩

theorem int32_eq (hneg : 0 ≤ x) (hlt : x < 2 ^ 31) : int32 x = x :=
  Int.bmod_eq_of_le (by omega) (by omega)

theorem Encoded.advance (h : Encoded type v chunk) (hdata : r.data = pre ++ (chunk ++ post))
    (hlt : (chunk.length : ℤ) < 2 ^ 31) : r.advance pre.length type = some (chunk.length : ℤ) := by
  have hend := h.fieldEnd hdata
  cases h with
  | string v hs =>
    rw [length_append, Int.natCast_add] at hlt ⊢
    rw [RowReader.advance, readString_of_append hs hdata, Option.map_some, int32_eq (by omega) hlt]
  | bool v | int v | timestamp v | vid v | float v | double v =>
    rw [RowReader.advance, hend, Option.map_some, add_sub_cancel_left]
    simp

/-- **A read through an iterator.** -/
theorem Tracks.cell (casts : FloatCasts) (h : Tracks schema chunks r)
    (hrow : Row schema values chunks) (hit : Stands schema chunks it) (getter : Getter)
    (hlt : ∀ next, (r.schema.fieldType it.index).bind (r.fieldEnd it.offset) = some next →
      next - it.offset < 2 ^ 31)
    (h₀ : Tracks schema chunks r₀) :
    ∃ result it', (r₀.get casts getter it.index).map Prod.fst = some result ∧
      r.cell casts it getter = some (result, it') ∧ Stands schema chunks it' := by
  rw [RowReader.cell, h.schema_eq]
  by_cases hend : it.index = schema.numFields
  · rw [if_pos hend, h₀.get_of_le casts getter hend.ge]
    exact ⟨_, it, rfl, rfl, hit⟩
  obtain ⟨hi, hoffset, -⟩ := hit.resolve_left hend
  obtain ⟨result, hget⟩ := hrow.exists_get casts getter hi
  obtain ⟨-, r₀', hfresh, -⟩ := hget r₀ h₀
  obtain ⟨v, chunk, -, hchunk, hencoded⟩ := hrow.exists_chunk hi
  have hdata : r.data =
      (chunks.take it.index).flatten ++ (chunk ++ (chunks.drop (it.index + 1)).flatten) := by
    rw [h.data, flatten_eq_of_getElem? hchunk]
  have hnext := offsetOf_succ hchunk
  have hlen : (chunk.length : ℤ) < 2 ^ 31 := by
    rw [h.schema_eq, Schema.fieldType_eq_some hi, hoffset] at hlt
    have hshort := hlt _ (hencoded.fieldEnd hdata)
    rwa [← offsetOf, add_sub_cancel_left] at hshort
  have hmoves : r.advance (offsetOf chunks it.index) (schema.typeAt it.index) =
      some (chunk.length : ℤ) := hencoded.advance hdata hlen
  rw [if_neg hend, Schema.fieldType_eq_some hi, hoffset, hfresh]
  simp only [Option.bind_eq_bind, Option.bind_some, (hget r h).1]
  cases result with
  | ok v =>
    rw [hmoves]
    exact ⟨_, _, rfl, rfl, .inr ⟨hi, rfl, fun _ => by dsimp only; omega⟩⟩
  | error e => exact ⟨_, _, rfl, rfl, .inl rfl⟩

end Iterators

/-! ### Runs -/

/-- An encoded row: it is opened, every field holds a value of its type, and the offsets of
the blocks are right. -/
def ValidRow (schema : Schema) (row : List UInt8) (r : RowReader) : Prop :=
  getRowReader schema row = some r ∧
    ∃ values chunks, Row schema values chunks ∧ Tracks schema chunks r

section Runs

variable {casts : FloatCasts} {schema : Schema} {values : List Value} {chunks : List (List UInt8)}
  {r : RowReader} {s : Reading}

/-- **One operation** returns what it does on a fresh reader. -/
theorem Reading.step_of_allows (hrow : Row schema values chunks) (h₀ : Tracks schema chunks r)
    (h : Tracks schema chunks s.reader) (hits : ∀ it ∈ s.iterators, Stands schema chunks it)
    (hop : s.allows op = true) :
    ∃ s', s.step casts op = some (s.fresh casts r op, s') ∧ Tracks schema chunks s'.reader ∧
      ∀ it ∈ s'.iterators, Stands schema chunks it := by
  have hset (n : ℕ) {it : Iterator} (hit : Stands schema chunks it) :
      ∀ it' ∈ s.iterators.set n it, Stands schema chunks it' := fun it' hit' =>
    (mem_or_eq_of_mem_set hit').elim (hits it') fun heq => heq ▸ hit
  cases op with
  | get access =>
    obtain ⟨result, hread⟩ := hrow.exists_read casts access
    obtain ⟨r', hr', htracks⟩ := hread s.reader h
    obtain ⟨r₀', hr₀', -⟩ := hread r h₀
    exact ⟨⟨r', s.iterators⟩, by simp only [step, fresh, hr', hr₀', Option.map_some], htracks, hits⟩
  | begin =>
    refine ⟨_, rfl, h, fun it hit => (mem_append.mp hit).elim (hits it) fun hnew => ?_⟩
    rw [mem_singleton.mp hnew]
    exact stands_of_le (Nat.zero_le _)
  | next n =>
    rw [step, fresh]
    cases hn : s.iterators[n]? with
    | none => exact ⟨s, rfl, h, hits⟩
    | some it =>
      rw [allows, hn] at hop
      obtain ⟨r', it', hnext, htracks, hstands⟩ :=
        h.next hrow (hits it (mem_of_getElem? hn)) (by
          simp only [Bool.or_eq_true, decide_eq_true_eq, all_eq_true, mem_range'_1] at hop
          exact (or_assoc.mp hop).imp_right (Or.imp_right fun hall j hj hji =>
            hall j ⟨hj, by omega⟩))
      exact ⟨⟨r', s.iterators.set n it'⟩, by simp only [hnext, Option.map_some], htracks,
        hset n hstands⟩
  | cell n getter =>
    rw [step, fresh]
    cases hn : s.iterators[n]? with
    | none => exact ⟨s, rfl, h, hits⟩
    | some it =>
      rw [allows, hn] at hop
      obtain ⟨result, it', hfresh, hcell, hstands⟩ :=
        h.cell casts hrow (hits it (mem_of_getElem? hn)) getter
          (fun next hnext => by simpa [hnext] using hop) h₀
      exact ⟨⟨s.reader, s.iterators.set n it'⟩,
        by simp only [hcell, hfresh, Option.map_some, Option.bind_some], h, hset n hstands⟩

/-- **Reads do not depend on the reads before**, where no iterator takes fields for found
that are not. -/
theorem agrees_of_careful (casts : FloatCasts) (schema : Schema) (row : List UInt8)
    (r : RowReader) (hrow : ValidRow schema row r) (ops : List ReadOp)
    (hops : (Reading.mk r []).careful casts ops = true) :
    (Reading.mk r []).Agrees casts r ops := by
  obtain ⟨-, values, chunks, hrow, h₀⟩ := hrow
  suffices hall : ∀ s : Reading, Tracks schema chunks s.reader →
      (∀ it ∈ s.iterators, Stands schema chunks it) → s.careful casts ops = true →
      s.Agrees casts r ops from hall _ h₀ (fun it hit => nomatch hit) hops
  clear hops
  intro s
  induction ops generalizing s with
  | nil => exact fun _ _ _ => trivial
  | cons op ops ih =>
    intro h hits hops
    rw [Reading.careful, Bool.and_eq_true] at hops
    obtain ⟨s', hstep, htracks, hits'⟩ := Reading.step_of_allows hrow h₀ h hits hops.1
    rw [hstep] at hops
    exact ⟨s', hstep, ih s' htracks hits' hops.2⟩

end Runs

/-- The row of `mistyped`. -/
def mistypedRow : List UInt8 := RowWriter.encode (intSchema 3 (by decide)) ⟨[0, 1, 2], 3, []⟩

theorem exists_validRow_mistyped : ∃ r, ValidRow (intSchema 3 (by decide)) mistypedRow r := by
  obtain ⟨r, hopen, hrow, htracks⟩ := aligned_mistyped.opens (w := ⟨[0, 1, 2], 3, []⟩) (by decide)
  exact ⟨r, hopen, _, _, hrow, htracks⟩

/-- An iterator is moved twice without a read, and reads. -/
theorem agrees_mistyped : ∃ r, ValidRow (intSchema 3 (by decide)) mistypedRow r ∧
    (Reading.mk r []).Agrees zeroCasts r
      [.begin, .next 0, .next 0, .get (.index .int 1), .cell 0 .int] := by
  obtain ⟨r, hrow⟩ := exists_validRow_mistyped
  have hcareful : (getRowReader (intSchema 3 (by decide)) mistypedRow).all (fun r =>
      (Reading.mk r []).careful zeroCasts
        [.begin, .next 0, .next 0, .get (.index .int 1), .cell 0 .int]) = true := by
    decide +kernel
  rw [hrow.1] at hcareful
  exact ⟨r, hrow, agrees_of_careful zeroCasts _ _ r hrow _ hcareful⟩

/-- An iterator reads the first field and is moved twice: the second field is taken for
found, and a getter returns an error for it. -/
theorem not_agrees : ∃ r, ValidRow (intSchema 3 (by decide)) mistypedRow r ∧
    ¬ (Reading.mk r []).Agrees zeroCasts r
      [.begin, .cell 0 .int, .next 0, .next 0, .get (.index .int 1)] := by
  obtain ⟨r, hrow⟩ := exists_validRow_mistyped
  have hrun : ((getRowReader (intSchema 3 (by decide)) mistypedRow).bind fun r => do
      let (_, s) ← (Reading.mk r []).step zeroCasts .begin
      let (_, s) ← s.step zeroCasts (.cell 0 .int)
      let (_, s) ← s.step zeroCasts (.next 0)
      let (_, s) ← s.step zeroCasts (.next 0)
      let (v, _) ← s.step zeroCasts (.get (.index .int 1))
      return v.bind Except.toOption) = some none := by
    decide +kernel
  have hfresh : ((getRowReader (intSchema 3 (by decide)) mistypedRow).bind fun r =>
      (r.get zeroCasts .int 1).bind fun x => x.1.toOption) = some (.int 1) := by
    decide +kernel
  refine ⟨r, hrow, ?_⟩
  rintro ⟨s₁, h₁, s₂, h₂, s₃, h₃, s₄, h₄, s₅, h₅, -⟩
  rw [hrow.1, Option.bind_some] at hrun hfresh
  simp only [h₁, h₂, h₃, h₄, h₅, Option.bind_eq_bind, Option.bind_some] at hrun
  obtain ⟨x, hx, hvalue⟩ := Option.bind_eq_some_iff.mp hfresh
  rw [Reading.fresh, RowReader.read, hx, Option.map_some, Option.bind_some, hvalue] at hrun
  cases hrun

end K2Graph.Dataman
