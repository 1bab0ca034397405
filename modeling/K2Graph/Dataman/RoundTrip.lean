import K2Graph.Dataman.Fields

/-!
# What is written is read

A row that was written is read back, field by field, in any order and however often, if
the offsets of the blocks are where the reader looks for them.  They are not when a field
at the end or at the beginning of a block of 16 fields is skipped, because `Skip` notes the
offset one field too late: it counts the fields before it writes one, where the other
operators count them afterwards.

The version is read as an `int32_t`, and so is the length of a string with the bytes that
hold its length.

## Main results

* `roundTrip_of_codable` — a row is read back.
-/

namespace K2Graph.Dataman

open List hiding le_refl lt_of_le_of_lt lt_trans not_lt
open LittleEndian

/-! ### What is written -/

variable (n : ℕ)

/-- A step, on the fields of a row with `n` fields. -/
def cellsAfter (cells : List Cell) : Step → List Cell
  | .write v => cells ++ [some v]
  | .skip toSkip => cells ++ List.replicate (min toSkip.toNat (n - cells.length)) none

/-- The fields of a row after a sequence of steps; those that are left are skipped. -/
def cellsOf (steps : List Step) : List Cell :=
  let cells := steps.foldl (cellsAfter n) []
  cells ++ List.replicate (n - cells.length) none

/-! ### The condition -/

variable (cells : List Cell)

def Written (i : ℕ) : Prop := ∃ v, cells[i]? = some (some v)

/-- Fields at the ends and at the beginnings of blocks of 16 fields are written.  If the
last block is full, its first and its last field may both be skipped. -/
structure BlocksNoted (n : ℕ) (cells : List Cell) : Prop where
  last : ∀ b, 0 < b → 16 * b < n → Written cells (16 * b - 1)
  first : ∀ b, 0 < b → 16 * b < n → 16 * (b + 1) ≠ n → Written cells (16 * b)
  full : ∀ m, 0 < m → n = 16 * m → (Written cells (n - 1) ↔ m = 1 ∨ Written cells (n - 16))

/-- When a row is read back. -/
structure Codable (casts : FloatCasts) (schema : Schema) (cells : List Cell) : Prop where
  version : 0 ≤ schema.version.toInt ∧ schema.version.toInt < 2 ^ 31
  types : ∀ i v, cells[i]? = some (some v) → stored casts v (schema.typeAt i) ≠ none
  strings : ∀ (i : ℕ) s, cells[i]? = some (some (Value.string s)) → ShortString s
  size : (chunks casts schema cells).flatten.length < 2 ^ 63
  blocks : BlocksNoted schema.numFields cells

/-- When every field begins where the reader looks for it: a value that does not go with its
field leaves what `Skip` would. -/
structure Aligned (casts : FloatCasts) (schema : Schema) (cells : List Cell) : Prop where
  version : 0 ≤ schema.version.toInt ∧ schema.version.toInt < 2 ^ 31
  types : ∀ i v, cells[i]? = some (some v) → stored casts v (schema.typeAt i) = none →
    fieldBytes casts v (schema.typeAt i) = defaultBytes (schema.typeAt i)
  strings : ∀ (i : ℕ) s, cells[i]? = some (some (Value.string s)) →
    schema.typeAt i = .string → ShortString s
  size : (chunks casts schema cells).flatten.length < 2 ^ 63
  blocks : BlocksNoted schema.numFields cells

theorem Codable.aligned {cells : List Cell} (h : Codable casts schema cells) :
    Aligned casts schema cells where
  version := h.version
  types i v hv hnone := absurd hnone (h.types i v hv)
  strings i s hs _ := h.strings i s hs
  size := h.size
  blocks := h.blocks

/-- The row is opened, and after any reads every field is read, by index and by name. -/
def RoundTrip (casts : FloatCasts) (schema : Schema) (cells : List Cell)
    (row : List UInt8) : Prop :=
  ∃ r, getRowReader schema row = some r ∧
    ∀ accesses, ∃ r', r.run casts accesses = some r' ∧
      ∀ i name type cell, schema.fields[i]? = some (name, type) → cells[i]? = some cell →
        ∃ v r'', held casts cell type = some v ∧
          r'.get casts type.getter i = some (.ok v, r'') ∧
          r'.getByName casts type.getter name = some (.ok v, r'')

/-- As `RoundTrip`, but a field whose value does not go with it holds zero. -/
def Contained (casts : FloatCasts) (schema : Schema) (cells : List Cell) (row : List UInt8) :
    Prop :=
  ∃ r, getRowReader schema row = some r ∧
    ∀ accesses, ∃ r', r.run casts accesses = some r' ∧
      ∀ i name type cell, schema.fields[i]? = some (name, type) → cells[i]? = some cell →
        ∃ r'', r'.get casts type.getter i =
            some (.ok ((held casts cell type).getD (zero type)), r'') ∧
          r'.getByName casts type.getter name =
            some (.ok ((held casts cell type).getD (zero type)), r'')

/-! ### What the writer notes -/

/-- Where an offset is noted for a field: behind the last one of a block that was written,
and behind the first one of a block that was skipped. -/
def mark (i : ℕ) (cell : Cell) : List ℕ :=
  if cell.isSome then (if (i + 1) % 16 = 0 then [i + 1] else [])
  else if i ≠ 0 ∧ i % 16 = 0 then [i + 1] else []

/-- The fields at which the offsets are noted. -/
def marks : List ℕ := (cells.mapIdx mark).flatten

theorem marks_concat (cell : Cell) :
    marks (cells ++ [cell]) = marks cells ++ mark cells.length cell := by
  rw [marks, mapIdx_concat, flatten_append, flatten_singleton, marks]

variable {cell : Cell}

theorem le_of_mem_mark (h : j ∈ mark i cell) : j = i + 1 := by
  unfold mark at h
  split_ifs at h <;> simp_all

theorem le_of_mem_marks {cells : List Cell} (h : j ∈ marks cells) : j ≤ cells.length := by
  induction cells using reverseRecOn with
  | nil => cases h
  | append_singleton cells cell ih =>
    rw [marks_concat, mem_append] at h
    rw [length_append]
    rcases h with h | h
    · exact Nat.le_succ_of_le (ih h)
    · exact (le_of_mem_mark h).le

/-- The writer has the fields. -/
structure Holds (casts : FloatCasts) (schema : Schema) (w : RowWriter)
    (cells : List Cell) : Prop where
  colNum : w.colNum = cells.length
  le : cells.length ≤ schema.numFields
  cord : w.cord = (chunks casts schema cells).flatten
  blockOffsets : w.blockOffsets = (marks cells).map (offsetOf (chunks casts schema cells))

section Writing

variable {cells : List Cell}

theorem length_chunks : (chunks casts schema cells).length = cells.length := length_mapIdx

theorem chunks_concat (cell : Cell) :
    chunks casts schema (cells ++ [cell]) =
      chunks casts schema cells ++ [cellBytes casts cell (schema.typeAt cells.length)] :=
  mapIdx_concat

section

variable (h : Holds casts schema w cells)
include h

theorem Holds.concat (cell : Cell) (hlt : cells.length < schema.numFields) (bytes : List UInt8)
    (hbytes : bytes = cellBytes casts cell (schema.typeAt cells.length)) :
    Holds casts schema ⟨w.cord ++ bytes, w.colNum + 1,
      w.blockOffsets ++ (mark w.colNum cell).map fun _ => (w.cord ++ bytes).length⟩
      (cells ++ [cell]) where
  colNum := by simp [h.colNum]
  le := by
    rw [length_append]
    exact hlt
  cord := by rw [h.cord, hbytes, chunks_concat, flatten_append, flatten_singleton]
  blockOffsets := by
    rw [marks_concat, map_append, h.blockOffsets, h.colNum]
    have hold (j : ℕ) (hj : j ≤ cells.length) : offsetOf (chunks casts schema (cells ++ [cell])) j =
        offsetOf (chunks casts schema cells) j := by
      rw [offsetOf, offsetOf, chunks_concat, take_append_of_le_length]
      rw [length_chunks]
      exact hj
    have hnew : offsetOf (chunks casts schema (cells ++ [cell])) (cells.length + 1) =
        (w.cord ++ bytes).length := by
      rw [offsetOf_of_length_le, chunks_concat, flatten_append, flatten_singleton, h.cord, hbytes]
      rw [length_chunks, length_append, length_singleton]
    refine congrArg₂ (· ++ ·) ?_ ?_
    · exact map_congr_left fun j hj => (hold j (le_of_mem_marks hj)).symm
    · refine map_congr_left fun j hj => ?_
      rw [le_of_mem_mark hj, hnew]

theorem Holds.write (hwrite : w.write casts schema v = some w') :
    Holds casts schema w' (cells ++ [some v]) := by
  obtain ⟨type, htype, rfl⟩ := Option.map_eq_some_iff.mp hwrite
  rw [h.colNum] at htype
  have hlt : cells.length < schema.numFields := by
    rw [Schema.fieldType, Option.map_eq_some_iff] at htype
    obtain ⟨field, hfield, -⟩ := htype
    exact (List.getElem?_eq_some_iff.mp hfield).1
  have hat : schema.typeAt cells.length = type := by rw [Schema.typeAt, htype, Option.getD_some]
  have hconcat := h.concat (some v) hlt (fieldBytes casts v type) (by rw [hat]; rfl)
  rw [mark, Option.isSome_some, if_pos rfl] at hconcat
  split_ifs at hconcat ⊢ with hmod
  · exact hconcat
  · simpa using hconcat

theorem Holds.skipField (hfield : schema.fields[cells.length]? = some field) :
    Holds casts schema (w.skipField field.2) (cells ++ [none]) := by
  have hlt : cells.length < schema.numFields := (List.getElem?_eq_some_iff.mp hfield).1
  have hat : schema.typeAt cells.length = field.2 := by
    rw [Schema.typeAt, Schema.fieldType, hfield, Option.map_some, Option.getD_some]
  have hconcat := h.concat none hlt (defaultBytes field.2) (by rw [hat]; rfl)
  rw [mark, Option.isSome_none, if_neg Bool.false_ne_true] at hconcat
  rw [RowWriter.skipField]
  split_ifs at hconcat ⊢ with hmod
  · exact hconcat
  · simpa using hconcat

end

theorem Holds.foldl_skipField (fields : List (List UInt8 × SupportedType))
    (h : Holds casts schema w cells) (hfields : fields <+: schema.fields.drop cells.length) :
    Holds casts schema (fields.foldl (fun w field => w.skipField field.2) w)
      (cells ++ List.replicate fields.length none) := by
  induction fields generalizing w cells with
  | nil => simpa using h
  | cons field fields ih =>
    obtain ⟨rest, hrest⟩ := hfields
    have hfield : schema.fields[cells.length]? = some field := by
      rw [← head?_drop, ← hrest]
      rfl
    have hnext : fields <+: schema.fields.drop (cells ++ [none]).length := by
      rw [length_append, ← drop_drop, ← hrest]
      exact prefix_append _ _
    have hskip := ih (h.skipField hfield) hnext
    rwa [append_assoc] at hskip

section

variable (h : Holds casts schema w cells)
include h

theorem Holds.skip (toSkip : ℤ) : Holds casts schema (w.skip schema toSkip)
      (cells ++ List.replicate (min toSkip.toNat (schema.numFields - cells.length)) none) := by
  have hskip := h.foldl_skipField ((schema.fields.drop cells.length).take toSkip.toNat) <|
    take_prefix _ _
  rw [length_take, length_drop] at hskip
  rw [RowWriter.skip, h.colNum]
  exact hskip

theorem Holds.step {step : Step} (hstep : w.step casts schema step = some w') :
    Holds casts schema w' (cellsAfter schema.numFields cells step) := by
  cases step with
  | write v => exact h.write hstep
  | skip toSkip =>
    obtain rfl := Option.some.inj hstep
    exact h.skip toSkip

/-- **The fields after a sequence of steps.** -/
theorem Holds.run {steps : List Step}
    (hrun : steps.foldlM (RowWriter.step casts schema) w = some w') :
    Holds casts schema w' (steps.foldl (cellsAfter schema.numFields) cells) := by
  induction steps generalizing w cells with
  | nil =>
    obtain rfl := Option.some.inj hrun
    exact h
  | cons step steps ih =>
    obtain ⟨w₁, hstep, hrun⟩ := Option.bind_eq_some_iff.mp hrun
    exact ih (h.step hstep) hrun

end

theorem holds_empty : Holds casts schema .empty [] := ⟨rfl, Nat.zero_le _, rfl, rfl⟩

theorem holds_of_run (hrun : RowWriter.run casts schema steps = some w) :
    Holds casts schema (w.skip schema (schema.numFields - w.colNum))
      (cellsOf schema.numFields steps) := by
  have h := holds_empty.run hrun
  have hskip := h.skip (schema.numFields - w.colNum)
  rw [h.colNum] at hskip ⊢
  have hmin :
    min ((schema.numFields : ℤ) - ↑(steps.foldl (cellsAfter schema.numFields) []).length).toNat
      (schema.numFields - (steps.foldl (cellsAfter schema.numFields) []).length) =
      schema.numFields - (steps.foldl (cellsAfter schema.numFields) []).length := by
    omega
  rw [hmin] at hskip
  exact hskip

end Writing

/-! ### The offsets in the header -/

/-- The fields at which the reader looks for offsets. -/
def blockStarts (m : ℕ) : List ℕ := (List.range m).map fun b => 16 * (b + 1)

theorem blockStarts_succ (m : ℕ) : blockStarts (m + 1) = blockStarts m ++ [16 * (m + 1)] := by
  rw [blockStarts, range_succ, map_append, map_singleton, blockStarts]

section Marks

variable {cells : List Cell}

theorem marks_take_succ (h : c < cells.length) :
    ∃ cell, cells[c]? = some cell ∧
      marks (cells.take (c + 1)) = marks (cells.take c) ++ mark c cell := by
  have hcell := getElem?_eq_getElem h
  have htake : cells.take (c + 1) = cells.take c ++ [cells[c]] := by
    rw [take_add_one, hcell, Option.toList_some]
  refine ⟨_, hcell, ?_⟩
  rw [htake, marks_concat, length_take, min_eq_left h.le]

theorem isSome_of_written (hcell : cells[c]? = some cell) :
    cell.isSome = true ↔ Written cells c := by
  rw [Written, hcell]
  cases cell <;> simp

theorem marks_take (h : c ≤ cells.length)
    (hlast : ∀ b, 0 < b → 16 * b ≤ c → Written cells (16 * b - 1))
    (hfirst : ∀ b, 0 < b → 16 * b < c → Written cells (16 * b)) :
    marks (cells.take c) = blockStarts (c / 16) := by
  induction c with
  | zero => rfl
  | succ c ih =>
    obtain ⟨cell, hcell, hmarks⟩ := marks_take_succ (Nat.lt_of_succ_le h)
    have hbefore := ih (by omega) (fun b hb hbc => hlast b hb (by omega))
      fun b hb hbc => hfirst b hb (by omega)
    rw [hmarks, hbefore, mark]
    by_cases hend : (c + 1) % 16 = 0
    · have hwritten : cell.isSome = true := by
        rw [isSome_of_written hcell]
        have hw := hlast ((c + 1) / 16) (by omega) (by omega)
        rwa [show 16 * ((c + 1) / 16) - 1 = c by omega] at hw
      have hnext : (c + 1) / 16 = c / 16 + 1 := by omega
      have hval : 16 * (c / 16 + 1) = c + 1 := by omega
      rw [if_pos hwritten, if_pos hend, hnext, blockStarts_succ, hval]
    have hsame : (c + 1) / 16 = c / 16 := by omega
    have hnone : (if cell.isSome then (if (c + 1) % 16 = 0 then [c + 1] else [])
        else if c ≠ 0 ∧ c % 16 = 0 then [c + 1] else []) = [] := by
      split_ifs with hsome hstart
      · rfl
      · have hw := hfirst (c / 16) (by omega) (by omega)
        rw [show 16 * (c / 16) = c by omega, ← isSome_of_written hcell] at hw
        exact absurd hw hsome
      · rfl
    rw [hnone, append_nil, hsame]

/-- In a full last block whose first and last fields are skipped, the offset behind the
first one is noted instead of that behind the last one. -/
theorem marks_take_full (hlen : cells.length = 16 * (m + 1)) (hm : 0 < m)
    (hbefore : marks (cells.take (16 * m)) = blockStarts m) (hfirst : ¬ Written cells (16 * m))
    (hend : ¬ Written cells (16 * m + 15)) (hc : c ≤ 15) :
    marks (cells.take (16 * m + 1 + c)) = blockStarts m ++ [16 * m + 1] := by
  induction c with
  | zero =>
    obtain ⟨cell, hcell, hmarks⟩ := marks_take_succ (show 16 * m < cells.length by omega)
    rw [hmarks, hbefore, mark,
      if_neg (fun hsome => hfirst ((isSome_of_written hcell).mp hsome)), if_pos (by omega)]
  | succ c ih =>
    obtain ⟨cell, hcell, hmarks⟩ := marks_take_succ (show 16 * m + 1 + c < cells.length by omega)
    have hnone : mark (16 * m + 1 + c) cell = [] := by
      rw [mark]
      split_ifs with hsome hlast hstart
      · have hw := (isSome_of_written hcell).mp hsome
        rw [show 16 * m + 1 + c = 16 * m + 15 by omega] at hw
        exact absurd hw hend
      · rfl
      · omega
      · rfl
    rw [← add_assoc, hmarks, ih (by omega), hnone, append_nil]

/-- **The offsets are noted where the reader looks for them.** -/
theorem marks_of_blocksNoted (h : BlocksNoted cells.length cells) :
    (marks cells).length = cells.length / 16 ∧
      ∀ b, 16 * (b + 1) < cells.length → (marks cells)[b]? = some (16 * (b + 1)) := by
  have hstarts (m b : ℕ) (hb : b < m) : (blockStarts m)[b]? = some (16 * (b + 1)) := by
    rw [blockStarts, getElem?_map, getElem?_range hb, Option.map_some]
  by_cases hfull : ∃ m, cells.length = 16 * (m + 1) ∧ 0 < m ∧ ¬ Written cells (16 * m)
  · obtain ⟨m, hlen, hm, hfirst⟩ := hfull
    have hend : ¬ Written cells (16 * m + 15) := by
      have hiff := h.full (m + 1) (Nat.succ_pos m) hlen
      rw [hlen, show 16 * (m + 1) - 1 = 16 * m + 15 by omega] at hiff
      rw [hiff]
      rintro (hone | hw)
      · omega
      · exact hfirst hw
    have hbefore : marks (cells.take (16 * m)) = blockStarts m := by
      have hmarks := marks_take (show 16 * m ≤ cells.length by omega)
        (fun b hb hbc => h.last b hb (by omega)) fun b hb hbc => h.first b hb (by omega) (by omega)
      rwa [Nat.mul_div_cancel_left m (by decide)] at hmarks
    have hall := marks_take_full hlen hm hbefore hfirst hend (le_refl 15)
    rw [show 16 * m + 1 + 15 = cells.length by omega, take_length] at hall
    rw [hall]
    refine ⟨?_, fun b hb => ?_⟩
    · rw [length_append, blockStarts, length_map, length_range, length_singleton,
        hlen, Nat.mul_div_cancel_left _ (by decide)]
    · have hbm : b < m := by omega
      rw [getElem?_append_left (by simpa [blockStarts] using hbm), hstarts m b hbm]
  · -- every such field is written
    have hlast : ∀ b, 0 < b → 16 * b ≤ cells.length → Written cells (16 * b - 1) := by
      intro b hb hbn
      rcases lt_or_eq_of_le hbn with hlt | heq
      · exact h.last b hb hlt
      have hiff := h.full b hb heq.symm
      rw [← heq] at hiff
      refine hiff.mpr ?_
      by_contra hnot
      obtain ⟨hone, hw⟩ := not_or.mp hnot
      refine hfull ⟨b - 1, by omega, by omega, ?_⟩
      rwa [show 16 * (b - 1) = 16 * b - 16 by omega]
    have hfirst : ∀ b, 0 < b → 16 * b < cells.length → Written cells (16 * b) := by
      intro b hb hbn
      by_cases hend : 16 * (b + 1) = cells.length
      · by_contra hw
        exact hfull ⟨b, hend.symm, hb, hw⟩
      · exact h.first b hb hbn hend
    have hall := marks_take (le_refl _) hlast hfirst
    rw [take_length] at hall
    rw [hall]
    refine ⟨by rw [blockStarts, length_map, length_range], fun b hb => ?_⟩
    exact hstarts _ b (by omega)

end Marks

/-! ### The header -/

theorem occupiedBytes_pos (hk : 0 < k) (v : ℕ) : 0 < occupiedBytes k v := by
  cases k with
  | zero => cases hk
  | succ k =>
    rw [occupiedBytes]
    split_ifs
    · exact one_pos
    · exact Nat.succ_pos _

theorem lt_pow_occupiedBytes (h : v < 256 ^ k) (hk : 0 < k) : v < 256 ^ occupiedBytes k v := by
  induction k generalizing v with
  | zero => cases hk
  | succ k ih =>
    rw [occupiedBytes]
    split_ifs with hsmall
    · omega
    have hdiv : v / 256 < 256 ^ k := Nat.div_lt_of_lt_mul (by rw [← pow_succ']; exact h)
    have hk' : 0 < k := by
      rcases eq_zero_or_pos k with rfl | hk'
      · omega
      · exact hk'
    have hrest := ih hdiv hk'
    omega

theorem occupiedBytes_le (hj : 0 < j) (k : ℕ) (h : v < 256 ^ j) : occupiedBytes k v ≤ j := by
  induction k generalizing v j with
  | zero => exact Nat.zero_le j
  | succ k ih =>
    rw [occupiedBytes]
    split_ifs with hsmall
    · exact hj
    cases j with
    | zero => cases hj
    | succ j =>
      have hdiv : v / 256 < 256 ^ j := Nat.div_lt_of_lt_mul (by rw [← pow_succ']; exact h)
      have hj' : 0 < j := by
        rcases eq_zero_or_pos j with rfl | hj'
        · omega
        · exact hj'
      exact Nat.succ_le_succ (ih hj' hdiv)

theorem header_bits : ∀ a b : Fin 8,
    (UInt8.ofNat (a.val ||| b.val <<< 5) &&& 7).toNat = a.val ∧
      (UInt8.ofNat (a.val ||| b.val <<< 5) >>> 5).toNat = b.val := by
  decide

theorem take_drop_flatMap_ofNat {xs : List ℕ} (hx : xs[b]? = some x) (rest : List UInt8) :
    ((xs.flatMap (ofNat width) ++ rest).drop (width * b)).take width = ofNat width x := by
  induction xs generalizing b with
  | nil => cases hx
  | cons y xs ih =>
    rw [flatMap_cons, append_assoc]
    cases b with
    | zero =>
      cases hx
      rw [mul_zero, drop_zero, take_left' (length_ofNat width _)]
    | succ b =>
      have hdrop : width * (b + 1) = (ofNat width y).length + width * b := by
        rw [length_ofNat, Nat.mul_succ, add_comm]
      rw [hdrop, ← drop_drop, drop_left]
      exact ih hx

theorem length_flatMap_ofNat (xs : List ℕ) (width : ℕ) :
    (xs.flatMap (ofNat width)).length = width * xs.length := by
  induction xs with
  | nil => rfl
  | cons x xs ih =>
    rw [flatMap_cons, length_append, length_ofNat, ih, length_cons, Nat.mul_succ, add_comm]

structure Parts (schema : Schema) (row : List UInt8) (offsetBytes verBytes : ℕ)
    (blockOffsets : List ℕ) (data : List UInt8) : Prop where
  row_eq : row = UInt8.ofNat (offsetBytes - 1 ||| verBytes <<< 5) ::
    (ofNat verBytes schema.version.toUInt64.toNat ++
      (blockOffsets.flatMap (ofNat offsetBytes) ++ data))
  offsetBytes_pos : 0 < offsetBytes
  offsetBytes_le : offsetBytes ≤ 8
  verBytes_le : verBytes ≤ 4
  version : schema.version.toUInt64.toNat < 256 ^ verBytes
  data_lt : data.length < 256 ^ offsetBytes

theorem Parts.bits (h : Parts schema row offsetBytes verBytes blockOffsets data) :
    (UInt8.ofNat (offsetBytes - 1 ||| verBytes <<< 5) &&& 7).toNat + 1 = offsetBytes ∧
      (UInt8.ofNat (offsetBytes - 1 ||| verBytes <<< 5) >>> 5).toNat = verBytes := by
  have hpos := h.offsetBytes_pos
  have hle := h.offsetBytes_le
  have hver := h.verBytes_le
  obtain ⟨hlow, hhigh⟩ := header_bits ⟨offsetBytes - 1, by omega⟩ ⟨verBytes, by omega⟩
  refine ⟨?_, hhigh⟩
  rw [hlow]
  exact Nat.sub_add_cancel hpos

theorem toNat_toUInt64_of_nonneg {x : Int64} (h : 0 ≤ x.toInt) :
    (x.toUInt64.toNat : ℤ) = x.toInt := by
  have hbits : x.toInt = (x.toUInt64.toNat : ℤ).bmod (2 ^ 64) := by
    exact BitVec.toInt_eq_toNat_bmod _
  have hlt := x.toUInt64.toNat_lt
  rw [hbits] at h ⊢
  rw [Int.bmod_def] at h ⊢
  split_ifs at h ⊢ <;> omega

section

variable (h : Parts schema row offsetBytes verBytes blockOffsets data)
include h

theorem Parts.exists_ver (hversion : 0 ≤ schema.version.toInt ∧ schema.version.toInt < 2 ^ 31) :
    ∃ ver, getSchemaVer row = some ver ∧ ver.toInt = schema.version.toInt := by
  have hnat := toNat_toUInt64_of_nonneg hversion.1
  have hlen : ¬ (ofNat verBytes schema.version.toUInt64.toNat ++
      (blockOffsets.flatMap (ofNat offsetBytes) ++ data)).length < verBytes := by
    rw [length_append, length_ofNat]
    omega
  refine ⟨.ofInt schema.version.toUInt64.toNat, ?_, ?_⟩
  · rw [h.row_eq]
    unfold getSchemaVer
    simp only [h.bits.2, if_neg hlen, if_neg (not_lt.mpr h.verBytes_le),
      take_left' (length_ofNat verBytes _), toNat_ofNat h.version]
  · rw [hnat, Int32.toInt_ofInt_of_le (by omega) (by omega)]

theorem Parts.blockOffset_eq (hsize : data.length < 2 ^ 63) (hx : blockOffsets[b]? = some x)
    (hle : x ≤ data.length) : Dataman.blockOffset row (1 + verBytes) offsetBytes b = x := by
  have hdrop : row.drop (1 + verBytes + offsetBytes * b) =
      (blockOffsets.flatMap (ofNat offsetBytes) ++ data).drop (offsetBytes * b) := by
    rw [h.row_eq, add_assoc, add_comm 1, drop_succ_cons, ← drop_drop,
      drop_left' (length_ofNat verBytes _)]
  have hread : toNat ((row.drop (1 + verBytes + offsetBytes * b)).take offsetBytes) = x := by
    rw [hdrop, take_drop_flatMap_ofNat hx, toNat_ofNat (lt_of_le_of_lt hle h.data_lt)]
  unfold Dataman.blockOffset
  simp only [hread]
  exact Int.bmod_eq_of_le (by omega) (by omega)

end

/-- **A row is opened** if the offsets of its blocks are there. -/
theorem Parts.tracks {chunks : List (List UInt8)}
    (h : Parts schema row offsetBytes verBytes blockOffsets chunks.flatten)
    (hversion : 0 ≤ schema.version.toInt ∧ schema.version.toInt < 2 ^ 31)
    (hsize : chunks.flatten.length < 2 ^ 63) (hchunks : chunks.length = schema.numFields)
    (hcount : blockOffsets.length = schema.numFields / 16)
    (hblocks : ∀ b, 16 * (b + 1) < schema.numFields →
      blockOffsets[b]? = some (offsetOf chunks (16 * (b + 1)))) :
    ∃ r, getRowReader schema row = some r ∧ Tracks schema chunks r := by
  obtain ⟨ver, hver, heq⟩ := h.exists_ver hversion
  have hlen : row.length =
      1 + verBytes + offsetBytes * (schema.numFields / 16) + chunks.flatten.length := by
    rw [h.row_eq, length_cons, length_append, length_ofNat, length_append,
      length_flatMap_ofNat, hcount]
    omega
  have hdata : row.drop (1 + verBytes + offsetBytes * (schema.numFields / 16)) =
    chunks.flatten := by
    rw [h.row_eq, add_assoc, add_comm 1, drop_succ_cons, ← drop_drop,
      drop_left' (length_ofNat verBytes _), ← hcount, ← length_flatMap_ofNat, drop_left]
  have hends : offsetOf chunks schema.numFields = chunks.flatten.length :=
    offsetOf_of_length_le hchunks.le
  have hopen : ∃ r, processHeader schema row = some r ∧ r.schema = schema ∧
      r.data = chunks.flatten ∧ (∀ b, r.visited b = 0) ∧ ∀ j, r.offsets j =
        if j = schema.numFields then ↑(offsetOf chunks schema.numFields)
        else if j = 0 then 0
        else if j % 16 = 0 then Dataman.blockOffset row (1 + verBytes) offsetBytes (j / 16 - 1)
        else -1 := by
    obtain ⟨hlow, hhigh⟩ := h.bits
    have hshort : ¬ row.length < 1 + verBytes + offsetBytes * (schema.numFields / 16) := by omega
    have hsub : (row.length : ℤ) - (1 + verBytes + offsetBytes * (schema.numFields / 16) : ℕ) =
        ↑(offsetOf chunks schema.numFields) := by
      omega
    obtain ⟨header, rest, hrow⟩ : ∃ header rest, row = header :: rest := ⟨_, _, h.row_eq⟩
    have hheader : header = UInt8.ofNat (offsetBytes - 1 ||| verBytes <<< 5) :=
      (cons.inj (hrow.symm.trans h.row_eq)).1
    rw [← hheader] at hlow hhigh
    have hprocess : processHeader schema row = some {
        schema := schema
        data := row.drop (1 + verBytes + offsetBytes * (schema.numFields / 16))
        offsets := fun j =>
          if j = schema.numFields then
            row.length - (1 + verBytes + offsetBytes * (schema.numFields / 16) : ℕ)
          else if j = 0 then 0
          else if j % 16 = 0 then Dataman.blockOffset row (1 + verBytes) offsetBytes (j / 16 - 1)
          else -1
        visited := fun _ => 0 } := by
      rw [hrow] at hshort ⊢
      unfold processHeader
      simp only [hlow, hhigh, if_neg hshort]
    refine ⟨_, hprocess, rfl, hdata, fun _ => rfl, fun j => ?_⟩
    simp only [hsub]
  obtain ⟨r, hr, hschema, hrdata, hvisited, hoffsets⟩ := hopen
  have hstarts (b : ℕ) (hb : 16 * b ≤ schema.numFields) :
      r.offsets (16 * b) = offsetOf chunks (16 * b) := by
    rw [hoffsets]
    split_ifs with hn hzero hmod
    · rw [← hn]
    · rw [hzero]
      rfl
    · have hlast : 16 * (16 * b / 16 - 1 + 1) = 16 * b := by omega
      have hb' := hblocks (16 * b / 16 - 1) (by omega)
      rw [hlast] at hb'
      refine h.blockOffset_eq hsize hb' ?_
      rw [← hends]
      exact offsetOf_mono chunks hb
    · omega
  refine ⟨r, ?_, hschema, hrdata, ?_, ?_, hstarts, ?_⟩
  · rw [getRowReader, hver]
    simp [if_pos heq, hr]
  · intro j hj hpos
    by_cases hmod : j % 16 = 0
    · have hj' : 16 * (j / 16) = j := by omega
      have hstart := hstarts (j / 16) (by omega)
      rwa [hj'] at hstart
    rw [hoffsets] at hpos ⊢
    split_ifs at hpos ⊢ with hn hzero
    · rw [hn]
    · omega
    · omega
  · rw [hoffsets, if_pos rfl]
  · intro b j hj hb
    rw [hvisited, Nat.le_zero] at hj
    subst hj
    exact hstarts b hb

/-! ### Round trips -/

section RoundTrip

variable {casts : FloatCasts} {schema : Schema} {cells : List Cell} {type : SupportedType}

theorem Schema.fieldIndex_eq_some (h : schema.fields[i]? = some (name, type)) :
    schema.fieldIndex name = some i := by
  obtain ⟨hi, hfield⟩ := List.getElem?_eq_some_iff.mp h
  rw [fieldIndex, findIdx?_eq_some_iff_getElem]
  refine ⟨hi, by simp [hfield], fun j hj => ?_⟩
  have hne : (schema.fields.map Prod.fst)[j]? ≠ (schema.fields.map Prod.fst)[i]? := by
    intro heq
    have hji := (getElem?_inj (by rw [length_map]; omega) schema.names).mp heq
    omega
  rw [getElem?_map, getElem?_map, h, getElem?_eq_getElem (by omega)] at hne
  simpa using hne

variable {steps : List Step}

/-- The values of the fields. -/
def valuesOf (casts : FloatCasts) (schema : Schema) (cells : List Cell) : List Value :=
  cells.mapIdx fun i cell => (held casts cell (schema.typeAt i)).getD (zero (schema.typeAt i))

theorem Aligned.row (h : Aligned casts schema cells) (hlen : cells.length = schema.numFields) :
    Row schema (valuesOf casts schema cells) (chunks casts schema cells) where
  length_values := by rw [valuesOf, length_mapIdx, hlen]
  length_chunks := by rw [length_chunks, hlen]
  encoded := by
    intro i v chunk hv hchunk
    rw [valuesOf, getElem?_mapIdx, Option.map_eq_some_iff] at hv
    rw [chunks, getElem?_mapIdx, Option.map_eq_some_iff] at hchunk
    obtain ⟨cell, hcell, rfl⟩ := hv
    obtain ⟨cell', hcell', rfl⟩ := hchunk
    obtain rfl : cell = cell' := Option.some.inj (hcell.symm.trans hcell')
    cases hheld : held casts cell (schema.typeAt i) with
    | some v =>
      refine encoded_cellBytes hheld fun s hs => ?_
      rw [hs] at hcell
      exact h.strings i s hcell
    | none =>
      cases cell with
      | none => cases hheld
      | some v =>
        -- the bytes are those of a field that is skipped
        have hzero : held casts none (schema.typeAt i) = some (zero (schema.typeAt i)) := rfl
        rw [cellBytes, h.types i v hcell hheld]
        exact encoded_cellBytes hzero fun s hs => nomatch hs

theorem Aligned.parts (h : Aligned casts schema cells) {w : RowWriter}
    (hw : Holds casts schema (w.skip schema (schema.numFields - w.colNum)) cells) :
    ∃ offsetBytes verBytes, Parts schema (w.encode schema) offsetBytes verBytes
      ((marks cells).map (offsetOf (chunks casts schema cells)))
      (chunks casts schema cells).flatten := by
  have hnat := toNat_toUInt64_of_nonneg h.version.1
  have hver : schema.version.toUInt64.toNat < 2 ^ 31 := by
    have hlt := h.version.2
    omega
  refine ⟨calcOccupiedBytes (chunks casts schema cells).flatten.length,
    if 0 < schema.version then calcOccupiedBytes schema.version.toUInt64.toNat else 0, ?_, ?_, ?_,
    ?_, ?_, ?_⟩
  · rw [RowWriter.encode, hw.cord, hw.blockOffsets]
  · exact occupiedBytes_pos (by decide) _
  · exact occupiedBytes_le (by decide) 8 (lt_trans h.size (by decide))
  · split_ifs
    · exact occupiedBytes_le (by decide) 8 (lt_trans hver (by decide))
    · exact Nat.zero_le _
  · split_ifs with hpos
    · exact lt_pow_occupiedBytes (lt_trans hver (by decide)) (by decide)
    -- the version is zero, and nothing is written for it
    have hzero : schema.version.toInt ≤ 0 := by
      rw [Int64.lt_iff_toInt_lt, not_lt] at hpos
      exact hpos
    omega
  · exact lt_pow_occupiedBytes (lt_trans h.size (by decide)) (by decide)

/-- **The row is opened** by a reader that knows nothing wrong. -/
theorem Aligned.opens (h : Aligned casts schema (cellsOf schema.numFields steps))
    (hrun : RowWriter.run casts schema steps = some w) :
    ∃ r, getRowReader schema (w.encode schema) = some r ∧
      Row schema (valuesOf casts schema (cellsOf schema.numFields steps))
        (chunks casts schema (cellsOf schema.numFields steps)) ∧
      Tracks schema (chunks casts schema (cellsOf schema.numFields steps)) r := by
  have hw := holds_of_run hrun
  have hle := hw.le
  have hlen : (cellsOf schema.numFields steps).length = schema.numFields := by
    rw [cellsOf] at hle ⊢
    simp only [length_append, length_replicate] at hle ⊢
    omega
  have hrow := h.row hlen
  obtain ⟨offsetBytes, verBytes, hparts⟩ := h.parts hw
  have hblocks : BlocksNoted (cellsOf schema.numFields steps).length
      (cellsOf schema.numFields steps) := by
    rw [hlen]
    exact h.blocks
  obtain ⟨hcount, hmarks⟩ := marks_of_blocksNoted hblocks
  rw [hlen] at hcount hmarks
  obtain ⟨r, hopen, htracks⟩ := hparts.tracks h.version h.size hrow.length_chunks
    (by rw [length_map, hcount])
    fun b hb => by rw [getElem?_map, hmarks b hb, Option.map_some]
  exact ⟨r, hopen, hrow, htracks⟩

/-- **A field is read** by index and by name. -/
theorem Tracks.get_cell (h : Tracks schema (chunks casts schema cells) r)
    (hrow : Row schema (valuesOf casts schema cells) (chunks casts schema cells))
    (hfield : schema.fields[i]? = some (name, type)) (hcell : cells[i]? = some cell) :
    ∃ r', r.get casts type.getter i = some (.ok ((held casts cell type).getD (zero type)), r') ∧
      r.getByName casts type.getter name =
        some (.ok ((held casts cell type).getD (zero type)), r') := by
  have hi : i < schema.numFields := (List.getElem?_eq_some_iff.mp hfield).1
  have htype : schema.typeAt i = type := by
    rw [Schema.typeAt, Schema.fieldType, hfield, Option.map_some, Option.getD_some]
  have hvalue : (valuesOf casts schema cells)[i]? =
      some ((held casts cell (schema.typeAt i)).getD (zero (schema.typeAt i))) := by
    rw [valuesOf, getElem?_mapIdx, hcell, Option.map_some]
  obtain ⟨r', hget, -⟩ := h.get hrow hi hvalue
  rw [htype] at hget
  refine ⟨r', hget, ?_⟩
  rw [RowReader.getByName, h.schema_eq, Schema.fieldIndex_eq_some hfield]
  exact hget

/-- **Round trip.**  A row is read back if the version and the strings are short enough, the
values go with the types, and no field at the end or at the beginning of a block is skipped
(but for both, of a full last block). -/
theorem roundTrip_of_codable (casts : FloatCasts) (schema : Schema) (steps : List Step)
    {w : RowWriter} (hrun : RowWriter.run casts schema steps = some w)
    (h : Codable casts schema (cellsOf schema.numFields steps)) :
    RoundTrip casts schema (cellsOf schema.numFields steps) (w.encode schema) := by
  obtain ⟨r, hopen, hrow, htracks⟩ := h.aligned.opens hrun
  refine ⟨r, hopen, fun accesses => ?_⟩
  obtain ⟨r', hreads, htracks'⟩ := htracks.run casts hrow accesses
  refine ⟨r', hreads, fun i name type cell hfield hcell => ?_⟩
  obtain ⟨r'', hget, hname⟩ := htracks'.get_cell hrow hfield hcell
  refine ⟨_, r'', ?_, hget, hname⟩
  cases cell with
  | none => rfl
  | some v =>
    have htype : schema.typeAt i = type := by
      rw [Schema.typeAt, Schema.fieldType, hfield, Option.map_some, Option.getD_some]
    obtain ⟨value, hvalue⟩ := Option.ne_none_iff_exists'.mp (h.types i v hcell)
    rw [htype] at hvalue
    show stored casts v type = some ((stored casts v type).getD _)
    rw [hvalue, Option.getD_some]

/-- **A value that does not go with its field does not touch the others**, if it leaves what
`Skip` would. -/
theorem contained_of_aligned (casts : FloatCasts) (schema : Schema) (steps : List Step)
    {w : RowWriter} (hrun : RowWriter.run casts schema steps = some w)
    (h : Aligned casts schema (cellsOf schema.numFields steps)) :
    Contained casts schema (cellsOf schema.numFields steps) (w.encode schema) := by
  obtain ⟨r, hopen, hrow, htracks⟩ := h.opens hrun
  refine ⟨r, hopen, fun accesses => ?_⟩
  obtain ⟨r', hreads, htracks'⟩ := htracks.run casts hrow accesses
  exact ⟨r', hreads, fun i name type cell hfield hcell =>
    htracks'.get_cell hrow hfield hcell⟩

end RoundTrip

/-! ### Rows of seventeen and of eighteen fields -/

def zeroCasts : FloatCasts := ⟨fun _ => 0, fun _ => 0⟩

/-- A schema with a number of integers. -/
def intSchema (h : ((List.range n).map fun i => [UInt8.ofNat i]).Nodup) : Schema where
  version := 300
  fields := (List.range n).map fun i => ([UInt8.ofNat i], .int)
  names := by
    rw [map_map]
    exact h

/-- Ones are written to the first fields. -/
def ones : List Step := List.replicate n (.write (.int 1))

/-- Seventeen of eighteen fields are written and read back. -/
theorem roundTrip_ones :
    ∃ w, RowWriter.run zeroCasts (intSchema 18 (by decide)) (ones 17) = some w ∧
      RoundTrip zeroCasts (intSchema 18 (by decide)) (cellsOf 18 (ones 17))
        (w.encode (intSchema 18 (by decide))) := by
  have hcells : cellsOf 18 (ones 17) = replicate 17 (some (.int 1)) ++ [none] := by decide
  refine ⟨_, rfl, roundTrip_of_codable zeroCasts (intSchema 18 (by decide)) (ones 17) rfl ?_⟩
  have hmem {i : ℕ} {v : Value} (h : (cellsOf 18 (ones 17))[i]? = some (some v)) :
      i < 18 ∧ v = .int 1 := by
    have hlt := (List.getElem?_eq_some_iff.mp h).1
    have hv := mem_of_getElem? h
    rw [hcells] at hlt hv
    refine ⟨hlt, ?_⟩
    simpa using hv
  refine ⟨by decide, fun i v h => ?_, fun i s h => ?_, by decide +kernel, ?_⟩
  · obtain ⟨hi, rfl⟩ := hmem h
    have htype : ∀ i < 18, (intSchema 18 (by decide)).typeAt i = .int := by decide
    rw [htype i hi]
    exact Option.some_ne_none _
  · cases (hmem h).2
  refine ⟨fun b hb hlt => ?_, fun b hb hlt _ => ?_, fun m hm heq => ?_⟩
  · obtain rfl : b = 1 := by change 16 * b < 18 at hlt; omega
    exact ⟨.int 1, by decide⟩
  · obtain rfl : b = 1 := by change 16 * b < 18 at hlt; omega
    exact ⟨.int 1, by decide⟩
  · change 18 = 16 * m at heq
    omega

/-- Sixteen of seventeen fields are written.  The offset of the second block is noted twice,
so that a byte of the header is taken for the first field. -/
theorem not_roundTrip_ones :
    ∃ w, RowWriter.run zeroCasts (intSchema 17 (by decide)) (ones 16) = some w ∧
      ¬ RoundTrip zeroCasts (intSchema 17 (by decide)) (cellsOf 17 (ones 16))
        (w.encode (intSchema 17 (by decide))) := by
  have hfirst : ((getRowReader (intSchema 17 (by decide))
      (RowWriter.encode (intSchema 17 (by decide)) ⟨replicate 16 1, 16, [16]⟩)).bind fun r =>
        (r.get zeroCasts .int 0).map fun x => x.1.toOption) = some (some (.int 17)) := by
    decide +kernel
  refine ⟨⟨replicate 16 1, 16, [16]⟩, by decide, ?_⟩
  rintro ⟨r, hopen, hread⟩
  obtain ⟨r', hrun, hfields⟩ := hread []
  obtain rfl : r = r' := Option.some.inj hrun
  obtain ⟨v, r'', hheld, hget, -⟩ := hfields 0 [0] .int (some (.int 1)) (by decide) (by decide)
  cases hheld
  change r.get zeroCasts .int 0 = _ at hget
  rw [hopen, Option.bind_some, hget] at hfirst
  cases hfirst

/-- A string and two integers are written to three integers. -/
def mistyped : List Step := [.write (.string [7]), .write (.int 1), .write (.int 2)]

theorem aligned_mistyped :
    Aligned zeroCasts (intSchema 3 (by decide)) (cellsOf 3 mistyped) := by
  have hcells : cellsOf 3 mistyped = [some (.string [7]), some (.int 1), some (.int 2)] := by
    decide
  have htype : ∀ i < 3, (intSchema 3 (by decide)).typeAt i = .int := by decide
  have hlt {i : ℕ} {cell : Cell} (h : (cellsOf 3 mistyped)[i]? = some cell) : i < 3 := by
    exact (List.getElem?_eq_some_iff.mp h).1
  refine ⟨by decide, fun i v hv hnone => ?_, fun i s hs hstring => ?_, by decide, ?_⟩
  · rw [htype i (hlt hv)] at hnone ⊢
    cases v with
    | string s => rfl
    | int v => cases hnone
    | _ =>
      have hmem := mem_of_getElem? hv
      simp [hcells] at hmem
  · rw [htype i (hlt hs)] at hstring
    cases hstring
  · refine ⟨fun b hb hn => ?_, fun b hb hn => ?_, fun m hm hn => ?_⟩
    · change 16 * b < 3 at hn
      omega
    · change 16 * b < 3 at hn
      omega
    · change 3 = 16 * m at hn
      omega

theorem contained_mistyped :
    ∃ w, RowWriter.run zeroCasts (intSchema 3 (by decide)) mistyped = some w ∧
      Contained zeroCasts (intSchema 3 (by decide)) (cellsOf 3 mistyped)
        (w.encode (intSchema 3 (by decide))) :=
  ⟨_, rfl, contained_of_aligned zeroCasts (intSchema 3 (by decide)) mistyped rfl
    aligned_mistyped⟩

/-- A number that is not an integer leaves eight bytes where the reader looks for one. -/
theorem not_contained_double :
    ∃ w, RowWriter.run zeroCasts (intSchema 2 (by decide))
        [.write (.double 7), .write (.int 1)] = some w ∧
      ¬ Contained zeroCasts (intSchema 2 (by decide)) [some (.double 7), some (.int 1)]
        (w.encode (intSchema 2 (by decide))) := by
  have hsecond : ((getRowReader (intSchema 2 (by decide))
      (RowWriter.encode (intSchema 2 (by decide)) ⟨replicate 8 0 ++ [1], 2, []⟩)).bind
        fun r => (r.get zeroCasts .int 1).map fun x => x.1.toOption) = some (some (.int 0)) := by
    decide +kernel
  refine ⟨⟨replicate 8 0 ++ [1], 2, []⟩, by decide, ?_⟩
  rintro ⟨r, hopen, hread⟩
  obtain ⟨r', hrun, hfields⟩ := hread []
  obtain rfl : r = r' := Option.some.inj hrun
  obtain ⟨r'', hget, -⟩ := hfields 1 [1] .int (some (.int 1)) (by decide) (by decide)
  change r.get zeroCasts .int 1 = _ at hget
  rw [hopen, Option.bind_some, hget] at hsecond
  cases hsecond

end K2Graph.Dataman
