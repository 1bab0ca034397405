import K2Graph.Lib.Distinct
import K2Graph.Graphd.InterimResult

/-!
# UNION, INTERSECT and MINUS

A set operator takes the results of two sentences.  Where both have rows, the rows of the right
one are cast to the types of the left one and the operator goes through the rows; where one has
none, it is left to a shortcut.  The shortcut of UNION hands on the rows of the other side as
they are, so what they hold twice stays there twice.

## Main results

* `count_intersect`, `minus_eq_filter` — the loops of INTERSECT and MINUS.
* `means_iff` — when an operator yields what it stands for.
-/

namespace K2Graph.Graphd

open List InterimResult

open Filter (Bytes Double)

/-! ### The operators -/

/-- `SetSentence::Operator`, with `distinct` for UNION. -/
inductive SetOperator
  | union (distinct : Bool)
  | intersect
  | minus

/-- How an operator fails. -/
inductive SetError
  /-- "Get null input." -/
  | nullInput
  /-- "Field count not match." -/
  | fieldCount
  /-- "Casting from string .. failed." -/
  | casting

/-- The columns and rows of the response. -/
structure SetResult where
  colNames : List Bytes
  rows : List Row

/-- `checkSchema`: the columns to cast, with the types of the left side. -/
def checkSchema (index : ℕ) : List SupportedType → List SupportedType →
    Except SetError (List (ℕ × SupportedType))
  | [], [] => .ok []
  | l :: left, r :: right =>
      match checkSchema (index + 1) left right with
      | .error e => .error e
      | .ok rest => .ok (if l ≠ r then (index, l) :: rest else rest)
  | _, _ => .error .fieldCount

/-- `doCasting` of one row. -/
def castRow (casts : Casts) : List (ℕ × SupportedType) → Row → Except SetError Row
  | [], cols => .ok cols
  | (index, type) :: castingMap, cols =>
      match cols[index]?.bind (castTo casts · type) with
      | none => .error .casting
      | some col => castRow casts castingMap (cols.set index col)

def doCasting (casts : Casts) (castingMap : List (ℕ × SupportedType)) :
    List Row → Except SetError (List Row)
  | [] => .ok []
  | row :: rows =>
      match castRow casts castingMap row with
      | .error e => .error e
      | .ok row =>
          match doCasting casts castingMap rows with
          | .error e => .error e
          | .ok rows => .ok (row :: rows)

/-- The rows of the right side, cast to the types of the left side. -/
def castRight (casts : Casts) (left right : InterimResult) : Except SetError (List Row) :=
  match checkSchema 0 left.schema right.schema with
  | .error e => .error e
  | .ok castingMap => doCasting casts castingMap right.rows

/-- The search of `doIntersect`: the first row that equals `lr` is moved away, and a row
without columns is left in its place. -/
def takeRow (lr : Row) : List Row → Option (Row × List Row)
  | [] => none
  | rr :: right =>
      if rowEq rr lr then some (rr, [] :: right)
      else (takeRow lr right).map fun p => (p.1, rr :: p.2)

/-- The loop of `doIntersect`. -/
def intersect : List Row → List Row → List Row
  | [], _ => []
  | lr :: left, right =>
      match takeRow lr right with
      | some (rr, right) => rr :: intersect left right
      | none => intersect left right

/-- The loop of `doMinus`. -/
def minus (left right : List Row) : List Row :=
  right.foldl (fun left rr => left.filter fun lr => !rowEq rr lr) left

section Execute

variable (sort : StdSort rowLt) (casts : Casts) (left right : InterimResult)

/-- The rows of both sides with an operation on them. -/
def combine (op : List Row → List Row → List Row) : Except SetError SetResult :=
  match castRight casts left right with
  | .error e => .error e
  | .ok rightRows => .ok ⟨left.colNames, op left.rows rightRows⟩

def doUnion (isDistinct : Bool) : Except SetError SetResult :=
  if !left.hasData then .ok ⟨left.colNames, right.rows⟩
  else if !right.hasData then .ok ⟨left.colNames, left.rows⟩
  else
    combine casts left right fun leftRows rightRows =>
      if isDistinct then distinct sort rowEq (leftRows ++ rightRows) else leftRows ++ rightRows

def doIntersect : Except SetError SetResult :=
  if !left.hasData || !right.hasData then .ok ⟨left.colNames, []⟩
  else combine casts left right intersect

def doMinus : Except SetError SetResult :=
  if !left.hasData then .ok ⟨left.colNames, []⟩
  else if !right.hasData then .ok ⟨left.colNames, left.rows⟩
  else combine casts left right minus

/-- `execute`, after both sides have finished without an error. -/
def execute (op : SetOperator) (left right : Option InterimResult) : Except SetError SetResult :=
  match left, right with
  | some left, some right =>
      if left.colNames.length ≠ right.colNames.length then .error .fieldCount
      else if !left.hasData && !right.hasData then .ok ⟨left.colNames, []⟩
      else
        match op with
        | .union isDistinct => doUnion sort casts left right isDistinct
        | .intersect => doIntersect casts left right
        | .minus => doMinus casts left right
  | _, _ => .error .nullInput

end Execute

/-! ### Casting -/

variable {casts : Casts} {row : Row} {rows : List Row}

/-- Casting the columns after those of `done` gives them the types of the left side. -/
theorem castRow_types (done : Row) (hcheck : checkSchema done.length left right = .ok castingMap)
    (htypes : rowTypes row = right) (hcast : castRow casts castingMap (done ++ row) = .ok row') :
    ∃ cast, row' = done ++ cast ∧ rowTypes cast = left := by
  induction left generalizing right castingMap done row with
  | nil =>
    cases right with
    | cons r right => cases hcheck
    | nil =>
      cases hcheck
      cases hcast
      exact ⟨row, rfl, htypes⟩
  | cons l left ih =>
    cases right with
    | nil => cases hcheck
    | cons r right =>
      cases row with
      | nil => cases htypes
      | cons col row =>
        obtain ⟨htype, htypes⟩ := cons.inj htypes
        have hlength (col : ColumnValue) : (done ++ [col]).length = done.length + 1 := by simp
        simp only [checkSchema] at hcheck
        split at hcheck
        · cases hcheck
        rename_i rest hrest
        cases hcheck
        by_cases hlr : l = r
        · -- the column has the right type already
          simp only [hlr, ne_eq] at hcast
          rw [append_cons] at hcast
          rw [← hlength col] at hrest
          obtain ⟨cast, rfl, hleft⟩ := ih _ hrest htypes hcast
          exact ⟨col :: cast, by simp, by
            rw [hlr]
            exact congrArg₂ cons htype hleft⟩
        · simp only [hlr, ne_eq, not_false_eq_true, ↓reduceIte, castRow] at hcast
          split at hcast
          · cases hcast
          rename_i new hnew
          simp only [getElem?_append_right le_rfl, Nat.sub_self] at hnew
          have hset : (done ++ col :: row).set done.length new = done ++ [new] ++ row := by
            simp
          rw [hset] at hcast
          rw [← hlength new] at hrest
          obtain ⟨cast, rfl, hleft⟩ := ih _ hrest htypes hcast
          exact ⟨new :: cast, by simp, congrArg₂ cons (castTo_type hnew) hleft⟩

theorem doCasting_types (hcheck : checkSchema 0 left right = .ok castingMap)
    (htypes : ∀ row ∈ rows, rowTypes row = right)
    (h : doCasting casts castingMap rows = .ok rows') :
    ∀ row ∈ rows', rowTypes row = left := by
  induction rows generalizing rows' with
  | nil =>
    cases h
    nofun
  | cons first rows ih =>
    intro row hrow
    simp only [doCasting] at h
    split at h
    · cases h
    rename_i cast hcast
    split at h
    · cases h
    rename_i rest hrest
    cases h
    rcases mem_cons.mp hrow with rfl | hrow
    · obtain ⟨row', heq, hleft⟩ := castRow_types [] hcheck
        (htypes first mem_cons_self) hcast
      rw [heq]
      exact hleft
    · exact ih (fun r hr => htypes r (mem_cons_of_mem _ hr)) hrest row hrow

/-! ### The loops -/

def count (row : Row) (rows : List Row) : ℕ := rows.countP fun r => rowEq r row

@[simp] theorem count_nil (row : Row) : count row [] = 0 := rfl

@[simp] theorem count_cons (row r : Row) (rows : List Row) :
    count row (r :: rows) = count row rows + if rowEq r row then 1 else 0 :=
  countP_cons

/-- What `takeRow` leaves has one row less of the kind it takes, and the others as they were. -/
theorem takeRow_eq_some (row : Row) (hrow : row ≠ []) (h : takeRow lr right = some (rr, right')) :
    rowEq rr lr = true ∧ count row right = count row right' + if rowEq rr row then 1 else 0 := by
  have hempty : rowEq [] row = false := by
    cases row with
    | nil => exact absurd rfl hrow
    | cons x row => rfl
  induction right generalizing right' with
  | nil => cases h
  | cons r right ih =>
    simp only [takeRow] at h
    split at h
    · cases h
      rename_i hr
      exact ⟨hr, by simp [hempty]⟩
    obtain ⟨⟨rr', right''⟩, hp, heq⟩ := Option.map_eq_some_iff.mp h
    cases heq
    obtain ⟨hrr, hcount⟩ := ih hp
    refine ⟨hrr, ?_⟩
    show count row (r :: right) = count row (r :: right'') + _
    rw [count_cons, count_cons]
    omega

theorem count_eq_zero_of_takeRow (hlr : rowEq lr row = true) (h : takeRow lr right = none) :
    count row right = 0 := by
  induction right with
  | nil => rfl
  | cons r right ih =>
    simp only [takeRow] at h
    split at h
    · cases h
    rename_i hr
    rw [Option.map_eq_none_iff] at h
    have hrow : rowEq r row = false := by
      rw [rowEq_comm, ← rowEq_congr hlr, rowEq_comm]
      simpa using hr
    rw [count_cons, ih h, hrow]
    rfl

theorem count_intersect (hrow : row ≠ []) (left : List Row) :
    ∀ right : List Row,
      count row (intersect left right) = min (count row left) (count row right) := by
  induction left with
  | nil =>
    simp [intersect]
  | cons lr left ih =>
    intro right
    simp only [intersect]
    split
    · rename_i rr right' htake
      obtain ⟨hrr, hcount⟩ := takeRow_eq_some row hrow htake
      rw [count_cons, count_cons, ih, hcount, ← rowEq_congr hrr row]
      split <;> omega
    · rename_i htake
      rw [ih]
      by_cases hlr : rowEq lr row = true
      · simp [count_eq_zero_of_takeRow hlr htake]
      · simp [hlr]

theorem exists_left_of_mem_intersect (h : row ∈ intersect left right) :
    ∃ lr ∈ left, rowEq row lr = true := by
  induction left generalizing right with
  | nil => cases h
  | cons lr left ih =>
    simp only [intersect] at h
    split at h
    · rename_i rr right' htake
      rcases mem_cons.mp h with rfl | h
      · exact ⟨lr, mem_cons_self, (takeRow_eq_some [.boolVal true] nofun htake).1⟩
      · obtain ⟨lr', hlr, heq⟩ := ih h
        exact ⟨lr', mem_cons_of_mem _ hlr, heq⟩
    · obtain ⟨lr', hlr, heq⟩ := ih h
      exact ⟨lr', mem_cons_of_mem _ hlr, heq⟩

theorem minus_eq_filter (right : List Row) : ∀ left : List Row,
    minus left right = left.filter fun lr => right.all fun rr => !rowEq rr lr := by
  induction right with
  | nil =>
    simp [minus]
  | cons rr right ih =>
    intro left
    have hstep : minus left (rr :: right) = minus (left.filter fun lr => !rowEq rr lr) right := rfl
    rw [hstep, ih, filter_filter]
    congr 1
    funext lr
    rw [all_cons, Bool.and_comm]

theorem isNumeric_of_count_pos (h : 0 < count row rows) : IsNumeric row := by
  obtain ⟨r, -, hr⟩ := countP_pos_iff.mp h
  refine rowEq_self_iff.mp (rowEq_trans ?_ hr)
  rwa [rowEq_comm]

theorem forall_count_eq_one_iff :
    (∀ row ∈ rows, count row rows = 1) ↔
      (∀ row ∈ rows, IsNumeric row) ∧ rows.Pairwise fun a b => rowEq a b = false := by
  constructor
  · intro h
    have hnumeric : ∀ row ∈ rows, IsNumeric row :=
      fun row hrow => isNumeric_of_count_pos (by rw [h row hrow]; exact one_pos)
    refine ⟨hnumeric, pairwise_iff_forall_sublist.mpr ?_⟩
    intro a b hab
    by_contra heq
    have hb : b ∈ rows := hab.subset (by simp)
    have htwo : count b [a, b] ≤ count b rows := hab.countP_le
    rw [h b hb] at htwo
    simp [heq, rowEq_self_iff.mpr (hnumeric b hb)] at htwo
  rintro ⟨hnumeric, hpair⟩ row hrow
  have hself := rowEq_self_iff.mpr (hnumeric row hrow)
  obtain ⟨front, back, rfl⟩ := append_of_mem hrow
  rw [pairwise_append, pairwise_cons] at hpair
  have hfront : count row front = 0 := by
    refine countP_eq_zero.mpr fun r hr => ?_
    simp [hpair.2.2 r hr row mem_cons_self]
  have hback : count row back = 0 := by
    refine countP_eq_zero.mpr fun r hr => ?_
    rw [rowEq_comm]
    simp [hpair.2.1.1 r hr]
  show (front ++ row :: back).countP _ = 1
  rw [countP_append]
  show count row front + count row (row :: back) = 1
  rw [count_cons, hfront, hback, hself]
  rfl

/-! ### What the operators stand for -/

section Means

variable (sort : StdSort rowLt) (casts : Casts) (op : SetOperator)
  (left right : Option InterimResult)

/-- The rows of the left side; a side that is absent has none. -/
def leftRows : List Row :=
  match left with
  | none => []
  | some left => left.rows

/-- The rows of the right side, cast to the types of the left side where it has data. -/
def rightRows : List Row :=
  match left, right with
  | _, none => []
  | none, some right => right.rows
  | some left, some right =>
      if left.hasData then
        match castRight casts left right with
        | .ok rows => rows
        | .error _ => []
      else right.rows

/-- The columns are compatible: there are as many on both sides, and those of the right side
can be cast. -/
def Compatible : Prop :=
  match left, right with
  | some left, some right =>
      left.colNames.length = right.colNames.length ∧
        (left.hasData = true → right.hasData = true →
          ∃ rows, castRight casts left right = .ok rows)
  | _, _ => True

def SetOperator.Yields (left right rows : List Row) : SetOperator → Prop
  | .union false => rows.Perm (left ++ right)
  | .union true => (∀ row ∈ left ++ right, count row rows = 1) ∧ ∀ row ∈ rows, row ∈ left ++ right
  | .intersect =>
      (∀ row, count row rows = min (count row left) (count row right)) ∧
        ∀ row ∈ rows, 0 < count row left
  | .minus => rows.Perm (left.filter fun lr => count lr right = 0)

/-- The operator yields what it stands for. -/
def Means : Prop :=
  ∃ result, execute sort casts op left right = .ok result ∧
    op.Yields (leftRows left) (rightRows casts left right) result.rows

end Means

theorem length_doCasting (h : doCasting casts castingMap rows = .ok rows') :
    rows'.length = rows.length := by
  induction rows generalizing rows' with
  | nil =>
    cases h
    rfl
  | cons row rows ih =>
    simp only [doCasting] at h
    split at h
    · cases h
    split at h
    · cases h
    · rename_i rest hrest
      cases h
      rw [length_cons, length_cons, ih hrest]

theorem length_castRight (h : castRight casts left right = .ok rows) :
    rows.length = right.rows.length := by
  unfold castRight at h
  split at h
  · cases h
  · exact length_doCasting h

variable {r : InterimResult}

theorem InterimResult.hasData_eq_true : r.hasData = true ↔ r.rows ≠ [] := by
  simp [hasData]

theorem InterimResult.hasData_eq_false : r.hasData = false ↔ r.rows = [] := by
  simp [hasData]

section Sides

variable {left right : List Row}

theorem yields_distinct (sort : StdSort rowLt) (types : List SupportedType)
    (htypes : ∀ row ∈ left ++ right, rowTypes row = types)
    (hnumeric : ∀ row ∈ left ++ right, IsNumeric row) :
    (SetOperator.union true).Yields left right (distinct sort rowEq (left ++ right)) := by
  have hkey : ComparedBy rowLt rowEq (map ColumnValue.key) (left ++ right) := by
    constructor
    · intro a ha b hb
      exact (row_compare_key ((htypes a ha).trans (htypes b hb).symm) (hnumeric a ha)
        (hnumeric b hb)).1
    · intro a ha b hb
      exact (row_compare_key ((htypes a ha).trans (htypes b hb).symm) (hnumeric a ha)
        (hnumeric b hb)).2
  exact ⟨fun row hrow => hkey.countP_distinct sort hrow,
    fun row hrow => hkey.mem_of_mem_distinct sort hrow⟩

theorem yields_intersect (hleft : ∀ row ∈ left, row ≠ []) :
    SetOperator.intersect.Yields left right (intersect left right) := by
  have hmem : ∀ row ∈ intersect left right, ∃ lr ∈ left, rowEq row lr = true :=
    fun row hrow => exists_left_of_mem_intersect hrow
  refine ⟨fun row => ?_, fun row hrow => ?_⟩
  · cases row with
    | cons x row => exact count_intersect (by simp) left right
    | nil =>
      -- no row of the left side is without columns, so none of the result is
      have hnone : ∀ row : Row, row ≠ [] → rowEq row [] = false := by
        intro row hrow
        cases row with
        | nil => exact absurd rfl hrow
        | cons x row => rfl
      have hl : count [] left = 0 := by
        refine countP_eq_zero.mpr fun row hrow => ?_
        simp [hnone row (hleft row hrow)]
      rw [hl]
      refine countP_eq_zero.mpr fun row hrow => ?_
      obtain ⟨lr, hlr, heq⟩ := hmem row hrow
      rw [rowEq_congr heq, hnone lr (hleft lr hlr)]
      exact Bool.false_ne_true
  · obtain ⟨lr, hlr, heq⟩ := hmem row hrow
    exact countP_pos_iff.mpr ⟨lr, hlr, by rwa [rowEq_comm]⟩

theorem yields_minus : SetOperator.minus.Yields left right (minus left right) := by
  show (minus left right).Perm _
  rw [minus_eq_filter]
  have hcount (lr : Row) : (right.all fun rr => !rowEq rr lr) = decide (count lr right = 0) := by
    rw [Bool.eq_iff_iff, count]
    simp
  rw [filter_congr fun lr _ => hcount lr]

end Sides

section Shapes

variable {sort : StdSort rowLt} {casts : Casts} {op : SetOperator} {left right : InterimResult}

/-- The rows of a result if a side has no data. -/
def SetOperator.oneSided (left right : List Row) : SetOperator → List Row
  | .union _ => left ++ right
  | .intersect => []
  | .minus => left

theorem execute_oneSided (hnames : left.colNames.length = right.colNames.length)
    (hone : left.rows = [] ∨ right.rows = []) :
    execute sort casts op (some left) (some right) =
      .ok ⟨left.colNames, op.oneSided left.rows right.rows⟩ := by
  by_cases hl : left.rows = []
  · have hdata := hasData_eq_false.mpr hl
    by_cases hr : right.rows = []
    · have hdata' := hasData_eq_false.mpr hr
      cases op <;> simp [execute, hnames, hdata, hdata', SetOperator.oneSided, hl, hr]
    have hdata' := hasData_eq_true.mpr hr
    cases op <;>
      simp [execute, hnames, hdata, hdata', doUnion, doIntersect, doMinus, SetOperator.oneSided, hl]
  · have hdata := hasData_eq_true.mpr hl
    have hr := hone.resolve_left hl
    have hdata' := hasData_eq_false.mpr hr
    cases op <;>
      simp [execute, hnames, hdata, hdata', doUnion, doIntersect, doMinus, SetOperator.oneSided, hr]

/-- The rows of a result if both sides have data. -/
def SetOperator.apply (sort : StdSort rowLt) (left right : List Row) : SetOperator → List Row
  | .union false => left ++ right
  | .union true => distinct sort rowEq (left ++ right)
  | .intersect => Graphd.intersect left right
  | .minus => Graphd.minus left right

theorem execute_twoSided (hnames : left.colNames.length = right.colNames.length)
    (hleft : left.hasData = true) (hright : right.hasData = true)
    (hrows : castRight casts left right = .ok rows) :
    execute sort casts op (some left) (some right) =
      .ok ⟨left.colNames, op.apply sort left.rows rows⟩ := by
  cases op with
  | union isDistinct =>
    cases isDistinct <;>
      simp [execute, hnames, hleft, hright, doUnion, combine, hrows, SetOperator.apply]
  | intersect => simp [execute, hnames, hleft, hright, doIntersect, combine, hrows,
      SetOperator.apply]
  | minus => simp [execute, hnames, hleft, hright, doMinus, combine, hrows, SetOperator.apply]

theorem rightRows_oneSided (hone : left.rows = [] ∨ right.rows = []) :
    rightRows casts (some left) (some right) = right.rows := by
  unfold rightRows
  by_cases hl : left.rows = []
  · simp [hasData_eq_false.mpr hl]
  have hr := hone.resolve_left hl
  simp only [hasData_eq_true.mpr hl, ↓reduceIte]
  split
  · rename_i rows hrows
    have hlength := length_castRight hrows
    rw [hr] at hlength
    rw [hr, length_eq_zero_iff.mp hlength]
  · exact hr.symm

/-- With a side without data everything but UNION DISTINCT is what it should be, and UNION
DISTINCT is if the rows are different. -/
theorem yields_oneSided_iff {left right : List Row} (hone : left = [] ∨ right = []) :
    op.Yields left right (op.oneSided left right) ↔
      (op = .union true → ∀ row ∈ left ++ right, count row (left ++ right) = 1) := by
  cases op with
  | union isDistinct =>
    cases isDistinct with
    | false | true => simp [SetOperator.Yields, SetOperator.oneSided]
  | intersect =>
    simp only [SetOperator.Yields, SetOperator.oneSided, reduceCtorEq]
    rcases hone with rfl | rfl <;> simp
  | minus =>
    simp only [SetOperator.Yields, SetOperator.oneSided]
    rcases hone with rfl | rfl
    · simp
    · simp

/-- With data on both sides everything but UNION DISTINCT is what it should be, and UNION
DISTINCT is if the rows are rows of numbers. -/
theorem yields_twoSided_iff (hrows : castRight casts left right = .ok rows) :
    op.Yields left.rows rows (op.apply sort left.rows rows) ↔
      (op = .union true → ∀ row ∈ left.rows ++ rows, IsNumeric row) := by
  cases op with
  | union isDistinct =>
    cases isDistinct with
    | false => simp [SetOperator.Yields, SetOperator.apply]
    | true =>
      simp only [forall_const]
      constructor
      · rintro ⟨hcount, -⟩ row hrow
        exact isNumeric_of_count_pos (by rw [hcount row hrow]; exact one_pos)
      intro hnumeric
      refine yields_distinct sort left.schema ?_ hnumeric
      intro row hrow
      rcases mem_append.mp hrow with hrow | hrow
      · exact left.rowTypes_of_mem hrow
      unfold castRight at hrows
      split at hrows
      · cases hrows
      · rename_i castingMap hcheck
        exact doCasting_types hcheck (fun row hrow => right.rowTypes_of_mem hrow) hrows row hrow
  | intersect =>
    simp only [reduceCtorEq, false_implies, iff_true]
    exact yields_intersect fun row hrow => left.ne_nil_of_mem hrow
  | minus =>
    simp only [reduceCtorEq, false_implies, iff_true]
    exact yields_minus

end Shapes

/-- An operator yields what it stands for iff both sides are there and, for UNION DISTINCT,
every row is one of numbers, and the rows are different already if a side has no data. -/
theorem means_iff (sort : StdSort rowLt) (casts : Casts) (op : SetOperator)
    (left right : Option InterimResult) (h : Compatible casts left right) :
    Means sort casts op left right ↔
      left.isSome = true ∧ right.isSome = true ∧
        (op = .union true →
          (∀ row ∈ leftRows left ++ rightRows casts left right, IsNumeric row) ∧
            (leftRows left = [] ∨ rightRows casts left right = [] →
              (leftRows left ++ rightRows casts left right).Pairwise
                fun a b => rowEq a b = false)) := by
  match left, right with
  | none, _ => simp [Means, execute]
  | some left, none => simp [Means, execute]
  | some left, some right =>
    obtain ⟨hnames, hcast⟩ := h
    have hmeans {rows : List Row}
        (hexecute : execute sort casts op (some left) (some right) = .ok ⟨left.colNames, rows⟩) :
        Means sort casts op (some left) (some right) ↔
          op.Yields left.rows (rightRows casts (some left) (some right)) rows := by
      unfold Means
      simp [hexecute, leftRows]
    by_cases hone : left.rows = [] ∨ right.rows = []
    · rw [hmeans (execute_oneSided hnames hone), rightRows_oneSided hone, yields_oneSided_iff hone]
      rw [forall_count_eq_one_iff]
      simp [leftRows, hone]
    rw [not_or] at hone
    have hl := hasData_eq_true.mpr hone.1
    obtain ⟨rows, hrows⟩ := hcast hl (hasData_eq_true.mpr hone.2)
    have hright : rightRows casts (some left) (some right) = rows := by
      simp [rightRows, hl, hrows]
    have hne : rows ≠ [] := by
      intro hnil
      have hlength := length_castRight hrows
      rw [hnil] at hlength
      exact hone.2 (length_eq_zero_iff.mp hlength.symm)
    rw [hmeans (execute_twoSided hnames hl (hasData_eq_true.mpr hone.2) hrows),
      hright, yields_twoSided_iff hrows]
    simp [leftRows, hone.1, hne]

def Casts.trivial : Casts :=
  ⟨fun _ => 0, fun _ => .zero, fun _ => none, fun _ => none, fun _ => [], fun _ => [], fun _ => []⟩

def numbers (values : List Int64) : InterimResult where
  colNames := [[110]]
  data := some
    { schema := [.int]
      schema_ne := by simp
      rows := values.map fun v => [.integer v]
      typed := by
        intro row hrow
        obtain ⟨v, -, rfl⟩ := mem_map.mp hrow
        rfl }

theorem compatible_numbers (casts : Casts) (a b : List Int64) :
    Compatible casts (some (numbers a)) (some (numbers b)) := by
  refine ⟨rfl, fun _ _ => ?_⟩
  have hrows : ∀ rows : List Row, doCasting casts [] rows = .ok rows := by
    intro rows
    induction rows with
    | nil => rfl
    | cons row rows ih => simp [doCasting, castRow, ih]
  exact ⟨_, hrows _⟩

/-- UNION DISTINCT of 1, 1 and 1, 2. -/
theorem means_one_two : Means (.merge rowLt) .trivial (.union true)
    (some (numbers [1, 1])) (some (numbers [1, 2])) :=
  (means_iff _ _ _ _ _ (compatible_numbers _ _ _)).mpr
    ⟨rfl, rfl, fun _ => ⟨by decide, by decide⟩⟩

/-- UNION DISTINCT of 1, 1 and a side without rows has 1 twice. -/
theorem not_means_one_one : ¬ Means (.merge rowLt) .trivial (.union true)
    (some (numbers [1, 1])) (some (numbers [])) := by
  rintro ⟨result, hresult, hcount, -⟩
  have hexecute : execute (.merge rowLt) .trivial (.union true) (some (numbers [1, 1]))
      (some (numbers [])) = .ok _ := execute_oneSided rfl (Or.inr rfl)
  obtain rfl := Except.ok.inj (hresult.symm.trans hexecute)
  exact absurd (hcount [.integer 1] (by decide)) (by decide)

end K2Graph.Graphd
