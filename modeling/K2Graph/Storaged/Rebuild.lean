import Mathlib.Data.List.Find
import K2Graph.Storaged.Delete

/-!
# Rebuilding an index offline

`RebuildTagIndexProcessor` and `RebuildEdgeIndexProcessor` scan the data keys of a
partition and put the index keys of the rows in batches.  The first row of a vertex or an
edge is its newest version, and the others are passed over: the loop remembers the vertex,
or the source and the destination, of the row it visited last.

A row that lacks an indexed column does not move the iterator.  The loop comes back to the
same row and passes over it then, because it is the row visited last.

For tags the loop begins as if it had visited the vertex `-1`; for edges it passes over
every row that has the source or the destination of the row visited last.
-/

namespace K2Graph.Storaged

open List LittleEndian Kvstore

/-! ### The loop -/

/-- What is made of a row that is visited. -/
inductive RowKey
  /-- The process ends. -/
  | fatal
  /-- The row is not opened. -/
  | unreadable
  /-- A column is missing. -/
  | incomplete
  | key (k : Bytes)

/-- The index key of a row. -/
def rowKey (read : Read RowReader) (fields : List ColumnDef) (indexKey : IndexValues → Bytes) :
    RowKey :=
  match read with
  | .fatal => .fatal
  | .null => .unreadable
  | .ok reader =>
      match collectIndexValues reader fields with
      | .fatal => .fatal
      | .null => .incomplete
      | .ok values => .key (indexKey values)

def RowKey.key? : RowKey → Option Bytes
  | key k => some k
  | _ => none

variable {k : Bytes}

theorem RowKey.key?_eq_some {r : RowKey} : r.key? = some k ↔ r = .key k := by
  cases r <;> simp [key?]

/-- Where the two processors differ: which keys they look at, which of them they pass over
after the row visited last, and the index keys. -/
structure Rebuild (σ : Type) where
  wanted : Bytes → Bool
  skips : σ → Bytes → Bool
  mark : Bytes → σ
  rowKey : Bytes × Bytes → RowKey

/-- The variables of the loop, with the number of calls of `doSyncPut` and what they have
put. -/
structure RebuildState (σ : Type) where
  /-- The rows the iterator has not passed. -/
  rows : List (Bytes × Bytes)
  data : List Bytes
  batchNum : ℕ
  current : σ
  calls : ℕ
  written : List Bytes

/-- How the loop ends. -/
inductive Rebuilt
  | done (written : List Bytes)
  /-- An error code is reported. -/
  | failed
  | fatal

variable {σ : Type}

namespace RebuildState

/-- The batch is put when it is full.  `putOk` tells which calls succeed. -/
def flush (batchSize : ℕ) (putOk : ℕ → Bool) (s : RebuildState σ) : Option (RebuildState σ) :=
  if batchSize ≤ s.batchNum then
    if putOk s.calls then
      some { s with data := [], batchNum := 0, calls := s.calls + 1, written := s.written ++
        s.data }
    else none
  else some s

variable (R : Rebuild σ)

/-- A row that is visited. -/
def visit (s : RebuildState σ) (row : Bytes × Bytes)
    (rows : List (Bytes × Bytes)) : Rebuilt ⊕ RebuildState σ :=
  match R.rowKey row with
  | .fatal => .inl .fatal
  | .unreadable => .inr { s with rows := rows, current := R.mark row.1 }
  -- the iterator is not moved
  | .incomplete => .inr { s with current := R.mark row.1 }
  | .key k => .inr { s with
      rows := rows
      current := R.mark row.1
      data := s.data ++ [k]
      batchNum := s.batchNum + 1 }

def next (batchSize : ℕ) (putOk : ℕ → Bool) (s : RebuildState σ) : Rebuilt ⊕ RebuildState σ :=
  match s.rows with
  | [] => .inl (if putOk s.calls then .done (s.written ++ s.data) else .failed)
  | row :: rows =>
      match s.flush batchSize putOk with
      | none => .inl .failed
      | some s =>
          if R.wanted row.1 && !R.skips s.current row.1 then s.visit R row rows
          else .inr { s with rows := rows }

/-- The loop, for a number of rounds. -/
def run (batchSize : ℕ) (putOk : ℕ → Bool) : ℕ → RebuildState σ → Option Rebuilt
  | 0, _ => none
  | n + 1, s =>
      match s.next R batchSize putOk with
      | .inl result => some result
      | .inr s => run batchSize putOk n s

def start (current : σ) (rows : List (Bytes × Bytes)) :
    RebuildState σ := ⟨rows, [], 0, current, 0, []⟩

end RebuildState

def visited (R : Rebuild σ) : σ → List (Bytes × Bytes) → List (Bytes × Bytes)
  | _, [] => []
  | current, row :: rows =>
      if R.wanted row.1 && !R.skips current row.1 then row :: visited R (R.mark row.1) rows
      else visited R current rows

/-! ### The processors -/

variable (schemas : SchemaManager) (part : Int32) (index : IndexItem)

/-- The loop of `RebuildTagIndexProcessor::process`. -/
def tagRebuild : Rebuild Int64 where
  wanted key := isVertex key && getTagId key = some index.schemaId
  skips currentVertex key := currentVertex = int64At key 4
  mark key := int64At key 4
  rowKey row := rowKey (schemas.getTagPropReader index.schemaId row.2) index.fields
    (vertexIndexKey part index.indexId (int64At row.1 4))

/-- The loop of `RebuildEdgeIndexProcessor::process`, with the source and the destination
of the row visited last. -/
def edgeRebuild :
    Rebuild (Int64 × Int64) where
  wanted key := isEdge key && getEdgeType key = some index.schemaId
  skips current key := current.1 = int64At key 4 || current.2 = int64At key 24
  mark key := (int64At key 4, int64At key 24)
  rowKey row := rowKey (schemas.getEdgePropReader index.schemaId row.2) index.fields
    (edgeIndexKey part index.indexId (edgeOfKey row.1))

variable (batchSize : ℕ)

/-- `RebuildTagIndexProcessor::process` for a partition. -/
def rebuildTagIndex (putOk : ℕ → Bool) (e : Engine) (rounds : ℕ) : Option Rebuilt :=
  (RebuildState.start (-1) (e.scan (keyItem part .data))).run (tagRebuild schemas part index)
    batchSize putOk rounds

/-- `RebuildEdgeIndexProcessor::process` for a partition. -/
def rebuildEdgeIndex (putOk : ℕ → Bool) (e : Engine) (rounds : ℕ) : Option Rebuilt :=
  (RebuildState.start (-1, -1) (e.scan (keyItem part .data))).run (edgeRebuild schemas part index)
    batchSize putOk rounds

/-! ### The loop ends -/

variable {s : RebuildState σ}

section Loop

variable {R : Rebuild σ} {batchSize : ℕ} {putOk : ℕ → Bool}

theorem RebuildState.flush_spec (h : s.flush batchSize putOk = some s') :
    s'.rows = s.rows ∧ s'.current = s.current ∧ s'.written ++ s'.data = s.written ++ s.data := by
  rw [flush] at h
  split_ifs at h
  · cases h
    exact ⟨rfl, rfl, append_nil _⟩
  · cases h
    exact ⟨rfl, rfl, rfl⟩

def Rebuild.keys (R : Rebuild σ) (rows : List (Bytes × Bytes)) : List Bytes :=
  rows.filterMap fun row => (R.rowKey row).key?

structure Ends (R : Rebuild σ) (putOk : ℕ → Bool) (s : RebuildState σ)
    (result : Rebuilt) : Prop where
  fatal : result = .fatal → ∃ row ∈ visited R s.current s.rows, R.rowKey row = .fatal
  done : ∀ written, result = .done written →
    (∀ row ∈ visited R s.current s.rows, R.rowKey row ≠ .fatal) ∧
    written = s.written ++ s.data ++ R.keys (visited R s.current s.rows)
  failed : result = .failed → ∃ n, putOk n = false

theorem Rebuild.keys_cons (row : Bytes × Bytes) (rows : List (Bytes × Bytes)) :
    R.keys (row :: rows) = (R.rowKey row).key?.toList ++ R.keys rows := by
  rw [keys, filterMap_cons]
  cases (R.rowKey row).key? <;> rfl

variable {rows : List (Bytes × Bytes)} {row : Bytes × Bytes} {result : Rebuilt}

theorem Ends.of_eq (h : Ends R putOk s' result)
    (hvisited : visited R s.current s.rows = visited R s'.current s'.rows)
    (hwritten : s'.written ++ s'.data = s.written ++ s.data) :
    Ends R putOk s result where
  fatal := by
    rw [hvisited]
    exact h.fatal
  done := by
    rw [hvisited, ← hwritten]
    exact h.done
  failed := h.failed

theorem Ends.of_cons (h : Ends R putOk s' result)
    (hvisited : visited R s.current s.rows = row :: visited R s'.current s'.rows)
    (hkey : R.rowKey row = r) (hrow : r ≠ .fatal)
    (hwritten : s'.written ++ s'.data = s.written ++ s.data ++ r.key?.toList) :
    Ends R putOk s result where
  fatal hresult := by
    obtain ⟨row', hrow', hfatal⟩ := h.fatal hresult
    rw [hvisited]
    exact ⟨row', mem_cons_of_mem row hrow', hfatal⟩
  done written hresult := by
    obtain ⟨hall, heq⟩ := h.done written hresult
    rw [hvisited, forall_mem_cons, Rebuild.keys_cons, hkey, ← append_assoc, ← hwritten]
    exact ⟨⟨hrow, hall⟩, heq⟩
  failed := h.failed

theorem RebuildState.run_of_next (h : s.next R batchSize putOk = .inr s') (n : ℕ) :
    s.run R batchSize putOk (n + 1) = s'.run R batchSize putOk n := by
  rw [run, h]

theorem RebuildState.run_inj (h : s.run R batchSize putOk m = some result)
    (h' : s.run R batchSize putOk n = some result') : result = result' := by
  induction m generalizing s n with
  | zero => cases h
  | succ m ih =>
    cases n with
    | zero => cases h'
    | succ n =>
      rw [run] at h h'
      cases hnext : s.next R batchSize putOk with
      | inl r =>
        rw [hnext] at h h'
        exact Option.some.inj (h.symm.trans h')
      | inr s₁ =>
        rw [hnext] at h h'
        exact ih h h'

theorem RebuildState.exists_run_of_flush (hrows : s.rows = row :: rows)
    (hflush : s.flush batchSize putOk = none) (n : ℕ) :
    ∃ result, s.run R batchSize putOk (n + 1) = some result ∧ Ends R putOk s result := by
  refine ⟨.failed, ?_, nofun, nofun, fun _ => ?_⟩
  · rw [run, next, hrows, hflush]
  · rw [flush] at hflush
    split_ifs at hflush with _ hput
    exact ⟨s.calls, Bool.eq_false_iff.mpr hput⟩

theorem RebuildState.exists_run_of_skip
    (ih : ∀ s : RebuildState σ, s.rows = rows → ∃ result, s.run R batchSize putOk n = some result ∧
      Ends R putOk s result)
    (hrows : s.rows = row :: rows) (hskip : ¬ (R.wanted row.1 && !R.skips s.current row.1) = true) :
    ∃ result, s.run R batchSize putOk (n + 1) = some result ∧ Ends R putOk s result := by
  cases hflush : s.flush batchSize putOk with
  | none => exact exists_run_of_flush hrows hflush n
  | some s₁ =>
    obtain ⟨-, hcurrent, hwritten⟩ := flush_spec hflush
    have hskip₁ : ¬ (R.wanted row.1 && !R.skips s₁.current row.1) = true := by
      rw [hcurrent]
      exact hskip
    have hnext : s.next R batchSize putOk = .inr { s₁ with rows := rows } := by
      simp only [next, hrows, hflush, if_neg hskip₁]
    obtain ⟨result, hrun, hends⟩ := ih { s₁ with rows := rows } rfl
    refine ⟨result, (run_of_next hnext n).trans hrun, hends.of_eq ?_ hwritten⟩
    rw [hrows, visited, if_neg hskip, ← hcurrent]

/-- **The loop ends**, after two rounds for every row and one more, and what it has put are
the keys of the rows visited. -/
theorem RebuildState.exists_run (hmark : ∀ key, R.skips (R.mark key) key = true)
    (rows : List (Bytes × Bytes)) (s : RebuildState σ) (hrows : s.rows = rows) (n : ℕ) :
    ∃ result, s.run R batchSize putOk (2 * rows.length + 1 + n) = some result ∧
      Ends R putOk s result := by
  induction rows generalizing s n with
  | nil =>
    have hnext : s.next R batchSize putOk =
        .inl (if putOk s.calls then .done (s.written ++ s.data) else .failed) := by
      rw [next, hrows]
    refine ⟨_, by rw [length_nil, add_comm, run, hnext], ?_⟩
    split_ifs with hput
    · refine ⟨nofun, ?_, nofun⟩
      rintro written ⟨⟩
      rw [hrows]
      exact ⟨nofun, (append_nil _).symm⟩
    · exact ⟨nofun, nofun, fun _ => ⟨s.calls, Bool.eq_false_iff.mpr hput⟩⟩
  | cons row rows ih =>
    have hfuel : 2 * (row :: rows).length + 1 + n = 2 * rows.length + 1 + n + 1 + 1 := by
      rw [length_cons]
      omega
    rw [hfuel]
    by_cases hvisit : (R.wanted row.1 && !R.skips s.current row.1) = true
    · cases hflush : s.flush batchSize putOk with
      | none => exact exists_run_of_flush hrows hflush _
      | some s₁ =>
        obtain ⟨hrows₁, hcurrent, hwritten⟩ := flush_spec hflush
        have hvisited : visited R s.current s.rows = row :: visited R (R.mark row.1) rows := by
          rw [hrows, visited, if_pos hvisit]
        have hvisit₁ : (R.wanted row.1 && !R.skips s₁.current row.1) = true := by
          rw [hcurrent]
          exact hvisit
        have hnext : s.next R batchSize putOk = s₁.visit R row rows := by
          simp only [next, hrows, hflush, if_pos hvisit₁]
        rw [visit] at hnext
        cases hkey : R.rowKey row with
        | fatal =>
          refine ⟨.fatal, ?_, fun _ => ⟨row, ?_, hkey⟩, nofun, nofun⟩
          · rw [run, hnext, hkey]
          · rw [hvisited]
            exact mem_cons_self
        | unreadable =>
          rw [hkey] at hnext
          obtain ⟨result, hrun, hends⟩ :=
            ih { s₁ with rows := rows, current := R.mark row.1 } rfl (n + 1)
          exact ⟨result, (run_of_next hnext _).trans hrun,
            hends.of_cons hvisited hkey nofun (hwritten.trans (append_nil _).symm)⟩
        | incomplete =>
          -- the loop comes back to the row and passes over it
          rw [hkey] at hnext
          have hskip : ¬ (R.wanted row.1 && !R.skips (R.mark row.1) row.1) = true := by
            rw [hmark]
            simp
          obtain ⟨result, hrun, hends⟩ := exists_run_of_skip (fun s hs => ih s hs n)
            (s := { s₁ with current := R.mark row.1 }) (hrows₁.trans hrows) hskip
          refine ⟨result, (run_of_next hnext _).trans hrun,
            hends.of_cons ?_ hkey nofun (hwritten.trans (append_nil _).symm)⟩
          rw [hvisited, hrows₁.trans hrows, visited, if_neg hskip]
        | key k =>
          rw [hkey] at hnext
          obtain ⟨result, hrun, hends⟩ := ih { s₁ with
            rows := rows
            current := R.mark row.1
            data := s₁.data ++ [k]
            batchNum := s₁.batchNum + 1 } rfl (n + 1)
          refine ⟨result, (run_of_next hnext _).trans hrun, hends.of_cons hvisited hkey nofun ?_⟩
          rw [← hwritten]
          exact (append_assoc _ _ _).symm
    · exact exists_run_of_skip (fun s hs => ih s hs (n + 1)) hrows hvisit

/-! ### The rows visited -/

/-- The newest version of a vertex tag or an edge, among the rows looked at. -/
def Newest (R : Rebuild σ) (rows : List (Bytes × Bytes)) : Bytes × Bytes → Prop :=
  IsNewest (rows.filter fun x => R.wanted x.1)

theorem Newest.mem (h : Newest R rows row) : row ∈ rows ∧ R.wanted row.1 = true :=
  mem_filter.mp (mem_of_find?_eq_some h)

theorem visited_filter (R : Rebuild σ) (current : σ) (rows : List (Bytes × Bytes)) :
    visited R current (rows.filter fun x => R.wanted x.1) = visited R current rows := by
  induction rows generalizing current with
  | nil => rfl
  | cons row rows ih =>
    by_cases hwanted : R.wanted row.1 = true
    · rw [filter_cons, if_pos hwanted, visited, visited, ih, ih]
    · rw [filter_cons, if_neg hwanted, ih, visited, if_neg (by simp [hwanted])]

/-- The loop passes over the rest of a vertex tag or an edge. -/
structure Rebuild.Remembers (R : Rebuild σ) : Prop where
  skips_eq : ∀ current key key', R.wanted key = true → R.wanted key' = true →
    keyWithNoVersion key = keyWithNoVersion key' → R.skips current key = R.skips current key'
  skips_mark : ∀ key key', R.wanted key = true → R.wanted key' = true →
    keyWithNoVersion key = keyWithNoVersion key' → R.skips (R.mark key) key' = true

/-- A row visited is the first of its group.  The second part carries the induction: a row
of the group that comes first is not passed over. -/
theorem find?_of_mem_visited (hR : R.Remembers) (hwanted : ∀ x ∈ rows, R.wanted x.1 = true)
    (hgroup : Grouped (fun x : Bytes × Bytes => keyWithNoVersion x.1) rows)
    (hrow : row ∈ visited R current rows) :
    rows.find? (fun x => keyWithNoVersion x.1 = keyWithNoVersion row.1) = some row ∧
      ∀ y ys, rows = y :: ys → keyWithNoVersion y.1 = keyWithNoVersion row.1 →
        R.skips current row.1 = false := by
  induction rows generalizing current with
  | nil => cases hrow
  | cons x xs ih =>
    obtain ⟨hx, hxs⟩ := forall_mem_cons.mp hwanted
    have hmem {c : σ} (h : row ∈ visited R c xs) : row ∈ xs := by
      have hfind := (ih hxs hgroup.tail h).1
      exact mem_of_find?_eq_some hfind
    -- a row of the group of the head is passed over behind it
    have hbehind {c : σ} (h : row ∈ visited R c xs) (hskips : ∀ key, R.wanted key = true →
        keyWithNoVersion x.1 = keyWithNoVersion key → R.skips c key = true) :
        (x :: xs).find? (fun x => keyWithNoVersion x.1 = keyWithNoVersion row.1) = some row ∧
          ∀ y ys, x :: xs = y :: ys → keyWithNoVersion y.1 = keyWithNoVersion row.1 →
            R.skips current row.1 = false := by
      have hne : keyWithNoVersion x.1 ≠ keyWithNoVersion row.1 := by
        intro heq
        obtain ⟨y, ys, hys⟩ := exists_cons_of_ne_nil (ne_nil_of_mem (hmem h))
        have hnot := (ih hxs hgroup.tail h).2 y ys hys (by
          by_contra hne
          rw [hys] at hgroup
          exact hgroup.ne_of_ne (fun hyx => hne (hyx.trans heq)) row (hys ▸ hmem h) heq.symm)
        rw [hskips row.1 (hxs row (hmem h)) heq] at hnot
        cases hnot
      constructor
      · rw [find?_cons_of_neg (by simpa using hne)]
        exact (ih hxs hgroup.tail h).1
      · rintro y ys ⟨⟩ hy
        exact absurd hy hne
    rw [visited, hx] at hrow
    by_cases hskip : R.skips current x.1 = true
    · rw [if_neg (by simp [hskip])] at hrow
      refine hbehind hrow fun key hkey heq => ?_
      rw [← hR.skips_eq current x.1 key hx hkey heq, hskip]
    · rw [if_pos (by simp [hskip])] at hrow
      rcases mem_cons.mp hrow with rfl | hrow
      · refine ⟨find?_cons_of_pos (by simp), fun _ _ _ _ => Bool.eq_false_iff.mpr hskip⟩
      exact hbehind hrow fun key hkey heq => hR.skips_mark x.1 key hx hkey heq

/-! ### What is in the index afterwards -/

/-- Whichever calls succeed, the loop ends and the process goes on, and if no error is
reported the index keys of the newest rows are there. -/
def IndexRebuilt (R : Rebuild σ) (batchSize : ℕ) (current : σ) (rows : List (Bytes × Bytes))
    (e : Engine) : Prop :=
  ∀ putOk : ℕ → Bool, ∃ rounds result,
    (RebuildState.start current rows).run R batchSize putOk rounds = some result ∧
    result ≠ .fatal ∧
    ∀ written, result = .done written → ∀ row k, Newest R rows row → R.rowKey row = .key k →
      k ∈ e.write (written.map fun key => .put key [])

theorem mem_write_put {e : Engine} {keys : List Bytes} :
    k ∈ e.write (keys.map fun key => .put key []) ↔ k ∈ keys ∨ k ∈ e := by
  induction keys generalizing e with
  | nil => simp [Engine.write]
  | cons key keys ih =>
    have hstep : e.write ((key :: keys).map fun key => .put key []) =
        Engine.write (e.insert key []) (keys.map fun key => .put key []) := rfl
    rw [hstep, ih, AList.mem_insert, mem_cons, or_left_comm, or_assoc]

/-- **When the newest rows are in the index**: each of them is visited, unless it is there
already or has no key, and none that is visited ends the process. -/
theorem indexRebuilt_iff (hR : R.Remembers) (hmark : ∀ key, R.skips (R.mark key) key = true)
    (hgroup : Grouped (fun x : Bytes × Bytes => keyWithNoVersion x.1)
      (rows.filter fun x => R.wanted x.1))
    (hkey : ∀ row ∈ rows, ∀ row' ∈ rows, R.wanted row.1 = true → R.wanted row'.1 = true → ∀ k,
      R.rowKey row = .key k → R.rowKey row' = .key k → keyWithNoVersion row.1 =
        keyWithNoVersion row'.1) :
    IndexRebuilt R batchSize current rows e ↔
      (∀ row ∈ visited R current rows, R.rowKey row ≠ .fatal) ∧
      ∀ row k, Newest R rows row → R.rowKey row = .key k →
        row ∈ visited R current rows ∨ k ∈ e := by
  have hrun (putOk : ℕ → Bool) : ∃ result,
      (RebuildState.start current rows).run R batchSize putOk (2 * rows.length + 1 + 0) =
        some result ∧ Ends R putOk (.start current rows) result :=
    RebuildState.exists_run hmark rows _ rfl 0
  constructor
  · intro h
    obtain ⟨rounds, result, hres, hfatal, hall⟩ := h fun _ => true
    obtain ⟨result', hres', hends⟩ := hrun fun _ => true
    obtain rfl := RebuildState.run_inj hres hres'
    cases result with
    | fatal => exact absurd rfl hfatal
    | failed =>
      obtain ⟨_, hfalse⟩ := hends.failed rfl
      cases hfalse
    | done written =>
      obtain ⟨hno, hwritten⟩ := hends.done written rfl
      refine ⟨hno, fun row k hnew hrowKey => ?_⟩
      rcases mem_write_put.mp (hall written rfl row k hnew hrowKey) with hk | hk
      · rw [hwritten] at hk
        obtain ⟨row', hrow', hk'⟩ := mem_filterMap.mp hk
        have hrowKey' : R.rowKey row' = .key k := RowKey.key?_eq_some.mp hk'
        have hvisited := hrow'
        rw [← visited_filter] at hvisited
        have hnew' : Newest R rows row' :=
          (find?_of_mem_visited hR (fun x hx => (mem_filter.mp hx).2) hgroup hvisited).1
        have hsame := hkey row hnew.mem.1 row' hnew'.mem.1 hnew.mem.2 hnew'.mem.2 k hrowKey hrowKey'
        rw [Newest, IsNewest, hsame] at hnew
        have heq : some row' = some row := hnew'.symm.trans hnew
        cases heq
        exact .inl hrow'
      · exact .inr hk
  · rintro ⟨hfatal, hall⟩ putOk
    obtain ⟨result, hres, hends⟩ := hrun putOk
    refine ⟨_, result, hres, fun heq => ?_, fun written heq row k hnew hrowKey => ?_⟩
    · obtain ⟨row, hrow, hbad⟩ := hends.fatal heq
      exact hfatal row hrow hbad
    obtain ⟨-, rfl⟩ := hends.done written heq
    refine mem_write_put.mpr ((hall row k hnew hrowKey).imp_left fun hvisited => ?_)
    refine mem_append_right _ (mem_filterMap.mpr ⟨row, hvisited, ?_⟩)
    rw [hrowKey]
    rfl

end Loop

variable (e : Engine)

/-- `rebuildTagIndex` ends, and when no error code is reported the index keys of the newest
rows of the tag are in the engine. -/
def TagIndexRebuilt : Prop :=
  ∀ putOk : ℕ → Bool, ∃ rounds result,
    rebuildTagIndex schemas part index batchSize putOk e rounds = some result ∧
    result ≠ .fatal ∧
    ∀ written, result = .done written → ∀ row k,
      Newest (tagRebuild schemas part index) (e.scan (keyItem part .data)) row →
      (tagRebuild schemas part index).rowKey row = .key k →
      k ∈ e.write (written.map fun key => .put key [])

/-- `rebuildEdgeIndex` ends, and when no error code is reported the index keys of the newest
rows of the edges are in the engine. -/
def EdgeIndexRebuilt : Prop :=
  ∀ putOk : ℕ → Bool, ∃ rounds result,
    rebuildEdgeIndex schemas part index batchSize putOk e rounds = some result ∧
    result ≠ .fatal ∧
    ∀ written, result = .done written → ∀ row k,
      Newest (edgeRebuild schemas part index) (e.scan (keyItem part .data)) row →
      (edgeRebuild schemas part index).rowKey row = .key k →
      k ∈ e.write (written.map fun key => .put key [])

/-- The row is of the vertex `-1`, and so is the first row the loop looks at. -/
def StartsOver (R : Rebuild σ) (rows : List (Bytes × Bytes)) (row : Bytes × Bytes) : Prop :=
  int64At row.1 4 = -1 ∧
    ((rows.filter fun x => R.wanted x.1).head?.map fun x => int64At x.1 4) = some (-1)

/-- Every newest row of the tag can be read without ending the process.  A vertex `-1` that
comes first is in the index before, or has no index key. -/
def TagsIndexable : Prop :=
  ∀ row, Newest (tagRebuild schemas part index) (e.scan (keyItem part .data)) row →
    (StartsOver (tagRebuild schemas part index) (e.scan (keyItem part .data)) row →
      ∀ k, (tagRebuild schemas part index).rowKey row = .key k → k ∈ e) ∧
    (¬ StartsOver (tagRebuild schemas part index) (e.scan (keyItem part .data)) row →
      (tagRebuild schemas part index).rowKey row ≠ .fatal)

/-- The rows of the edges that the loop looks at, in the order of the scan. -/
def edgeScan : List (Bytes × Bytes) :=
  (e.scan (keyItem part .data)).filter fun x => (edgeRebuild schemas part index).wanted x.1

/-- Two rows are of one edge, or have neither the source nor the destination in common. -/
def Apart (x y : Bytes × Bytes) : Prop :=
  keyWithNoVersion x.1 = keyWithNoVersion y.1 ∨
    int64At x.1 4 ≠ int64At y.1 4 ∧ int64At x.1 24 ≠ int64At y.1 24

/-- Neighbouring rows are apart, the first one neither leaves nor enters the vertex `-1`, and
every newest row can be read without ending the process. -/
structure EdgesIndexable : Prop where
  first : ∀ row ∈ (edgeScan schemas part index e).head?,
    int64At row.1 4 ≠ -1 ∧ int64At row.1 24 ≠ -1
  apart : (edgeScan schemas part index e).IsChain Apart
  readable : ∀ row, Newest (edgeRebuild schemas part index) (e.scan (keyItem part .data)) row →
    (edgeRebuild schemas part index).rowKey row ≠ .fatal

/-! ### Tags -/

section Tag

variable {schemas : SchemaManager} {part : Int32} {index : IndexItem}

theorem length_of_tagRebuild (h : (tagRebuild schemas part index).wanted key = true) :
    key.length = vertexLen ∧ int32At key 12 = index.schemaId := by
  obtain ⟨hvertex, htag⟩ := Bool.and_eq_true_iff.mp h
  have hlen : key.length = vertexLen := (of_decide_eq_true hvertex).1
  rw [decide_eq_true_iff, getTagId, field, if_pos hlen, Option.some.injEq] at htag
  exact ⟨hlen, htag⟩

theorem vertex_eq_of_keyWithNoVersion (hkey : (tagRebuild schemas part index).wanted key = true)
    (hkey' : (tagRebuild schemas part index).wanted key' = true)
    (heq : keyWithNoVersion key = keyWithNoVersion key') : int64At key 4 = int64At key' 4 := by
  rw [keyWithNoVersion_of_vertex (length_of_tagRebuild hkey).1,
    keyWithNoVersion_of_vertex (length_of_tagRebuild hkey').1] at heq
  exact int64At_congr (by omega) heq

theorem remembers_tagRebuild : (tagRebuild schemas part index).Remembers := by
  constructor
  · intro current key key' hkey hkey' heq
    show decide (current = int64At key 4) = decide (current = int64At key' 4)
    rw [vertex_eq_of_keyWithNoVersion hkey hkey' heq]
  · intro key key' hkey hkey' heq
    exact decide_eq_true (vertex_eq_of_keyWithNoVersion hkey hkey' heq)

variable {e : Engine}

/-- Rows of the tag with the same vertex agree but for the version. -/
theorem keyWithNoVersion_eq_of_vertex (hrow : row ∈ e.scan (keyItem part .data))
    (hrow' : row' ∈ e.scan (keyItem part .data))
    (hwanted : (tagRebuild schemas part index).wanted row.1 = true)
    (hwanted' : (tagRebuild schemas part index).wanted row'.1 = true)
    (hvertex : int64At row.1 4 = int64At row'.1 4) :
    keyWithNoVersion row.1 = keyWithNoVersion row'.1 := by
  obtain ⟨hlen, htag⟩ := length_of_tagRebuild hwanted
  obtain ⟨hlen', htag'⟩ := length_of_tagRebuild hwanted'
  rw [keyWithNoVersion_of_vertex hlen, keyWithNoVersion_of_vertex hlen']
  rw [vertexLen] at hlen hlen'
  exact take_eq_of_word (Engine.mem_scan.mp hrow).2 (Engine.mem_scan.mp hrow').2 (by omega)
    (by omega) hvertex (htag.trans htag'.symm)

theorem exists_of_rowKey {read : Read RowReader} (h : rowKey read fields indexKey = .key k) :
    ∃ reader values, read = .ok reader ∧ collectIndexValues reader fields = .ok values ∧
      k = indexKey values := by
  unfold rowKey at h
  split at h
  · cases h
  · cases h
  rename_i reader
  split at h
  · cases h
  · cases h
  · rename_i values hvalues
    cases h
    exact ⟨reader, values, rfl, hvalues, rfl⟩

theorem visited_tagRebuild (current : Int64)
    (hrows : ∀ x ∈ rows, (tagRebuild schemas part index).wanted x.1 = true) :
    visited (tagRebuild schemas part index) current rows =
      heads (fun x : Bytes × Bytes => int64At x.1 4) current rows := by
  induction rows generalizing current with
  | nil => rfl
  | cons x xs ih =>
    obtain ⟨hx, hxs⟩ := forall_mem_cons.mp hrows
    rw [visited, heads, hx, ih _ hxs, ih _ hxs]
    show (if (!decide (current = int64At x.1 4)) = true then _ else _) = _
    by_cases h : int64At x.1 4 = current
    · rw [if_neg (by simp [h]), if_pos h]
    · rw [if_pos (by simpa using fun heq : current = _ => h heq.symm), if_neg h]
      rfl

theorem grouped_tagRebuild :
    Grouped (fun x : Bytes × Bytes => keyWithNoVersion x.1)
      ((e.scan (keyItem part .data)).filter fun x => (tagRebuild schemas part index).wanted x.1) :=
  grouped_keyWithNoVersion ((Engine.pairwise_scan _ _).sublist filter_sublist) fun _ hx =>
    (length_of_tagRebuild (mem_filter.mp hx).2).1

/-- The newest rows are visited, but for those of a vertex `-1` that comes first. -/
theorem mem_visited_tagRebuild :
    row ∈ visited (tagRebuild schemas part index) (-1) (e.scan (keyItem part .data)) ↔
      Newest (tagRebuild schemas part index) (e.scan (keyItem part .data)) row ∧
      ¬ StartsOver (tagRebuild schemas part index) (e.scan (keyItem part .data)) row := by
  rw [← visited_filter]
  set rows := (e.scan (keyItem part .data)).filter fun x =>
    (tagRebuild schemas part index).wanted x.1 with hrows
  have hwanted : ∀ x ∈ rows, (tagRebuild schemas part index).wanted x.1 = true :=
    fun x hx => (mem_filter.mp hx).2
  have hscan : ∀ x ∈ rows, x ∈ e.scan (keyItem part .data) := fun x hx => (mem_filter.mp hx).1
  have hsame : ∀ x ∈ rows, ∀ y ∈ rows,
      keyWithNoVersion x.1 = keyWithNoVersion y.1 ↔ int64At x.1 4 = int64At y.1 4 := by
    intro x hx y hy
    exact ⟨vertex_eq_of_keyWithNoVersion (hwanted x hx) (hwanted y hy),
      keyWithNoVersion_eq_of_vertex (hscan x hx) (hscan y hy) (hwanted x hx) (hwanted y hy)⟩
  have hgroup : Grouped (fun x : Bytes × Bytes => int64At x.1 4) rows :=
    grouped_tagRebuild.congr hsame
  rw [visited_tagRebuild (-1) hwanted, mem_heads hgroup]
  refine and_congr_left fun _ => ?_
  by_cases hrow : row ∈ rows
  · refine iff_of_eq (congrArg (· = some row) (find?_congr ?_))
    intro x hx
    exact decide_eq_decide.mpr (hsame x hx row hrow).symm
  · exact iff_of_false (fun h => hrow (mem_of_find?_eq_some h))
      fun h => hrow (mem_of_find?_eq_some h)

theorem tagIndexRebuilt_iff {batchSize : ℕ} :
    TagIndexRebuilt schemas part index batchSize e ↔ TagsIndexable schemas part index e := by
  have hmark : ∀ key, (tagRebuild schemas part index).skips
      ((tagRebuild schemas part index).mark key) key = true := fun _ => decide_eq_true rfl
  refine (indexRebuilt_iff remembers_tagRebuild hmark grouped_tagRebuild ?_).trans ⟨?_, ?_⟩
  · intro row hrow row' hrow' hwanted hwanted' k hk hk'
    obtain ⟨_, _, -, -, heq⟩ := exists_of_rowKey hk
    obtain ⟨_, _, -, -, heq'⟩ := exists_of_rowKey hk'
    apply keyWithNoVersion_eq_of_vertex hrow hrow' hwanted hwanted'
    exact vertexIndexKey_inj (heq.symm.trans heq')
  · rintro ⟨hfatal, hfound⟩ row hnew
    refine ⟨fun hover k hk => ?_, fun hover => ?_⟩
    · refine (hfound row k hnew hk).resolve_left fun hmem => ?_
      exact (mem_visited_tagRebuild.mp hmem).2 hover
    · exact hfatal row (mem_visited_tagRebuild.mpr ⟨hnew, hover⟩)
  · intro h
    refine ⟨fun row hrow => ?_, fun row k hnew hk => ?_⟩
    · obtain ⟨hnew, hover⟩ := mem_visited_tagRebuild.mp hrow
      exact (h row hnew).2 hover
    · by_cases hover : StartsOver (tagRebuild schemas part index) (e.scan (keyItem part .data)) row
      · exact .inr ((h row hnew).1 hover k hk)
      · exact .inl (mem_visited_tagRebuild.mpr ⟨hnew, hover⟩)

end Tag

/-! ### Edges -/

section Edge

variable {schemas : SchemaManager} {part : Int32} {index : IndexItem} {e : Engine}

theorem edge_of_edgeRebuild (h : (edgeRebuild schemas part index).wanted key = true) :
    isEdge key = true ∧ key.length = edgeLen ∧ typeOfWord (int32At key 12) = index.schemaId := by
  obtain ⟨hedge, htype⟩ := Bool.and_eq_true_iff.mp h
  have hlen : key.length = edgeLen := (of_decide_eq_true hedge).1
  rw [decide_eq_true_iff, getEdgeType, field, if_pos hlen, Option.some.injEq] at htype
  exact ⟨hedge, hlen, htype⟩

theorem ends_eq_of_keyWithNoVersion (hkey : (edgeRebuild schemas part index).wanted key = true)
    (hkey' : (edgeRebuild schemas part index).wanted key' = true)
    (heq : keyWithNoVersion key = keyWithNoVersion key') :
    int64At key 4 = int64At key' 4 ∧ int64At key 24 = int64At key' 24 := by
  rw [keyWithNoVersion_of_edge (edge_of_edgeRebuild hkey).2.1,
    keyWithNoVersion_of_edge (edge_of_edgeRebuild hkey').2.1] at heq
  exact ⟨int64At_congr (by omega) heq, int64At_congr (by omega) heq⟩

theorem remembers_edgeRebuild : (edgeRebuild schemas part index).Remembers := by
  constructor
  · intro current key key' hkey hkey' heq
    obtain ⟨hsrc, hdst⟩ := ends_eq_of_keyWithNoVersion hkey hkey' heq
    show (decide (current.1 = int64At key 4) || decide (current.2 = int64At key 24)) = _
    rw [hsrc, hdst]
    rfl
  · intro key key' hkey hkey' heq
    exact Bool.or_eq_true_iff.mpr
      (.inl (decide_eq_true (ends_eq_of_keyWithNoVersion hkey hkey' heq).1))

theorem grouped_edgeRebuild : Grouped (fun x : Bytes × Bytes => keyWithNoVersion x.1)
    (edgeScan schemas part index e) :=
  grouped_keyWithNoVersion ((Engine.pairwise_scan _ _).sublist filter_sublist) fun _ hx =>
    (edge_of_edgeRebuild (mem_filter.mp hx).2).2.1

theorem edgeIndexRebuilt_iff {batchSize : ℕ} :
    EdgeIndexRebuilt schemas part index batchSize e ↔
      (∀ row ∈ visited (edgeRebuild schemas part index) (-1, -1) (e.scan (keyItem part .data)),
        (edgeRebuild schemas part index).rowKey row ≠ .fatal) ∧
      ∀ row k, Newest (edgeRebuild schemas part index) (e.scan (keyItem part .data)) row →
        (edgeRebuild schemas part index).rowKey row = .key k →
        row ∈ visited (edgeRebuild schemas part index) (-1, -1) (e.scan (keyItem part .data)) ∨
          k ∈ e := by
  have hmark : ∀ key, (edgeRebuild schemas part index).skips
      ((edgeRebuild schemas part index).mark key) key = true :=
    fun _ => Bool.or_eq_true_iff.mpr (.inl (decide_eq_true rfl))
  refine indexRebuilt_iff remembers_edgeRebuild hmark grouped_edgeRebuild ?_
  intro row hrow row' hrow' hwanted hwanted' k hk hk'
  obtain ⟨_, _, -, -, heq⟩ := exists_of_rowKey hk
  obtain ⟨_, _, -, -, heq'⟩ := exists_of_rowKey hk'
  obtain ⟨hsrc, hrank, hdst⟩ := edgeIndexKey_inj (heq.symm.trans heq')
  obtain ⟨hedge, hlen, htype⟩ := edge_of_edgeRebuild hwanted
  obtain ⟨hedge', hlen', htype'⟩ := edge_of_edgeRebuild hwanted'
  have hword : int32At row.1 12 = int32At row'.1 12 :=
    typeOfWord_inj (of_decide_eq_true hedge).2.2 (of_decide_eq_true hedge').2.2
      (htype.trans htype'.symm)
  rw [keyWithNoVersion_of_edge hlen, keyWithNoVersion_of_edge hlen']
  exact take_eq_of_edge (Engine.mem_scan.mp hrow).2 (Engine.mem_scan.mp hrow').2 hlen hlen' hsrc
    hword hrank hdst

/-- Behind a row that is visited, the first row of every other edge is visited, if neighbouring
rows are apart. -/
theorem mem_visited_of_isChain (hchain : (x :: rows).IsChain Apart)
    (hwanted : ∀ y ∈ x :: rows, (edgeRebuild schemas part index).wanted y.1 = true)
    (hother : keyWithNoVersion x.1 ≠ keyWithNoVersion row.1)
    (hfind : rows.find? (fun y => keyWithNoVersion y.1 = keyWithNoVersion row.1) = some row) :
    row ∈ visited (edgeRebuild schemas part index) ((edgeRebuild schemas part index).mark x.1)
      rows := by
  induction rows generalizing x with
  | nil => cases hfind
  | cons y rows ih =>
    obtain ⟨hxy, hchain⟩ := isChain_cons_cons.mp hchain
    obtain ⟨hx, hwanted⟩ := forall_mem_cons.mp hwanted
    have hy := hwanted y mem_cons_self
    rcases hxy with hsame | ⟨hsrc, hdst⟩
    · -- another version of the same edge is passed over
      have hmark : (edgeRebuild schemas part index).mark x.1 =
          (edgeRebuild schemas part index).mark y.1 := by
        obtain ⟨hsrc, hdst⟩ := ends_eq_of_keyWithNoVersion hx hy hsame
        exact Prod.ext hsrc hdst
      rw [hsame] at hother
      rw [find?_cons_of_neg (by simpa using hother)] at hfind
      rw [visited, remembers_edgeRebuild.skips_mark _ _ hx hy hsame, if_neg (by simp), hmark]
      exact ih hchain hwanted hother hfind
    · have hskips : (edgeRebuild schemas part index).skips
          ((edgeRebuild schemas part index).mark x.1) y.1 = false := by
        simp [edgeRebuild, hsrc, hdst]
      rw [visited, hy, hskips, if_pos (by simp)]
      by_cases hrow : keyWithNoVersion y.1 = keyWithNoVersion row.1
      · rw [find?_cons_of_pos (by simpa using hrow), Option.some.injEq] at hfind
        exact hfind ▸ mem_cons_self
      · rw [find?_cons_of_neg (by simpa using hrow)] at hfind
        exact mem_cons_of_mem _ (ih hchain hwanted hrow hfind)

theorem mem_visited_of_newest (h : EdgesIndexable schemas part index e)
    (hnew : Newest (edgeRebuild schemas part index) (e.scan (keyItem part .data)) row) :
    row ∈ visited (edgeRebuild schemas part index) (-1, -1) (e.scan (keyItem part .data)) := by
  rw [← visited_filter]
  change (edgeScan schemas part index e).find? _ = some row at hnew
  have hwanted : ∀ y ∈ edgeScan schemas part index e,
      (edgeRebuild schemas part index).wanted y.1 = true := fun y hy => (mem_filter.mp hy).2
  have hfirst := h.first
  have hchain := h.apart
  change row ∈ visited _ _ (edgeScan schemas part index e)
  cases hrows : edgeScan schemas part index e with
  | nil =>
    rw [hrows] at hnew
    cases hnew
  | cons x rows =>
    rw [hrows] at hnew hwanted hfirst hchain
    obtain ⟨hsrc, hdst⟩ := hfirst x rfl
    have hskips : (edgeRebuild schemas part index).skips (-1, -1) x.1 = false := by
      simp [edgeRebuild, hsrc.symm, hdst.symm]
    rw [visited, hwanted x mem_cons_self, hskips, if_pos (by simp)]
    by_cases hrow : keyWithNoVersion x.1 = keyWithNoVersion row.1
    · rw [find?_cons_of_pos (by simpa using hrow), Option.some.injEq] at hnew
      exact hnew ▸ mem_cons_self
    · rw [find?_cons_of_neg (by simpa using hrow)] at hnew
      exact mem_cons_of_mem _ (mem_visited_of_isChain hchain hwanted hrow hnew)

theorem edgeIndexRebuilt_of_indexable {batchSize : ℕ} (h : EdgesIndexable schemas part index e) :
    EdgeIndexRebuilt schemas part index batchSize e := by
  refine edgeIndexRebuilt_iff.mpr ⟨fun row hrow => ?_, fun row k hnew _ => ?_⟩
  · rw [← visited_filter] at hrow
    exact h.readable row (find?_of_mem_visited remembers_edgeRebuild
      (fun x hx => (mem_filter.mp hx).2) grouped_edgeRebuild hrow).1
  · exact .inl (mem_visited_of_newest h hnew)

end Edge

/-- **Rebuilding an index offline.**  For every content of a partition and every batch size,
the loop over a tag ends and leaves the newest rows in the index exactly when they are
indexable, and so does the loop over an edge type when they are. -/
theorem indexesRebuilt_of_indexable (schemas : SchemaManager) (part : Int32) (index : IndexItem)
    (batchSize : ℕ) (e : Engine) :
    (TagIndexRebuilt schemas part index batchSize e ↔ TagsIndexable schemas part index e) ∧
      (EdgesIndexable schemas part index e → EdgeIndexRebuilt schemas part index batchSize e) :=
  ⟨tagIndexRebuilt_iff, edgeIndexRebuilt_of_indexable⟩

/-! ### Two edges with one source -/

/-- Every row has the value `1` in every column. -/
def onesSchemas : SchemaManager where
  getTagPropReader _ _ := .ok ⟨fun _ => .ok (.int 1)⟩
  getEdgePropReader _ _ := .ok ⟨fun _ => .ok (.int 1)⟩

/-- A row of the vertex `-1`. -/
def minusOneEngine : Engine := AList.insert (vertexKey 1 (-1) 5 0) [0] ∅

/-- Two edges that leave the vertex `1`. -/
def fanEngine : Engine :=
  (AList.insert (edgeKey 1 ⟨1, 7, 0, 2⟩ 0) [0] ∅).insert (edgeKey 1 ⟨1, 7, 0, 3⟩ 0) [0]

/-- An index on an integer column. -/
def ageIndex (schemaId : Int32) : IndexItem := ⟨9, schemaId, [⟨[97], .int⟩]⟩

/-- Two edges with no vertex in common, one of them in two versions. -/
def apartEngine : Engine :=
  ((AList.insert (edgeKey 1 ⟨1, 7, 0, 2⟩ 0) [0] ∅).insert (edgeKey 1 ⟨1, 7, 0, 2⟩ 1) [0]).insert
    (edgeKey 1 ⟨3, 7, 0, 4⟩ 0) [0]

theorem indexesRebuilt_apart : EdgeIndexRebuilt onesSchemas 1 (ageIndex 7) 1 apartEngine := by
  refine (indexesRebuilt_of_indexable _ _ _ _ _).2 ⟨?_, ?_, fun row _ => ?_⟩
  · decide +kernel
  · unfold Apart
    decide +kernel
  · rw [edgeRebuild]
    exact nofun

/-- The vertex `-1` is taken to be visited, and so is the second of two edges that have the
same source. -/
theorem not_indexesRebuilt :
    ¬ TagIndexRebuilt onesSchemas 1 (ageIndex 5) 1 minusOneEngine ∧
      ¬ EdgeIndexRebuilt onesSchemas 1 (ageIndex 7) 1 fanEngine := by
  constructor
  · rw [tagIndexRebuilt_iff]
    intro h
    have hmem := (h (vertexKey 1 (-1) 5 0, [0]) (by unfold Newest IsNewest; decide +kernel)).1
      (by unfold StartsOver; decide +kernel) _ rfl
    revert hmem
    decide +kernel
  · rw [edgeIndexRebuilt_iff]
    rintro ⟨-, h⟩
    have hmem := h (edgeKey 1 ⟨1, 7, 0, 3⟩ 0, [0]) _ (by unfold Newest IsNewest; decide +kernel) rfl
    revert hmem
    decide +kernel

end K2Graph.Storaged
