import Mathlib.Data.List.Basic
import Mathlib.Data.Int.Notation

/-!
# The log a write-ahead log stands for

`FileBasedWal` keeps every record twice, in files and in memory buffers; what it
stands for is one contiguous list of entries with consecutive ids.  `Log` is
that list, with the operations of the `Wal` interface on it.  The raft layer is
modelled over `Log`; the byte-level model of the files is a separate matter.

`cleanWAL` throws away old files.  The entries it removes are kept in `dropped`,
which no operation reads: it only records what the log once held.

A `LogID` and a `TermID` are natural numbers: both count from one, and zero
stands for "no log" and "no term".
-/

namespace K2Graph

open List

/-- `ClusterID`, an `int64_t`. -/
abbrev ClusterID := ℤ

/-- One log entry.  Its id is its position in the log. -/
structure Entry (α : Type) where
  /-- The term of the leader that created the entry. -/
  term : ℕ
  /-- The cluster the message comes from. -/
  cluster : ClusterID
  /-- The message. -/
  msg : α
  deriving DecidableEq

/-- A contiguous log. -/
structure Log (α : Type) where
  /-- The id of the first entry of `dropped ++ entries`. -/
  base : ℕ
  /-- What `cleanWAL` removed.  No operation reads it. -/
  dropped : List (Entry α)
  /-- The entries the log holds. -/
  entries : List (Entry α)
  /-- `lastLogTerm_`, which `reset` leaves as it is. -/
  lastLogTerm : ℕ

namespace Log

variable {α : Type}

/-- The log of a new directory. -/
def empty : Log α := ⟨1, [], [], 0⟩

variable (l : Log α)

/-- The id of the next entry to be written after the last one. -/
def next : ℕ := l.base + l.dropped.length + l.entries.length

/-- The entries together with those `cleanWAL` removed. -/
def full : List (Entry α) := l.dropped ++ l.entries

/-- `firstLogId()`: zero when the log is empty. -/
def firstLogId : ℕ :=
  match l.entries with
  | [] => 0
  | _ :: _ => l.base + l.dropped.length

/-- `lastLogId()`: zero when the log is empty. -/
def lastLogId : ℕ :=
  match l.entries with
  | [] => 0
  | _ :: _ => l.next - 1

/-- The entry with the given id, if the log holds it. -/
def get? (id : ℕ) : Option (Entry α) :=
  if l.base + l.dropped.length ≤ id then l.entries[id - (l.base + l.dropped.length)]? else none

/-- `appendLog`: an empty log takes any id, a nonempty one only the next. -/
def appendLog (id : ℕ) (e : Entry α) : Option (Log α) :=
  match l.entries with
  | [] =>
      if id = l.next then some { l with entries := [e], lastLogTerm := e.term }
      else some ⟨id, [], [e], e.term⟩
  | _ :: _ =>
      if id = l.next then some { l with entries := l.entries ++ [e], lastLogTerm := e.term }
      else none

/-- `rollbackToLog`: refused outside `[firstLogId - 1, lastLogId]`. -/
def rollbackToLog (id : ℕ) : Option (Log α) :=
  if id + 1 < l.firstLogId ∨ l.lastLogId < id then none
  else
    let keep := l.entries.take (id + 1 - (l.base + l.dropped.length))
    some { l with entries := keep, lastLogTerm := (keep.getLast?.map Entry.term).getD 0 }

/-- `reset`: removes every file but keeps `lastLogTerm_`. -/
def reset : Log α := ⟨1, [], [], l.lastLogTerm⟩

/-- `cleanWAL` when it removes the files of the first `k` entries. -/
def cleanWAL (k : ℕ) : Log α :=
  { l with dropped := l.dropped ++ l.entries.take k, entries := l.entries.drop k }

/-- `iterator(start, last)`: the entries it runs over, each with its id.  It is
invalid, so runs over nothing, when `start` is out of the range of the log. -/
def iterator (start last : ℕ) : List (Entry α × ℕ) :=
  let lastId := if last ≤ l.lastLogId then last else l.lastLogId
  if lastId < start ∨ start < l.firstLogId then []
  else
    ((l.entries.drop (start - (l.base + l.dropped.length))).take (lastId + 1 - start)).zipIdx start

/-! ### What the operations do to the whole log -/

theorem length_full : l.full.length = l.dropped.length + l.entries.length := by
  simp [full]

theorem next_eq : l.next = l.base + l.full.length := by
  rw [next, length_full, Nat.add_assoc]

variable {l : Log α}

theorem lastLogId_of_ne_nil (h : l.entries ≠ []) : l.lastLogId = l.next - 1 := by
  cases he : l.entries with
  | nil => exact absurd he h
  | cons e es => simp [lastLogId, he]

theorem lastLogId_of_nil (h : l.entries = []) : l.lastLogId = 0 := by
  simp [lastLogId, h]

theorem firstLogId_of_ne_nil (h : l.entries ≠ []) :
    l.firstLogId = l.base + l.dropped.length := by
  cases he : l.entries with
  | nil => exact absurd he h
  | cons e es => simp [firstLogId, he]

theorem firstLogId_of_nil (h : l.entries = []) : l.firstLogId = 0 := by
  simp [firstLogId, h]

variable {id : ℕ}

/-- An entry that is written is the last one.  It comes after all the others, or
the log was empty and starts again. -/
theorem appendLog_eq_some (h : l.appendLog id e = some l') :
    l'.entries ≠ [] ∧ l'.next = id + 1 ∧ l'.lastLogTerm = e.term ∧
      ((id = l.next ∧ l'.base = l.base ∧ l'.full = l.full ++ [e]) ∨
        (l.entries = [] ∧ id ≠ l.next ∧ l'.base = id ∧ l'.full = [e])) := by
  cases he : l.entries with
  | nil =>
    simp only [appendLog, he] at h
    split_ifs at h with hid
    · cases h
      simp [next, full, he, hid]
    · cases h
      exact ⟨by simp, by simp [next], rfl, .inr ⟨rfl, hid, rfl, rfl⟩⟩
  | cons e' es =>
    simp only [appendLog, he] at h
    split at h
    · rename_i hid
      cases h
      refine ⟨by simp, ?_, rfl, .inl ⟨hid, rfl, by simp [full, he]⟩⟩
      simp only [next, length_append, length_cons, length_nil, he] at hid ⊢
      omega
    · cases h

theorem rollbackToLog_eq_some (h : l.rollbackToLog id = some l') :
    l'.base = l.base ∧ l'.dropped = l.dropped ∧
      l'.entries = l.entries.take (id + 1 - (l.base + l.dropped.length)) ∧
      l'.lastLogTerm = (l'.entries.getLast?.map Entry.term).getD 0 ∧
      (l.entries ≠ [] → l.base + l.dropped.length ≤ id + 1 ∧ id < l.next) ∧
      (l.entries = [] → id = 0) := by
  simp only [rollbackToLog] at h
  split at h
  · cases h
  rename_i hid
  cases h
  refine ⟨rfl, rfl, rfl, rfl, ?_, ?_⟩
  · intro hne
    rw [firstLogId_of_ne_nil hne, lastLogId_of_ne_nil hne] at hid
    have : 0 < l.entries.length := length_pos_iff.mpr hne
    simp only [next] at hid ⊢
    omega
  · intro he
    rw [lastLogId_of_nil he] at hid
    omega

@[simp] theorem cleanWAL_base (l : Log α) (k : ℕ) : (l.cleanWAL k).base = l.base := rfl

@[simp] theorem full_cleanWAL (l : Log α) (k : ℕ) : (l.cleanWAL k).full = l.full := by
  simp [full, cleanWAL]

theorem entries_cleanWAL_ne_nil (hk : k < l.entries.length) : (l.cleanWAL k).entries ≠ [] := by
  rw [cleanWAL, Ne, drop_eq_nil_iff]
  omega

theorem getElem?_iterator (h : (l.iterator start last)[i]? = some (e, id)) :
    id = start + i ∧ id ≤ last ∧ l.get? id = some e := by
  have hm : (if last ≤ l.lastLogId then last else l.lastLogId) ≤ last := by split <;> omega
  simp only [iterator] at h
  generalize (if last ≤ l.lastLogId then last else l.lastLogId) = m at h hm
  split_ifs at h with hr
  · simp at h
  rw [getElem?_zipIdx, Option.map_eq_some_iff] at h
  obtain ⟨e', he, hpair⟩ := h
  cases hpair
  rw [getElem?_take] at he
  split at he
  · rw [getElem?_drop] at he
    have hne : l.entries ≠ [] := ne_nil_of_mem (mem_of_getElem? he)
    rw [firstLogId_of_ne_nil hne] at hr
    refine ⟨rfl, by omega, ?_⟩
    rw [get?, if_pos (by omega), ← he]
    congr 1
    omega
  · cases he

theorem mem_iterator (h : (e, id) ∈ l.iterator start last) :
    start ≤ id ∧ id ≤ last ∧ l.get? id = some e := by
  obtain ⟨i, hi⟩ := mem_iff_getElem?.mp h
  obtain ⟨rfl, hlast, hget⟩ := getElem?_iterator hi
  exact ⟨Nat.le_add_right _ _, hlast, hget⟩

theorem map_snd_iterator (hne : l.entries ≠ []) (hfirst : l.firstLogId ≤ start)
    (hlast : last ≤ l.lastLogId) :
    (l.iterator start last).map Prod.snd = List.range' start (last + 1 - start) := by
  simp only [iterator, if_pos hlast]
  split
  · have h0 : last + 1 - start = 0 := by omega
    rw [h0]
    rfl
  rw [lastLogId_of_ne_nil hne, next] at hlast
  rw [firstLogId_of_ne_nil hne] at hfirst
  have hpos : 0 < l.entries.length := length_pos_iff.mpr hne
  rw [zipIdx_map_snd, length_take, length_drop]
  congr 1
  omega

theorem firstLogId_appendLog (h : l.appendLog id e = some l') :
    l'.firstLogId = if l.entries = [] then id else l.firstLogId := by
  cases he : l.entries with
  | nil =>
    simp only [appendLog, he] at h
    split_ifs at h with hid
    · cases h
      simp [firstLogId, hid, next, he]
    · cases h
      simp [firstLogId]
  | cons e' es =>
    simp only [appendLog, he] at h
    split at h
    · cases h
      simp [firstLogId, he]
    · cases h

theorem getElem?_full_of_get? (h : l.get? id = some e) :
    l.base ≤ id ∧ l.full[id - l.base]? = some e := by
  simp only [get?] at h
  split at h
  · refine ⟨by omega, ?_⟩
    rw [full, getElem?_append_right (by omega), ← h]
    congr 1
    omega
  · cases h

theorem get?_of_getElem?_full (h : l.full[id - l.base]? = some e)
    (hid : l.base + l.dropped.length ≤ id) : l.get? id = some e := by
  rw [get?, if_pos hid]
  rw [full, getElem?_append_right (by omega)] at h
  rw [← h]
  congr 1
  omega

end Log

end K2Graph
