import K2Graph.Wal.Reading
import Mathlib.Data.List.TakeWhile

/-!
# What a `FileBasedWal` stands for

A `FileBasedWal` stands for a list of records with consecutive ids: its files have
them, and its buffers have the last of them.  Every operation keeps this, and does to
the list what its name says.

`cleanWAL` looks at the age of every file, so it removes files from the front only as
long as they are in the order of their ages.  A file is as old as it says once it is
closed, and files are closed one after the other, so this holds with a clock that does
not go back.

## Main results

* `Represents.openDir`, `Represents.reopen`, `Represents.appendLog`,
  `Represents.rollbackToLog`, `Represents.reset`, `Represents.linkCurrentWAL`,
  `Represents.cleanWAL` — what each operation does to the records.
* `Represents.entries_eq` — what iterators read.
-/

namespace K2Graph.Wal

open List hiding le_refl lt_irrefl not_lt

variable (rs : List Record)

/-- `firstLogId()` of the log of the records: zero when there is none. -/
def firstIdOf : ℤ := (rs.head?.map Record.id).getD 0

/-- `lastLogId()` of the log of the records. -/
def lastIdOf : ℤ := (rs.getLast?.map Record.id).getD 0

/-- `lastLogTerm()` of the log of the records. -/
def lastTermOf : ℤ := (rs.getLast?.map Record.term).getD 0

@[simp] theorem lastIdOf_concat (r : Record) : lastIdOf (rs ++ [r]) = r.id := by
  simp [lastIdOf]

@[simp] theorem lastTermOf_concat (r : Record) : lastTermOf (rs ++ [r]) = r.term := by
  simp [lastTermOf]

variable {now : ℕ} {rs : List Record} {ages : List ℕ}

theorem lastIdOf_append (h : rs' ≠ []) : lastIdOf (rs ++ rs') = lastIdOf rs' := by
  rw [lastIdOf, getLast?_append_of_ne_nil _ h, lastIdOf]

theorem lastTermOf_append (h : rs' ≠ []) : lastTermOf (rs ++ rs') = lastTermOf rs' := by
  rw [lastTermOf, getLast?_append_of_ne_nil _ h, lastTermOf]

variable {n : ℤ}

theorem Numbered.firstIdOf (h : Numbered n rs) (hne : rs ≠ []) : firstIdOf rs = n := by
  cases rs with
  | nil => exact absurd rfl hne
  | cons r rs => exact h.1

theorem Numbered.lastIdOf (h : Numbered n rs) (hne : rs ≠ []) :
    lastIdOf rs = n + rs.length - 1 := by
  obtain ⟨rs', r, rfl⟩ := eq_nil_or_concat' rs |>.resolve_left hne
  rw [lastIdOf_concat]
  exact h.getLast? (by simp)

/-! ### The order of ages -/

/-- The numbers go up and stay below the bound. -/
def Ages (now : ℕ) (ages : List ℕ) : Prop := ages.Pairwise (· ≤ ·) ∧ ∀ t ∈ ages, t ≤ now

theorem Ages.nil (now : ℕ) : Ages now [] := ⟨List.Pairwise.nil, by simp⟩

theorem Ages.mono (h : Ages now ages) (hle : now ≤ now') : Ages now' ages :=
  ⟨h.1, fun t ht => (h.2 t ht).trans hle⟩

theorem Ages.sublist {l : List α} (h : Ages now (l.map f)) (hsub : l' <+ l) :
    Ages now (l'.map f) :=
  ⟨h.1.sublist (hsub.map f), fun t ht => h.2 t ((hsub.map f).mem ht)⟩

theorem Ages.concat (h : Ages now ages) : Ages now (ages ++ [now]) := by
  refine ⟨pairwise_append.mpr ⟨h.1, pairwise_singleton _ _, fun t ht => ?_⟩, ?_⟩
  · exact forall_mem_singleton.mpr (h.2 t ht)
  · exact forall_mem_append.mpr ⟨h.2, forall_mem_singleton.mpr le_rfl⟩

theorem filter_eq_dropWhile {α : Type} {p : α → Bool} {l : List α}
    (h : l.Pairwise fun a b => p a = true → p b = true) :
    l.filter p = l.dropWhile fun a => !p a := by
  induction l with
  | nil => rfl
  | cons a l ih =>
    obtain ⟨ha, hl⟩ := pairwise_cons.mp h
    cases hp : p a with
    | false =>
      rw [filter_cons_of_neg (by simp [hp]), dropWhile_cons_of_pos (by simp [hp]), ih hl]
    | true =>
      rw [filter_cons_of_pos hp, dropWhile_cons_of_neg (by simp [hp]),
        filter_eq_self.mpr fun b hb => ha b hb hp]

/-! ### The invariant -/

namespace FileBasedWal

/-- The files that are closed: all but the last one, when it is open. -/
def closedFiles (w : FileBasedWal) : List WalFile :=
  match w.currFile with
  | none => w.walFiles
  | some _ => w.walFiles.dropLast

def opensFile (w : FileBasedWal) (r : Record) : Bool :=
  decide (w.currFile = none) || decide (w.policy.fileSize < w.currSize + r.bytes.length)

end FileBasedWal

open FileBasedWal

/-- The log stands for the records, at the time `now`. -/
structure Represents (now : ℕ) (w : FileBasedWal) (rs : List Record) : Prop where
  files : Layout w.firstLogId w.walFiles rs
  valid : ∀ r ∈ rs, r.Valid
  first : w.firstLogId = firstIdOf rs
  last : w.lastLogId = lastIdOf rs
  lastTerm : rs ≠ [] → w.lastLogTerm = lastTermOf rs
  curr : ∀ id, w.currFile = some id → ∃ files f, w.walFiles = files ++ [f] ∧ f.info.firstId = id
  buffers : ∃ m bs, Buffered m w.buffers bs ∧ (bs ≠ [] → m + bs.length = w.firstLogId + rs.length) ∧
    ∀ r ∈ bs, w.firstLogId ≤ r.id → r ∈ rs
  buffersNil : rs = [] → w.buffers = []
  numBuffers : 1 ≤ w.policy.numBuffers ∧ w.buffers.length ≤ w.policy.numBuffers
  closed : Ages now (w.closedFiles.map fun f => f.info.mtime)
  disk : Ages now (w.walFiles.map fun f => f.file.mtime)

variable {files : List WalFile} {f : WalFile}

namespace Represents

variable {now : ℕ} {w : FileBasedWal} {rs : List Record} {r : Record}

section

variable (h : Represents now w rs)
include h

theorem numbered : Numbered w.firstLogId rs := h.files.numbered

theorem mono (hle : now ≤ now') : Represents now' w rs :=
  { h with closed := h.closed.mono hle, disk := h.disk.mono hle }

theorem lastLogId_eq (hne : rs ≠ []) :
    w.lastLogId = w.firstLogId + rs.length - 1 := by
  rw [h.last, h.numbered.lastIdOf hne]

theorem readable (hne : rs ≠ []) :
    Readable w w.firstLogId rs where
  files := ⟨w.walFiles, [], (append_nil _).symm, h.files, .inl rfl⟩
  valid := h.valid
  first := rfl
  last := h.lastLogId_eq hne
  buffers := h.buffers

end

/-- A log without files. -/
theorem empty (hfiles : w.walFiles = []) (hfirst : w.firstLogId = 0) (hlast : w.lastLogId = 0)
    (hcurr : w.currFile = none) (hbuffers : w.buffers = []) (hnum : 1 ≤ w.policy.numBuffers) :
    Represents now w [] :=
  ⟨hfiles ▸ .nil _, by simp, hfirst, hlast, by simp, by simp [hcurr],
    ⟨0, [], hbuffers ▸ .nil _, by simp, by simp⟩, fun _ => hbuffers, ⟨hnum, by simp [hbuffers]⟩,
    by simp [closedFiles, hcurr, hfiles, Ages.nil], by simp [hfiles, Ages.nil]⟩

theorem walFiles_of_nil (h : Represents now w []) : w.walFiles = [] := h.files.eq_nil_iff.mpr rfl

/-- **An iterator over a range of the log reads the records of the range.** -/
theorem entries_eq (h : Represents now w rs) {f : ℤ} (hf : w.firstLogId ≤ f) (hfl : f ≤ l)
    (hl : l ≤ w.lastLogId) :
    w.entries f l = some (rs.filter fun r => decide (f ≤ r.id ∧ r.id ≤ l)) := by
  by_cases hne : rs = []
  · -- nothing is read from an empty log
    subst hne
    have hfirst : w.firstLogId = 0 := h.first
    have hlast : w.lastLogId = 0 := h.last
    obtain rfl : f = 0 := by omega
    obtain rfl : l = 0 := by omega
    rw [entries, FileBasedWalIterator.create]
    simp only [hfirst, hlast, h.buffersNil rfl]
    rw [FileBasedWalIterator.createInFiles, h.walFiles_of_nil]
    rfl
  · have := h.lastLogId_eq hne
    exact (h.readable hne).entries_eq hf hfl (by omega)

/-! ### Closing the file -/

theorem modifyFile_concat (h : Layout n files a) (hf : f.info.firstId = n + a.length)
    (g : WalFile → WalFile) : modifyFile f.info.firstId g (files ++ [f]) = files ++ [g f] := by
  rw [modifyFile, map_append, map_singleton, if_pos rfl]
  refine congrArg (· ++ [g f]) ((map_congr_left fun f' hf' => ?_).trans (map_id' files))
  have := (h.key_mem FileBasedWalIterator.fileKey hf').2
  rw [if_neg (by omega)]

theorem closeCurrFile_currFile (w : FileBasedWal) : (w.closeCurrFile now).currFile = none := by
  rw [closeCurrFile]
  split
  · assumption
  · rfl

theorem closeCurrFile (h : Represents now w rs) : Represents now (w.closeCurrFile now) rs := by
  cases hc : w.currFile with
  | none => rwa [FileBasedWal.closeCurrFile, hc]
  | some id =>
    obtain ⟨files, f, hfiles, rfl⟩ := h.curr id hc
    have hlay := h.files
    rw [hfiles] at hlay
    obtain ⟨a, c, rfl, ha, hcf, hne⟩ := Chunked.concat_iff.mp hlay
    have hclosed := h.closed
    have hdisk := h.disk
    rw [closedFiles, hc, hfiles] at hclosed
    rw [hfiles] at hdisk
    rw [FileBasedWal.closeCurrFile, hc]
    simp only
    rw [hfiles, modifyFile_concat ha hcf.1]
    have hlay' : Layout w.firstLogId (files ++ [closeFile now f]) (a ++ c) :=
      Chunked.concat_iff.mpr ⟨a, c, rfl, ha,
        ⟨hcf.1, hcf.2.numbered, hcf.2.last, hcf.2.bytes, hcf.2.size⟩, hne⟩
    refine { h with files := hlay', curr := by simp, closed := ?_, disk := ?_ }
    · simp only [closedFiles, map_append]
      rw [dropLast_concat] at hclosed
      exact hclosed.concat
    · rw [map_append]
      exact (hdisk.sublist (sublist_append_left _ _)).concat

/-! ### Appending -/

/-- `firstLogId_` once the record has been written. -/
def newFirst (w : FileBasedWal) (r : Record) : ℤ := if w.firstLogId = 0 then r.id else w.firstLogId

def IsNext (rs : List Record) (r : Record) : Prop := rs = [] ∨ r.id = lastIdOf rs + 1

theorem firstLogId_pos (h : Represents now w rs) (hne : rs ≠ []) : 0 < w.firstLogId := by
  cases rs with
  | nil => exact absurd rfl hne
  | cons r rs =>
    rw [h.first]
    exact (h.valid r (by simp)).pos

theorem newFirst_of_ne_nil (h : Represents now w rs) (hne : rs ≠ []) :
    newFirst w r = w.firstLogId :=
  if_neg (h.firstLogId_pos hne).ne'

theorem newFirst_of_nil (h : Represents now w []) : newFirst w r = r.id := if_pos h.first

theorem layout_newFirst (h : Represents now w rs) : Layout (newFirst w r) w.walFiles rs := by
  by_cases hne : rs = []
  · subst hne
    rw [h.walFiles_of_nil]
    exact .nil _
  · rw [h.newFirst_of_ne_nil hne]
    exact h.files

theorem newFirst_add_length (h : Represents now w rs) (hnext : IsNext rs r) :
    newFirst w r + rs.length = r.id := by
  by_cases hne : rs = []
  · subst hne
    rw [h.newFirst_of_nil, length_nil, Nat.cast_zero, add_zero]
  · rw [h.newFirst_of_ne_nil hne, hnext.resolve_left hne, ← h.last, h.lastLogId_eq hne]
    omega

/-- The file `f` behind `files` is the one the record is written to: it has the
records `c`, and `files` have those before, `a`. -/
structure Prepared (now : ℕ) (n : ℤ) (r : Record) (files : List WalFile) (f : WalFile)
    (a c : List Record) : Prop where
  before : Layout n files a
  place : f.info.firstId = n + a.length
  next : r.id = f.info.firstId + c.length
  numbered : Numbered f.info.firstId c
  bytes : f.file.bytes = fileBytes c
  size : f.info.size = (fileBytes c).length
  closed : Ages now (files.map fun f => f.info.mtime)
  disk : Ages now (files.map fun f => f.file.mtime)

theorem prepareNewFile_eq (h : Represents now w rs) (hcurr : w.currFile = none)
    (hnext : IsNext rs r) :
    w.prepareNewFile now r.id =
        some { w with walFiles := w.walFiles ++ [newFile now r.id], currFile := some r.id } ∧
      Prepared now (newFirst w r) r w.walFiles (newFile now r.id) rs [] := by
  have hlay := h.layout_newFirst (r := r)
  have hlen := h.newFirst_add_length hnext
  have hlt : ∀ f ∈ w.walFiles, f.info.firstId < (newFile now r.id).info.firstId := by
    intro f hf
    have := (hlay.key_mem FileBasedWalIterator.fileKey hf).2
    simp only [newFile]
    omega
  have hinsert : insertFile (newFile now r.id) w.walFiles = w.walFiles ++ [newFile now r.id] := by
    rw [insertFile, takeWhile_eq_self_iff.mpr fun f hf => decide_eq_true (hlt f hf),
      dropWhile_eq_nil_iff.mpr fun f hf => decide_eq_true (hlt f hf)]
  have hany : (w.walFiles.any fun f => decide (f.info.firstId = r.id)) = false := by
    rw [any_eq_false]
    intro f hf
    rw [decide_eq_true_eq]
    exact (hlt f hf).ne
  have hclosed := h.closed
  rw [closedFiles, hcurr] at hclosed
  refine ⟨?_, ⟨hlay, hlen.symm, by simp [newFile], trivial, rfl, rfl, hclosed, h.disk⟩⟩
  rw [prepareNewFile, hany, hinsert]
  rfl

variable {id : ℤ}

theorem prepared_curr (h : Represents now w rs) (hcurr : w.currFile = some id)
    (hnext : IsNext rs r) :
    ∃ files f a c, w.walFiles = files ++ [f] ∧ f.info.firstId = id ∧ rs = a ++ c ∧ c ≠ [] ∧
      Prepared now (newFirst w r) r files f a c := by
  obtain ⟨files, f, hfiles, rfl⟩ := h.curr id hcurr
  have hlay := h.layout_newFirst (r := r)
  have hlen := h.newFirst_add_length hnext
  have hclosed := h.closed
  have hdisk := h.disk
  rw [closedFiles, hcurr, hfiles] at hclosed
  simp only [dropLast_concat] at hclosed
  rw [hfiles] at hdisk hlay
  obtain ⟨a, c, rfl, ha, hc, hne⟩ := Chunked.concat_iff.mp hlay
  refine ⟨files, f, a, c, hfiles, rfl, rfl, hne,
    ⟨ha, hc.1, ?_, hc.2.numbered, hc.2.bytes, hc.2.size,
    hclosed, hdisk.sublist (sublist_append_left _ _)⟩⟩
  rw [← hlen, length_append]
  omega

theorem prepareFile_eq (h : Represents now w rs) (hnext : IsNext rs r) :
    ∃ files f a c, w.prepareFile now r =
        some { w with walFiles := files ++ [f], currFile := some f.info.firstId } ∧
      rs = a ++ c ∧ (c = [] ↔ w.opensFile r = true) ∧
      Prepared now (newFirst w r) r files f a c := by
  rw [prepareFile]
  cases hcurr : w.currFile with
  | none =>
    obtain ⟨heq, hp⟩ := h.prepareNewFile_eq hcurr hnext
    rw [heq]
    exact ⟨_, _, rs, [], rfl, by simp, by simp [opensFile, hcurr], hp⟩
  | some id =>
    rw [if_neg (by simp)]
    split
    · -- the record is too long for the open file
      rename_i hfull
      obtain ⟨heq, hp⟩ := h.closeCurrFile.prepareNewFile_eq (closeCurrFile_currFile w) hnext
      rw [heq, FileBasedWal.closeCurrFile, hcurr]
      rw [FileBasedWal.closeCurrFile, hcurr] at hp
      exact ⟨_, _, rs, [], rfl, by simp, by simp only [opensFile, decide_eq_true hfull,
        Bool.or_true], hp⟩
    · rename_i hroom
      obtain ⟨files, f, a, c, hfiles, rfl, hrs, hne, hp⟩ := h.prepared_curr hcurr hnext
      refine ⟨files, f, a, c, ?_, hrs, ?_, hp⟩
      · rw [← hfiles, ← hcurr]
      · simp only [hne, opensFile, hcurr, decide_eq_false hroom, reduceCtorEq, decide_false,
          Bool.or_self]

theorem Prepared.write (h : Prepared now n r files f a c) :
    Layout n (files ++ [writeRecord now r f]) (a ++ c ++ [r]) := by
  rw [append_assoc]
  refine Chunked.concat_iff.mpr ⟨a, c ++ [r], rfl, h.before, ⟨h.place, ?_⟩, by simp⟩
  refine ⟨numbered_append.mpr ⟨h.numbered, h.next, trivial⟩, ⟨r, by simp, rfl, rfl⟩, ?_, ?_⟩
  · rw [writeRecord, fileBytes_append, fileBytes_cons, fileBytes_nil, append_nil, h.bytes]
  · rw [writeRecord, fileBytes_append, fileBytes_cons, fileBytes_nil, append_nil,
      length_append, h.size]

theorem Prepared.map_write (h : Prepared now n r files f a c) :
    (files ++ [f]).map (fun g => if some g.info.firstId = some f.info.firstId
      then writeRecord now r g else g) = files ++ [writeRecord now r f] := by
  simp only [Option.some.injEq]
  exact modifyFile_concat h.before h.place (writeRecord now r)

theorem buffered_new (r : Record) :
    Buffered r.id [InMemoryLogBuffer.push ⟨r.id, [], 0⟩ r] [r] :=
  Chunked.singleton ⟨rfl, ⟨⟨rfl, trivial⟩, rfl⟩⟩ (by simp)

variable {buffers : List InMemoryLogBuffer}

theorem buffered_tail (h : Buffered m buffers bs) :
    ∃ m' bs', Buffered m' buffers.tail bs' ∧ m' + bs'.length = m + bs.length ∧
      ∀ x ∈ bs', x ∈ bs := by
  cases h with
  | nil => exact ⟨m, [], .nil m, rfl, by simp⟩
  | @cons _ b buffers c bs hc hne hrest =>
    refine ⟨m + c.length, bs, hrest, ?_, fun x hx => mem_append_right _ hx⟩
    rw [length_append]
    omega

variable {policy : FileBasedWalPolicy}

/-- The record is put into the last buffer, or into a new one. -/
theorem pushLog_eq (hbuf : Buffered m buffers bs) (hlen : bs ≠ [] → m + bs.length = r.id)
    (hnum : 1 ≤ policy.numBuffers ∧ buffers.length ≤ policy.numBuffers) :
    ∃ buffers' m' bs', pushLog policy r buffers = some buffers' ∧ Buffered m' buffers' bs' ∧
      m' + bs'.length = r.id + 1 ∧ (∀ x ∈ bs', x ∈ bs ∨ x = r) ∧
      buffers'.length ≤ policy.numBuffers := by
  rw [pushLog]
  rcases eq_nil_or_concat' buffers with rfl | ⟨buffers, b, rfl⟩
  · exact ⟨_, r.id, [r], rfl, buffered_new r, by simp, by simp, by simpa using hnum.1⟩
  obtain ⟨a, c, rfl, ha, hc, hne⟩ := Chunked.concat_iff.mp hbuf
  have hend := hlen (by simp [hne])
  simp only [getLast?_append, getLast?_singleton, Option.some_or]
  split
  · -- the last buffer has room
    refine ⟨_, m, a ++ (c ++ [r]), rfl, ?_, ?_, ?_, ?_⟩
    · rw [dropLast_concat]
      refine Chunked.concat_iff.mpr ⟨a, c ++ [r], rfl, ha, ⟨hc.1, ?_, ?_⟩, by simp⟩
      · refine numbered_append.mpr ⟨hc.2.numbered, ?_, trivial⟩
        rw [InMemoryLogBuffer.push, hc.1, ← hend, length_append]
        omega
      · rw [InMemoryLogBuffer.push, hc.2.logs, map_append, map_singleton]
    · rw [← hend]
      simp only [length_append, length_singleton]
      omega
    · intro x hx
      simp only [mem_append, mem_singleton] at hx ⊢
      tauto
    · simpa using hnum.2
  -- a new buffer comes behind the others, and maybe the first one goes
  have hrest : ∃ rest m' bs', (if (buffers ++ [b]).length = policy.numBuffers
        then (buffers ++ [b]).tail else buffers ++ [b]) = rest ∧
      rest.length < policy.numBuffers ∧ Buffered m' rest bs' ∧ m' + bs'.length = r.id ∧
      ∀ x ∈ bs', x ∈ a ++ c := by
    split
    · obtain ⟨m', bs', h1, h2, h3⟩ := buffered_tail hbuf
      refine ⟨_, m', bs', rfl, ?_, h1, h2.trans hend, h3⟩
      rw [length_tail]
      omega
    · exact ⟨_, m, a ++ c, rfl, by omega, hbuf, hend, fun x hx => hx⟩
  obtain ⟨rest, m', bs', heq, hlt, hbuf', hend', hsub⟩ := hrest
  simp only [heq]
  rw [if_pos hlt]
  refine ⟨_, m', bs' ++ [r], rfl, ?_, ?_, ?_, ?_⟩
  · refine Chunked.append_iff.mpr ⟨bs', [r], rfl, hbuf', ?_⟩
    rw [hend']
    exact buffered_new r
  · rw [length_append, length_singleton]
    omega
  · intro x hx
    rcases mem_append.mp hx with hx | hx
    · exact .inl (hsub x hx)
    · exact .inr (mem_singleton.mp hx)
  · rw [length_append, length_singleton]
    omega

/-- **A record is appended** if the log is not stopped, the record is the next one,
and the preprocessor takes it. -/
theorem appendLog (h : Represents now w rs) (hr : r.Valid) (hstop : w.stopped = false)
    (hnext : IsNext rs r) (hpre : w.preProcessor r = true) :
    ∃ w', w.appendLog now r = some (w', true) ∧ Represents now w' (rs ++ [r]) ∧
      w'.policy = w.policy ∧ w'.preProcessor = w.preProcessor ∧ w'.stopped = w.stopped := by
  have hgap : ¬ (w.lastLogId ≠ 0 ∧ w.firstLogId ≠ 0 ∧ r.id ≠ w.lastLogId + 1) := by
    rintro ⟨h0, -, hne⟩
    rcases hnext with rfl | hid
    · exact h0 h.last
    · rw [h.last] at hne
      exact hne hid
  obtain ⟨files, f, a, c, hprep, hrs, -, hp⟩ := h.prepareFile_eq hnext
  obtain ⟨m, bs, hbuf, hend, hsub⟩ := h.buffers
  have hlen := h.newFirst_add_length hnext
  have hbs : bs ≠ [] → m + bs.length = r.id := by
    intro hne
    have hrsne : rs ≠ [] := by
      rintro rfl
      rw [h.buffersNil rfl] at hbuf
      cases hbuf
      exact hne rfl
    rw [hend hne, ← hlen, h.newFirst_of_ne_nil hrsne]
  obtain ⟨buffers', m', bs', hpush, hbuf', hend', hsub', hnum'⟩ := pushLog_eq hbuf hbs h.numBuffers
  have hwrite := hp.write
  rw [← hrs] at hwrite
  have hfirst : w.firstLogId ≤ newFirst w r := by
    have := hr.pos
    unfold newFirst
    split <;> omega
  rw [FileBasedWal.appendLog, hstop, if_neg hgap, hpre, hprep]
  simp only [Bool.false_eq_true, if_false, Bool.not_true, Option.bind_eq_bind, Option.bind_some]
  rw [if_neg (by rw [Record.length_bytes]; exact not_lt.mpr hr.msg), hpush]
  simp only [hp.map_write]
  refine ⟨_, rfl, ?_, rfl, rfl, hstop⟩
  refine ⟨hwrite, ?_, ?_, ?_, ?_, ?_, ⟨m', bs', hbuf', ?_, ?_⟩, by simp, ⟨h.numBuffers.1, hnum'⟩,
    ?_, ?_⟩
  · exact forall_mem_append.mpr ⟨h.valid, forall_mem_singleton.mpr hr⟩
  · exact (hwrite.numbered.firstIdOf (by simp)).symm
  · simp
  · simp
  · simp only [Option.some.injEq]
    rintro id rfl
    exact ⟨files, _, rfl, rfl⟩
  · intro _
    rw [hend', length_append, length_singleton]
    change r.id + 1 = newFirst w r + _
    omega
  · intro x hx hge
    rcases hsub' x hx with hx | rfl
    · exact mem_append_left _ (hsub x hx (hfirst.trans hge))
    · simp
  · simp only [closedFiles, dropLast_concat]
    exact hp.closed
  · rw [map_append]
    exact hp.disk.concat

/-! ### Rolling back -/

theorem rollbackLoop_of_findLog
    (h : FileBasedWalIterator.findLog bytes i fuel pos = some (start, t, len)) (id term : ℤ) :
    rollbackLoop bytes i fuel pos id term = (start + 32 + len, i, t) := by
  induction fuel generalizing pos id term with
  | zero => cases h
  | succ fuel ih =>
    obtain ⟨logId, hid, h⟩ := Option.bind_eq_some_iff.mp h
    obtain ⟨term', hterm, h⟩ := Option.bind_eq_some_iff.mp h
    obtain ⟨len', hlen, h⟩ := Option.bind_eq_some_iff.mp h
    simp only [rollbackLoop, hid, hterm, hlen]
    split_ifs at h with heq
    · cases h
      rw [if_pos heq, heq]
    · rw [if_neg heq, ih h]

theorem rollbackInFile_eq (now : ℕ) (h : f.Holds (a ++ r :: b))
    (hvalid : ∀ x ∈ a ++ r :: b, x.Valid) :
    ∃ f', rollbackInFile now r.id f = some f' ∧ f'.Holds (a ++ [r]) ∧
      f'.info.firstId = f.info.firstId ∧ f'.info.mtime = f.info.mtime ∧
      (f'.file.mtime = f.file.mtime ∨ f'.file.mtime = now) := by
  have hother : ∀ x ∈ a, x.id ≠ r.id := by
    intro x hx hxr
    have hnum := numbered_append.mp h.numbered
    have := (hnum.1.le_id hx).2
    have := hnum.2.1
    omega
  have hloop : rollbackLoop f.file.bytes r.id (f.file.bytes.length + 1) 0 0 0 =
      (((fileBytes (a ++ [r])).length : ℤ), r.id, r.term) := by
    have hlen := length_le_fileBytes (a ++ r :: b)
    rw [length_append] at hlen
    rw [h.bytes, length_fileBytes_concat]
    exact rollbackLoop_of_findLog (FileBasedWalIterator.findLog_eq (p := []) hvalid hother
      (by omega)) 0 0
  have hnum : Numbered f.info.firstId (a ++ [r]) := by
    have := numbered_append.mp h.numbered
    exact numbered_append.mpr ⟨this.1, this.2.1, trivial⟩
  have hsplit : a ++ r :: b = (a ++ [r]) ++ b := by simp
  have hbytes : f.file.bytes = fileBytes (a ++ [r]) ++ fileBytes b := by
    rw [h.bytes, hsplit, fileBytes_append]
  have hpos : 0 < (fileBytes (a ++ [r])).length := by
    have := length_le_fileBytes (a ++ [r])
    rw [length_append, length_singleton] at this
    omega
  simp only [rollbackInFile, hloop]
  rw [if_neg (by omega)]
  split
  · -- records behind it are cut off
    refine ⟨_, rfl, ⟨hnum, ⟨r, by simp, rfl, rfl⟩, ?_, ?_⟩, rfl, rfl, .inr rfl⟩
    · rw [Int.toNat_natCast, hbytes, take_left]
    · simp only [Int.toNat_natCast]
  -- it is the last one in the file
  rename_i hlast
  have hb : fileBytes b = [] := by
    rw [hbytes, length_append] at hlast
    exact length_eq_zero_iff.mp (by omega)
  refine ⟨_, rfl, ⟨hnum, ⟨r, by simp, rfl, rfl⟩, ?_, ?_⟩, rfl, rfl, .inl rfl⟩
  · rw [hbytes, hb, append_nil]
  · rw [h.size, hsplit, fileBytes_append (a ++ [r]), hb, append_nil]

theorem keptFiles_eq (hp : ∀ f ∈ p, f.info.firstId < id + 1)
    (hq : ∀ f ∈ q, id + 1 ≤ f.info.firstId) :
    keptFiles id (p ++ q) = p := by
  rw [keptFiles, takeWhile_append_of_pos fun f hf => decide_eq_true (by have := hp f hf; omega)]
  cases q with
  | nil => rw [takeWhile_nil, append_nil]
  | cons f q =>
    have := hq f (by simp)
    rw [takeWhile_cons_of_neg (by rw [decide_eq_true_eq]; omega), append_nil]

/-- The records up to an id. -/
def upTo (id : ℤ) (rs : List Record) : List Record := rs.filter fun r => decide (r.id ≤ id)

theorem upTo_append (h : Numbered n (a ++ b)) (hid : id = n + a.length - 1) :
    upTo id (a ++ b) = a := by
  have hnum := numbered_append.mp h
  rw [upTo, filter_append, filter_eq_self.mpr, filter_eq_nil_iff.mpr, append_nil]
  · intro x hx
    have := (hnum.2.le_id hx).1
    rw [decide_eq_true_eq]
    omega
  · intro x hx
    have := (hnum.1.le_id hx).2
    rw [decide_eq_true_eq]
    omega

theorem closeCurrFile_eq (now : ℕ) (w : FileBasedWal) :
    ∃ files, w.closeCurrFile now = { w with walFiles := files, currFile := none } := by
  rw [FileBasedWal.closeCurrFile]
  split
  · rename_i hcurr
    exact ⟨w.walFiles, by rw [← hcurr]⟩
  · exact ⟨_, rfl⟩

/-- **The log is rolled back** to an id in its range, or to the one before it. -/
theorem rollbackToLog (h : Represents now w rs) (hlow : w.firstLogId - 1 ≤ id)
    (hhigh : id ≤ w.lastLogId) :
    ∃ w', w.rollbackToLog now id = some (w', true) ∧ Represents now w' (upTo id rs) ∧
      w'.policy = w.policy ∧ w'.preProcessor = w.preProcessor ∧ w'.stopped = w.stopped := by
  have hc := h.closeCurrFile
  obtain ⟨files, hclose⟩ := closeCurrFile_eq now w
  rw [hclose] at hc
  have hlay : Layout w.firstLogId files rs := hc.files
  rw [FileBasedWal.rollbackToLog, if_neg (by omega), hclose]
  simp only
  obtain ⟨p, q, rfl, hp, hq⟩ := hlay.exists_split FileBasedWalIterator.fileKey (id + 1)
  rw [keptFiles_eq hp hq]
  rcases eq_nil_or_concat' p with rfl | ⟨p, f, rfl⟩
  · -- all files go
    have hup : upTo id rs = [] ∧ (id = w.firstLogId - 1 ∨ id = 0) := by
      by_cases hne : rs = []
      · subst hne
        have hfirst : w.firstLogId = 0 := h.first
        have hlast : w.lastLogId = 0 := h.last
        exact ⟨rfl, by omega⟩
      · have hlast := h.lastLogId_eq hne
        have hlt := hlay.lt_of_forall_key FileBasedWalIterator.fileKey
          hq (by omega)
        have hid : id = w.firstLogId - 1 := by omega
        exact ⟨upTo_append (a := []) h.numbered (by simpa using hid), .inl hid⟩
    rw [hup.1]
    rw [if_pos hup.2]
    exact ⟨_, rfl, empty rfl rfl rfl rfl rfl h.numBuffers.1, rfl, rfl, rfl⟩
  -- the file with the id is the last one that stays
  obtain ⟨ps, zs, rfl, hps, hzs⟩ := Chunked.append_iff.mp hlay
  obtain ⟨a₀, c, rfl, ha₀, hcf, hne⟩ := Chunked.concat_iff.mp hps
  have hend := h.lastLogId_eq (by simp [hne])
  have hlast : w.firstLogId + ((a₀ ++ c).length : ℤ) = f.info.firstId + c.length := by
    rw [length_append]
    omega
  have hf1 := hp f (by simp)
  have hf2 : id < f.info.firstId + c.length := by
    rw [← hlast]
    refine hzs.lt_of_forall_key FileBasedWalIterator.fileKey hq ?_
    rw [@length_append _ _ zs] at hend
    omega
  obtain ⟨a, r, b, rfl, rfl, hra⟩ :=
    FileBasedWalIterator.exists_cut hcf.2.numbered (by omega) hf2
  have hvalid : ∀ x ∈ a ++ r :: b, x.Valid := fun x hx =>
    h.valid x (mem_append_left _ (mem_append_right _ hx))
  obtain ⟨f', heq, hholds, hfirst, hmtime, hdisk'⟩ := rollbackInFile_eq now hcf.2 hvalid
  have hup : upTo r.id (a₀ ++ (a ++ r :: b) ++ zs) = a₀ ++ (a ++ [r]) := by
    have hsplit : a₀ ++ (a ++ r :: b) ++ zs = (a₀ ++ (a ++ [r])) ++ (b ++ zs) := by simp
    rw [hsplit]
    refine upTo_append (hsplit ▸ h.numbered) ?_
    simp only [length_append, length_singleton]
    omega
  have hlay' : Layout w.firstLogId (p ++ [f']) (a₀ ++ (a ++ [r])) :=
    Chunked.concat_iff.mpr ⟨a₀, a ++ [r], rfl, ha₀, ⟨hfirst.trans hcf.1, hholds⟩, by simp⟩
  have hclosed : Ages now ((p ++ [f] ++ q).map fun f => f.info.mtime) := hc.closed
  have hdisk : Ages now ((p ++ [f] ++ q).map fun f => f.file.mtime) := hc.disk
  have hclosed := hclosed.sublist (sublist_append_left _ _)
  have hdisk := hdisk.sublist (sublist_append_left _ _)
  obtain ⟨r', hr', -, hterm⟩ := hholds.last
  rw [getLast?_append, getLast?_singleton, Option.some_or, Option.some.injEq] at hr'
  simp only [getLast?_append, getLast?_singleton, Option.some_or]
  rw [heq, hup]
  refine ⟨_, rfl, ?_, rfl, rfl, rfl⟩
  refine ⟨?_, ?_, ?_, ?_, ?_, by simp, ⟨0, [], .nil _, by simp, by simp⟩, by simp,
    ⟨h.numBuffers.1, by simp⟩, ?_, ?_⟩
  · rw [dropLast_concat]
    exact hlay'
  · intro x hx
    apply h.valid
    exact mem_of_mem_filter (hup ▸ hx)
  · exact (hlay'.numbered.firstIdOf (by simp)).symm
  · rw [← append_assoc, lastIdOf_concat]
  · intro _
    rw [← append_assoc, lastTermOf_concat, hterm, ← hr']
  · simp only [closedFiles, map_append, map_singleton, hmtime]
    simpa using hclosed
  simp only [dropLast_concat, map_append, map_singleton]
  rcases hdisk' with heq | heq
  · rw [map_append] at hdisk
    rwa [heq]
  · rw [heq]
    exact (hdisk.sublist (sublist_append_left _ _)).concat

/-! ### Cleaning -/

theorem filter_expired (ttl : ℤ) (h : Ages now (files.map fun f => f.info.mtime)) :
    ∃ gone, files = gone ++ files.filter fun f => !expired now ttl f := by
  have hpair : files.Pairwise fun f g => (!expired now ttl f) = true → (!expired now ttl g) =
    true := by
    refine (pairwise_map.mp h.1).imp fun hle => ?_
    simp only [expired, Bool.not_eq_true', decide_eq_false_iff_not]
    omega
  rw [filter_eq_dropWhile hpair]
  exact ⟨_, (takeWhile_append_dropWhile).symm⟩

/-- **Cleaning** removes some records from the front, but not all. -/
theorem cleanWAL (h : Represents now w rs) (ttl : ℤ) :
    ∃ gone rest, rs = gone ++ rest ∧ (rest = [] → rs = []) ∧
      Represents now (w.cleanWAL now ttl) rest := by
  rw [FileBasedWal.cleanWAL]
  split
  · exact ⟨[], rs, rfl, id, h⟩
  rename_i hne
  obtain ⟨files, f, hfiles⟩ := eq_nil_or_concat' w.walFiles |>.resolve_left hne
  have hclosed := h.closed
  have hages : Ages now (files.map fun f => f.info.mtime) := by
    refine hclosed.sublist ?_
    rw [closedFiles, hfiles]
    split
    · exact sublist_append_left _ _
    · rw [dropLast_concat]
  obtain ⟨gone, hgone⟩ :=
    filter_expired (if ttl = 0 then w.policy.ttl else ttl) hages
  have hlay := h.files
  have hdisk := h.disk
  have hsuffix : w.walFiles =
      gone ++ cleanFiles now (if ttl = 0 then w.policy.ttl else ttl) w.walFiles := by
    rw [cleanFiles, hfiles, dropLast_concat, getLast?_append, getLast?_singleton,
      Option.some_or, Option.toList_some, ← append_assoc, ← hgone]
  simp only
  generalize hkept : cleanFiles now (if ttl = 0 then w.policy.ttl else ttl) w.walFiles = kept
    at hsuffix
  have hlast : ∃ kept', kept = kept' ++ [f] := by
    rw [cleanFiles, hfiles, getLast?_append] at hkept
    exact ⟨_, hkept.symm⟩
  rw [hsuffix] at hlay hdisk
  obtain ⟨a, z, rfl, -, hz⟩ := Chunked.append_iff.mp hlay
  have hzne : z ≠ [] := by
    obtain ⟨kept', rfl⟩ := hlast
    exact hz.eq_nil_iff.not.mp (by simp)
  have hfirst : (kept.head?.map fun f => f.info.firstId).getD 0 = w.firstLogId + a.length := by
    cases hz with
    | nil => exact absurd rfl hzne
    | cons hc _ _ => exact hc.1
  refine ⟨a, z, rfl, fun hc => absurd hc hzne, ?_⟩
  rw [hfirst]
  refine ⟨hz, fun x hx => h.valid x (mem_append_right _ hx), ?_, ?_, ?_, ?_, ?_,
    fun hc => absurd hc hzne, h.numBuffers, ?_, ?_⟩
  · exact ((Layout.numbered hz).firstIdOf hzne).symm
  · rw [h.last, lastIdOf_append hzne]
  · intro _
    rw [h.lastTerm (by simp [hzne]), lastTermOf_append hzne]
  · intro id hid
    obtain ⟨files', f', hfiles', rfl⟩ := h.curr id hid
    rw [hfiles] at hfiles'
    obtain ⟨kept', rfl⟩ := hlast
    exact ⟨kept', f, rfl, by rw [(append_inj_right' hfiles' rfl |> singleton_inj.mp)]⟩
  · obtain ⟨m, bs, hbuf, hend, hsub⟩ := h.buffers
    refine ⟨m, bs, hbuf, fun hne => ?_, fun x hx hge => ?_⟩
    · rw [hend hne, length_append]
      push_cast
      omega
    simp only at hge
    have hnum := numbered_append.mp h.numbered
    rcases mem_append.mp (hsub x hx (by omega)) with hmem | hmem
    · have := (hnum.1.le_id hmem).2
      omega
    · exact hmem
  · refine hclosed.sublist ?_
    simp only [closedFiles]
    rw [hsuffix]
    split
    · exact sublist_append_right _ _
    · obtain ⟨kept', rfl⟩ := hlast
      rw [← append_assoc, dropLast_concat, dropLast_concat]
      exact sublist_append_right _ _
  · exact hdisk.sublist (sublist_append_right _ _)

/-! ### The other operations -/

theorem reset (h : Represents now w rs) : Represents now (w.reset now) [] := by
  obtain ⟨files, hclose⟩ := closeCurrFile_eq now w
  rw [FileBasedWal.reset, hclose]
  exact empty rfl rfl rfl rfl rfl h.numBuffers.1

/-- A new `FileBasedWal` finds the records of a directory. -/
theorem openDir {preProcessor : Record → Bool} (hlay : Layout n files rs)
    (hvalid : ∀ r ∈ rs, r.Valid) (hnum : 1 ≤ policy.numBuffers)
    (hdisk : Ages now (files.map fun f => f.file.mtime)) :
    Represents now (FileBasedWal.openDir policy preProcessor now (dirOf files)) rs := by
  rw [FileBasedWal.openDir, scanAllWalFiles_of_layout hlay hvalid]
  have hlay' := hlay.refresh
  have hmtime : ((files.map WalFile.refresh).map fun f => f.info.mtime) =
      files.map fun f => f.file.mtime := map_map
  have hmtime' : ((files.map WalFile.refresh).map fun f => f.file.mtime) =
      files.map fun f => f.file.mtime := map_map
  generalize files.map WalFile.refresh = files' at hlay' hmtime hmtime'
  rw [← hmtime] at hdisk
  cases hlay' with
  | nil => exact empty rfl rfl rfl rfl rfl hnum
  | @cons _ f files' c rs' hc hne hrest =>
    have hlay' : Layout n (f :: files') (c ++ rs') := .cons hc hne hrest
    obtain ⟨init, g, hsplit⟩ := eq_nil_or_concat' (f :: files') |>.resolve_left (by simp)
    have hfirst : ((f :: files').head?.map fun f => f.info.firstId).getD 0 = n := hc.1
    rw [hfirst]
    rw [hsplit] at hlay' hdisk hmtime hmtime' ⊢
    simp only [getLast?_append, getLast?_singleton, Option.some_or, Option.map_some]
    obtain ⟨a, d, had, ha, hd, hdne⟩ := Chunked.concat_iff.mp hlay'
    obtain ⟨r, hr, hid, hterm⟩ := hd.2.last
    rw [had] at hvalid ⊢
    rw [had] at hlay'
    refine ⟨hlay', hvalid, ?_, ?_, ?_, ?_, ⟨0, [], .nil _, by simp, by simp⟩, by simp,
      ⟨hnum, by simp⟩, ?_, ?_⟩
    · exact (hlay'.numbered.firstIdOf (by simp [hdne])).symm
    · rw [hid, lastIdOf_append hdne, lastIdOf, hr]
      rfl
    · intro _
      rw [hterm, lastTermOf_append hdne, lastTermOf, hr]
      rfl
    · simp only [Option.some.injEq]
      rintro id rfl
      exact ⟨init, g, rfl, rfl⟩
    · simp only [closedFiles, dropLast_concat]
      exact hdisk.sublist (sublist_append_left _ _)
    · rw [hmtime', ← hmtime]
      exact hdisk

/-- **Closing and opening the log again** keeps the records. -/
theorem reopen (h : Represents now w rs) : Represents now (w.reopen now) rs := by
  have hc := h.closeCurrFile
  exact openDir hc.files hc.valid h.numBuffers.1 hc.disk

end Represents

end K2Graph.Wal
