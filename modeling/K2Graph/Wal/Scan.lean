import K2Graph.Lib.Chunked
import K2Graph.Wal.Record

/-!
# Reading a directory of log files

`FileBasedWal` keeps its records in files, each named after the id of its first
record.  A new `FileBasedWal` reads the directory again: it takes the last record of
each file from the last bytes of the file, walks through the last file from its
start, and drops what stands before the last gap.

Every file of the directory is one that a `FileBasedWal` has created, so the names
are well formed, and reading the status of a file and opening it succeed.

## Main results

* `scanAllWalFiles_of_layout` — the files of a log are read as they were written.
* `scanLastWal_of_torn` — a file that ends in a part of a record.
-/

namespace K2Graph.Wal

open List Option LittleEndian

/-! ### Files -/

/-- A file on disk. -/
structure File where
  /-- Its content. -/
  bytes : List UInt8
  /-- Its modification time. -/
  mtime : ℕ

structure WalFileInfo where
  /-- `firstLogId_`, which is the name of the file. -/
  firstId : ℤ
  /-- `lastLogId_`. -/
  lastId : ℤ
  /-- `lastLogTerm_`. -/
  lastTerm : ℤ
  mtime : ℕ
  size : ℕ
  deriving DecidableEq

/-- An element of `walFiles_` and the file it stands for. -/
structure WalFile where
  /-- What is known of it. -/
  info : WalFileInfo
  /-- The file. -/
  file : File

/-- The files of a directory, in the order of their names. -/
abbrev Dir := List (ℤ × File)

def dirOf (files : List WalFile) : Dir := files.map fun f => (f.info.firstId, f.file)

/-! ### The code -/

/-- `scanAllWalFiles`: the last id and the last term of a file, from its last
bytes. -/
def readTail (bytes : List UInt8) : ℤ × ℤ :=
  match readInt bytes (bytes.length - 4) 4 with
  | none => (-1, -1)
  | some succMsgLen =>
      match readInt bytes (bytes.length - (16 + succMsgLen)) 4 with
      | none => (-1, -1)
      | some precMsgLen =>
          if precMsgLen ≠ succMsgLen then (-1, -1)
          else
            match readInt bytes (bytes.length - (24 + succMsgLen)) 8 with
            | none => (-1, -1)
            | some term =>
                match readInt bytes (bytes.length - (32 + succMsgLen)) 8 with
                | none => (-1, term)
                | some id => (id, term)

/-- The last id and the last term `scanAllWalFiles` sets for a file. -/
def guessLast (startIdFromName : ℤ) (bytes : List UInt8) : ℤ × ℤ :=
  if bytes = [] then (0, 0)
  else
    match readInt bytes 0 8 with
    | none => (-1, -1)
    | some firstLogId => if firstLogId ≠ startIdFromName then (-1, -1) else readTail bytes

/-- The body of the first loop of `scanAllWalFiles`. -/
def scanFile (startIdFromName : ℤ) (f : File) : WalFile where
  info :=
    { firstId := startIdFromName, lastId := (guessLast startIdFromName f.bytes).1,
      lastTerm := (guessLast startIdFromName f.bytes).2, mtime := f.mtime,
      size := f.bytes.length }
  file := f

/-- The body of the loop of `scanLastWal`: the term of the record at `pos` and the
position of the next one, unless the loop ends here. -/
def scanNext (bytes : List UInt8) (pos curLogId : ℤ) : Option (ℤ × ℤ) := do
  let id ← readInt bytes pos 8
  if id ≠ curLogId then none
  else
    let term ← readInt bytes (pos + 8) 8
    let head ← readInt bytes (pos + 16) 4
    let foot ← readInt bytes (pos + 28 + head) 4
    if head ≠ foot then none else some (term, pos + 32 + head)

/-- The loop of `scanLastWal`.  No position is visited twice, since `curLogId` goes
up and has to be the id that stands there, so as many rounds as there are bytes are
enough. -/
def scanLoop (bytes : List UInt8) : ℕ → ℤ → ℤ → WalFileInfo → ℤ × WalFileInfo
  | 0, pos, _, info => (pos, info)
  | fuel + 1, pos, curLogId, info =>
      match scanNext bytes pos curLogId with
      | none => (pos, info)
      | some (term, pos') =>
          scanLoop bytes fuel pos' (curLogId + 1) { info with lastTerm := term, lastId := curLogId }

/-- `scanLastWal` at the time `now`. -/
def scanLastWal (now : ℕ) (f : WalFile) : WalFile :=
  let bytes := f.file.bytes
  let (pos, info) := scanLoop bytes (bytes.length + 1) 0 f.info.firstId f.info
  if 0 < pos ∧ pos < bytes.length then
    ⟨{ info with size := pos.toNat }, ⟨bytes.take pos.toNat, now⟩⟩
  else ⟨info, f.file⟩

/-- `logIdAfterLastGap`, with `prevLastId` and its value so far. -/
def lastGap (prevLastId logIdAfterLastGap : ℤ) : List WalFile → ℤ
  | [] => logIdAfterLastGap
  | f :: files =>
      lastGap f.info.lastId
        (if prevLastId + 1 < f.info.firstId then f.info.firstId else logIdAfterLastGap) files

/-- The last part of `scanAllWalFiles`. -/
def removeBeforeGap (files : List WalFile) : List WalFile :=
  match files with
  | [] => []
  | f :: rest =>
      let gap := lastGap f.info.lastId (-1) rest
      if 0 < gap then files.dropWhile fun f => f.info.firstId < gap else files

/-- The part of `scanAllWalFiles` that looks into the last file. -/
def checkLast (now : ℕ) (files : List WalFile) : List WalFile :=
  match files.getLast? with
  | none => []
  | some f =>
      if (scanLastWal now f).info.lastId ≤ 0 then files.dropLast
      else files.dropLast ++ [scanLastWal now f]

/-- `scanAllWalFiles` at the time `now`. -/
def scanAllWalFiles (now : ℕ) (dir : Dir) : List WalFile :=
  removeBeforeGap (checkLast now (dir.map fun f => scanFile f.1 f.2))

/-! ### Numbered records -/

/-- The ids of the records count up from `n`. -/
def Numbered : ℤ → List Record → Prop
  | _, [] => True
  | n, r :: rs => r.id = n ∧ Numbered (n + 1) rs

variable {n : ℤ} {rs : List Record}

theorem numbered_append :
    Numbered n (rs ++ rs') ↔ Numbered n rs ∧ Numbered (n + rs.length) rs' := by
  induction rs generalizing n with
  | nil => simp [Numbered]
  | cons r rs ih =>
    rw [cons_append, Numbered, Numbered, ih, length_cons, and_assoc]
    have : n + 1 + (rs.length : ℤ) = n + ((rs.length + 1 : ℕ) : ℤ) := by omega
    rw [this]

theorem Numbered.getElem? (h : Numbered n rs) {i : ℕ} (hi : rs[i]? = some r) : r.id = n + i := by
  induction rs generalizing n i with
  | nil => simp at hi
  | cons r' rs ih =>
    cases i with
    | zero =>
      simp only [getElem?_cons_zero, some.injEq] at hi
      rw [← hi, h.1, Nat.cast_zero, add_zero]
    | succ i =>
      rw [ih h.2 hi]
      omega

/-! ### Walking through a file -/

variable {bytes : List UInt8} {r : Record}

theorem Stands.scanNext (h : Stands bytes pos r) (hr : r.Valid) :
    scanNext bytes pos r.id = some (r.term, pos + 32 + r.msg.length) := by
  rw [Wal.scanNext, h.readId hr, h.readTerm hr, h.readLen hr]
  simp only [bind_eq_bind, bind_some, ne_eq]
  rw [h.readFoot hr]
  simp only [bind_some, not_true_eq_false, if_false]

theorem Record.take_bytes (r : Record) (hk : 20 ≤ k) :
    ∃ post, r.bytes.take k =
      ofInt 8 r.id ++ (ofInt 8 r.term ++ (ofInt 4 r.msg.length ++ post)) := by
  have hbytes : r.bytes = (ofInt 8 r.id ++ (ofInt 8 r.term ++ ofInt 4 r.msg.length)) ++
      (ofInt 8 r.cluster ++ (r.msg ++ ofInt 4 r.msg.length)) := by
    simp [bytes]
  have hsplit : r.bytes.take 20 = ofInt 8 r.id ++ (ofInt 8 r.term ++ ofInt 4 r.msg.length) := by
    rw [hbytes]
    exact take_left' (by simp)
  refine ⟨(r.bytes.drop 20).take (k - 20), ?_⟩
  conv_lhs => rw [show k = 20 + (k - 20) by omega, take_add, hsplit]
  simp

/-- The loop ends where no foot is read. -/
theorem scanNext_eq_none {pos : ℤ} (hfoot : ∀ head, readInt bytes (pos + 16) 4 = some head →
    readInt bytes (pos + 28 + head) 4 = none) : scanNext bytes pos curLogId = none := by
  rw [Wal.scanNext]
  cases readInt bytes pos 8 with
  | none => rfl
  | some id =>
    simp only [bind_eq_bind, bind_some]
    split
    · rfl
    cases readInt bytes (pos + 8) 8 with
    | none => rfl
    | some term =>
      cases hhead : readInt bytes (pos + 16) 4 with
      | none => rfl
      | some head => simp only [bind_some, hfoot head hhead, bind_none]

theorem scanNext_of_torn (pre : List UInt8) (hr : r.Valid) (hk : k < r.bytes.length)
    (curLogId : ℤ) : scanNext (pre ++ r.bytes.take k) pre.length curLogId = none := by
  have hlen : (pre ++ r.bytes.take k).length = pre.length + k := by
    rw [length_append, length_take, min_eq_left hk.le]
  rw [Record.length_bytes] at hk
  refine scanNext_eq_none fun head hhead => ?_
  rcases lt_or_ge k 20 with h20 | h20
  · -- not even the head is there
    rw [readInt_eq_none (by omega)] at hhead
    cases hhead
  -- the head says where the foot would be
  obtain ⟨post, hpost⟩ := r.take_bytes h20
  have hmsg : readInt (pre ++ r.bytes.take k) ((pre.length : ℤ) + 16) 4 =
      some (r.msg.length : ℤ) := by
    refine readInt_of_eq (pre ++ (ofInt 8 r.id ++ ofInt 8 r.term))
      hr.fits_length ?_ ?_
    · rw [hpost]
      simp only [append_assoc]
      exact ⟨_, rfl⟩
    · simp only [length_append, length_ofInt]
      omega
  cases hmsg.symm.trans hhead
  apply readInt_eq_none
  omega

theorem length_fileBytes_concat (a : List Record) (r : Record) :
    ((fileBytes (a ++ [r])).length : ℤ) = (fileBytes a).length + 32 + r.msg.length := by
  rw [fileBytes_append, fileBytes_cons, fileBytes_nil, append_nil, length_append,
    Record.length_bytes]
  omega

/-- What is known of a file after walking over records. -/
def WalFileInfo.seen (info : WalFileInfo) (rs : List Record) : WalFileInfo :=
  match rs.getLast? with
  | none => info
  | some r => { info with lastTerm := r.term, lastId := r.id }

theorem scanLoop_eq (hb : Numbered n b) (hvalid : ∀ r ∈ b, r.Valid)
    (hstop : ∀ cur, Wal.scanNext (fileBytes (a ++ b) ++ t) (fileBytes (a ++ b)).length cur = none)
    (hfuel : b.length < fuel) :
    scanLoop (fileBytes (a ++ b) ++ t) fuel (fileBytes a).length n info =
      (((fileBytes (a ++ b)).length : ℤ), info.seen b) := by
  -- the records are those before the walk and those ahead of it
  induction b generalizing a fuel n info with
  | nil =>
    rw [append_nil] at hstop ⊢
    cases fuel with
    | zero => omega
    | succ fuel => rw [scanLoop, hstop n]; rfl
  | cons r b ih =>
    cases fuel with
    | zero => omega
    | succ fuel =>
      have hnext := (stands_fileBytes a r b).append t
      have hassoc : a ++ r :: b = (a ++ [r]) ++ b := by simp
      rw [scanLoop, ← hb.1, hnext.scanNext (hvalid r (by simp))]
      simp only
      rw [hb.1, ← length_fileBytes_concat, hassoc]
      rw [hassoc] at hstop
      rw [ih hb.2 (fun r' hr' => hvalid r' (by simp [hr'])) hstop (by simpa using hfuel)]
      cases hlast : b.getLast? with
      | none =>
        rw [getLast?_eq_none_iff] at hlast
        simp [WalFileInfo.seen, hlast, hb.1]
      | some r' =>
        simp [WalFileInfo.seen, hlast, getLast?_cons]

theorem length_le_fileBytes (rs : List Record) : rs.length ≤ (fileBytes rs).length := by
  induction rs with
  | nil => rfl
  | cons r rs ih =>
    rw [fileBytes_cons, length_append, Record.length_bytes, length_cons]
    omega

/-- `scanLastWal` on a file that ends in a part of a record: it is cut off, unless it
is all there is. -/
theorem scanLastWal_of_torn (hbytes : f.file.bytes = fileBytes rs ++ r.bytes.take k)
    (hk : k < r.bytes.length) (hnum : Numbered f.info.firstId rs) (hvalid : ∀ r ∈ rs, r.Valid)
    (hr : r.Valid) : scanLastWal now f =
      if rs ≠ [] ∧ k ≠ 0 then
        ⟨{ f.info.seen rs with size := (fileBytes rs).length }, ⟨fileBytes rs, now⟩⟩
      else ⟨f.info.seen rs, f.file⟩ := by
  have hloop : scanLoop f.file.bytes (f.file.bytes.length + 1) 0 f.info.firstId f.info =
      (((fileBytes rs).length : ℤ), f.info.seen rs) := by
    rw [hbytes]
    refine scanLoop_eq (a := []) hnum hvalid (scanNext_of_torn _ hr hk) ?_
    rw [length_append]
    have := length_le_fileBytes rs
    omega
  have hlen : f.file.bytes.length = (fileBytes rs).length + k := by
    rw [hbytes, length_append, length_take, min_eq_left hk.le]
  have hpos : 0 < (fileBytes rs).length ↔ rs ≠ [] := by
    cases rs with
    | nil => simp
    | cons r' rs =>
      rw [fileBytes_cons, length_append, Record.length_bytes]
      simp only [ne_eq, reduceCtorEq, not_false_eq_true, iff_true]
      omega
  simp only [scanLastWal, hloop]
  by_cases hc : rs ≠ [] ∧ k ≠ 0
  · have := hpos.mpr hc.1
    rw [if_pos hc, if_pos (by rw [hlen]; push_cast; omega), Int.toNat_natCast, hbytes, take_left]
  · rw [if_neg hc, if_neg]
    rintro ⟨h0, hlt⟩
    exact hc ⟨hpos.mp (by omega), by omega⟩

theorem readTail_fileBytes (rs : List Record) (hr : r.Valid) :
    readTail (fileBytes (rs ++ [r])) = (r.id, r.term) := by
  have hs := stands_fileBytes rs r []
  have hlen :
    ((fileBytes (rs ++ [r])).length : ℤ) = (fileBytes rs).length + (32 + r.msg.length) := by
    rw [fileBytes_append, length_append, fileBytes_cons, fileBytes_nil, append_nil,
      Record.length_bytes]
    rfl
  have hsucc : readInt (fileBytes (rs ++ [r])) ((fileBytes (rs ++ [r])).length - 4) 4 =
      some (r.msg.length : ℤ) := by
    rw [← hs.readFoot hr]
    congr 1
    omega
  have hprec : readInt (fileBytes (rs ++ [r]))
      ((fileBytes (rs ++ [r])).length - (16 + r.msg.length)) 4 = some (r.msg.length : ℤ) := by
    rw [← hs.readLen hr]
    congr 1
    omega
  have hterm : readInt (fileBytes (rs ++ [r]))
      ((fileBytes (rs ++ [r])).length - (24 + r.msg.length)) 8 = some r.term := by
    rw [← hs.readTerm hr]
    congr 1
    omega
  have hid : readInt (fileBytes (rs ++ [r]))
      ((fileBytes (rs ++ [r])).length - (32 + r.msg.length)) 8 = some r.id := by
    rw [← hs.readId hr]
    congr 1
    omega
  simp only [readTail, hsucc, hprec, hterm, hid, ne_eq, not_true_eq_false, if_false]

/-! ### The files of a log -/

theorem Numbered.getLast? (h : Numbered n rs) (hr : rs.getLast? = some r) :
    r.id = n + rs.length - 1 := by
  obtain ⟨rs', rfl⟩ := getLast?_eq_some_iff.mp hr
  have hid := (numbered_append.mp h).2.1
  rw [length_append, length_singleton]
  omega

/-- The file has the records, and what is known of it is right. -/
structure WalFile.Holds (f : WalFile) (rs : List Record) : Prop where
  numbered : Numbered f.info.firstId rs
  last : ∃ r, rs.getLast? = some r ∧ f.info.lastId = r.id ∧ f.info.lastTerm = r.term
  bytes : f.file.bytes = fileBytes rs
  size : f.info.size = (fileBytes rs).length

/-- The time the file was modified is what is known of it. -/
def WalFile.refresh (f : WalFile) : WalFile :=
  { f with info := { f.info with mtime := f.file.mtime } }

namespace WalFile

variable {f : WalFile}

theorem Holds.lastId (h : f.Holds rs) : f.info.lastId = f.info.firstId + rs.length - 1 := by
  obtain ⟨r, hr, hid, -⟩ := h.last
  rw [hid]
  exact h.numbered.getLast? hr

theorem Holds.refresh (h : f.Holds rs) : f.refresh.Holds rs := ⟨h.numbered, h.last, h.bytes, h.size⟩

theorem Holds.scanFile (h : f.Holds rs) (hvalid : ∀ r ∈ rs, r.Valid) :
    scanFile f.info.firstId f.file = f.refresh := by
  obtain ⟨r, hlast, hid, hterm⟩ := h.last
  obtain ⟨rs', rfl⟩ := getLast?_eq_some_iff.mp hlast
  have hr : r.Valid := hvalid r (by simp)
  have hne : f.file.bytes ≠ [] := by
    intro h0
    have hlen := congrArg length (h.bytes.symm.trans h0)
    simp at hlen
  -- the first record is the one the file is named after
  have hfirst : readInt f.file.bytes 0 8 = some f.info.firstId := by
    rw [h.bytes]
    cases rs' with
    | nil =>
      rw [← h.numbered.1]
      exact (stands_fileBytes [] r []).readId hr
    | cons r₀ rs' =>
      rw [← h.numbered.1]
      exact (stands_fileBytes [] r₀ (rs' ++ [r])).readId (hvalid r₀ (by simp))
  have hguess : guessLast f.info.firstId f.file.bytes = (r.id, r.term) := by
    rw [guessLast, if_neg hne, hfirst]
    simp only [ne_eq, not_true_eq_false, if_false]
    rw [h.bytes, readTail_fileBytes rs' hr]
  rw [Wal.scanFile, hguess, WalFile.refresh]
  simp only [← hid, ← hterm]
  rw [h.bytes, ← h.size]

theorem Holds.scanLastWal (h : f.Holds rs) (hvalid : ∀ r ∈ rs, r.Valid) (now : ℕ) :
    scanLastWal now f = f := by
  -- nothing of another record is behind them
  have hr : (⟨1, 0, 0, []⟩ : Record).Valid := by decide
  rw [scanLastWal_of_torn (k := 0) (by simpa using h.bytes) (by simp)
    h.numbered hvalid hr, if_neg (by simp)]
  obtain ⟨r, hlast, hid, hterm⟩ := h.last
  simp [WalFileInfo.seen, hlast, ← hid, ← hterm]

end WalFile

/-- The records of a log, numbered from `n`, stand in its files. -/
abbrev Layout : ℤ → List WalFile → List Record → Prop :=
  Chunked fun f n rs => f.info.firstId = n ∧ f.Holds rs

namespace Layout

section

variable (h : Layout n files rs)
include h

theorem numbered : Numbered n rs := by
  induction h with
  | nil n => trivial
  | cons hc _ _ ih => exact numbered_append.mpr ⟨hc.1 ▸ hc.2.numbered, ih⟩

theorem refresh : Layout n (files.map WalFile.refresh) rs :=
  h.map fun _ _ _ hf => ⟨hf.1, hf.2.refresh⟩

theorem map_scanFile (hvalid : ∀ r ∈ rs, r.Valid) :
    (dirOf files).map (fun f => scanFile f.1 f.2) = files.map WalFile.refresh := by
  induction h with
  | nil n => rfl
  | cons hc _ _ ih =>
    rw [dirOf, map_cons, map_cons,
      hc.2.scanFile fun r hr => hvalid r (mem_append_left _ hr)]
    congr 1
    exact ih fun r hr => hvalid r (mem_append_right _ hr)

theorem lastGap_append (gap : ℤ) (rest : List WalFile) :
    lastGap (n - 1) gap (files ++ rest) = lastGap (n + rs.length - 1) gap rest := by
  induction h with
  | nil n => rw [nil_append, length_nil, Nat.cast_zero, add_zero]
  | @cons n f files c rs hc _ _ ih =>
    rw [cons_append, lastGap, if_neg (by omega), hc.2.lastId, hc.1, ih, length_append,
      Nat.cast_add, add_assoc]

theorem removeBeforeGap_append (hne : files ≠ []) (rest : List WalFile) :
    removeBeforeGap (files ++ rest) =
      if 0 < lastGap (n + rs.length - 1) (-1) rest then (files ++ rest).dropWhile fun f =>
        decide (f.info.firstId < lastGap (n + rs.length - 1) (-1) rest)
      else files ++ rest := by
  cases h with
  | nil => exact absurd rfl hne
  | @cons _ f files c rs hc _ hrest =>
    rw [cons_append, removeBeforeGap, hc.2.lastId, hc.1, lastGap_append hrest, length_append,
      Nat.cast_add, add_assoc]

theorem removeBeforeGap_eq : removeBeforeGap files = files := by
  by_cases hne : files = []
  · rw [hne]
    rfl
  · simpa [lastGap] using h.removeBeforeGap_append hne []

theorem checkLast_eq (hvalid : ∀ r ∈ rs, r.Valid) (now : ℕ) :
    checkLast now files = files := by
  rw [checkLast]
  cases hlast : files.getLast? with
  | none => exact (getLast?_eq_none_iff.mp hlast).symm
  | some f =>
    obtain ⟨files', rfl⟩ := getLast?_eq_some_iff.mp hlast
    obtain ⟨a, c, rfl, ha, hc, -⟩ := Chunked.concat_iff.mp h
    have hvalid' : ∀ r ∈ c, r.Valid := fun r hr => hvalid r (mem_append_right _ hr)
    obtain ⟨r, hr, hid, -⟩ := hc.2.last
    have hpos := (hvalid' r (mem_of_getLast? hr)).pos
    simp only
    rw [hc.2.scanLastWal hvalid', if_neg (by omega), dropLast_concat]

end

end Layout

/-- **The files of a log are read as they were written.** -/
theorem scanAllWalFiles_of_layout (h : Layout n files rs) (hvalid : ∀ r ∈ rs, r.Valid) (now : ℕ) :
    scanAllWalFiles now (dirOf files) = files.map WalFile.refresh := by
  rw [scanAllWalFiles, h.map_scanFile hvalid, h.refresh.checkLast_eq hvalid,
    h.refresh.removeBeforeGap_eq]

end K2Graph.Wal
