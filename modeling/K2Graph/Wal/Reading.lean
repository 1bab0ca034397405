import K2Graph.Wal.Iterator

/-!
# What an iterator reads

An iterator over a range the log holds reads exactly the records of the range, from
wherever they are: the files hold all of them, and the buffers the newest ones.

## Main results

* `Readable.entries_eq` — a loop over an iterator reads the records of its range.
-/

namespace K2Graph.Wal

open List hiding lt_of_le_of_lt not_le
open Option

/-! ### Records by their ids -/

namespace Numbered

theorem le_id (h : Numbered n rs) (hr : r ∈ rs) : n ≤ r.id ∧ r.id < n + rs.length := by
  obtain ⟨i, hi⟩ := mem_iff_getElem?.mp hr
  have hid := h.getElem? hi
  have hlt := (List.getElem?_eq_some_iff.mp hi).1
  omega

theorem filter_eq_cons (h : Numbered n rs) (hr : r ∈ rs) (hlast : r.id ≤ last) :
    rs.filter (fun x => decide (r.id ≤ x.id ∧ x.id ≤ last)) =
      r :: rs.filter fun x => decide (r.id + 1 ≤ x.id ∧ x.id ≤ last) := by
  induction rs generalizing n with
  | nil => cases hr
  | cons x rs ih =>
    rw [filter_cons, filter_cons]
    rcases mem_cons.mp hr with rfl | hmem
    · -- the rest of the records come later
      rw [if_pos (by simpa using hlast), if_neg (by simp)]
      congr 1
      apply filter_congr
      intro y hy
      have := (le_id h.2 hy).1
      have hx := h.1
      simp only [decide_eq_decide]
      omega
    · have hlt := (le_id h.2 hmem).1
      have hx := h.1
      rw [if_neg (by simp; omega), if_neg (by simp; omega)]
      exact ih h.2 hmem

end Numbered

/-! ### Buffers -/

structure InMemoryLogBuffer.Holds (b : InMemoryLogBuffer) (rs : List Record) : Prop where
  numbered : Numbered b.firstLogId rs
  logs : b.logs = rs.map fun r => (r.term, r.cluster, r.msg)

/-- The records, numbered from `n`, stand in the buffers. -/
abbrev Buffered : ℤ → List InMemoryLogBuffer → List Record → Prop :=
  Chunked fun b n rs => b.firstLogId = n ∧ b.Holds rs

variable {b : InMemoryLogBuffer}

theorem InMemoryLogBuffer.Holds.lastLogId (h : b.Holds rs) :
    b.lastLogId + 1 = b.firstLogId + rs.length := by
  rw [InMemoryLogBuffer.lastLogId, h.logs, length_map]
  omega

theorem InMemoryLogBuffer.Holds.logs_ne (h : b.Holds rs) (hne : rs ≠ []) : b.logs ≠ [] := by
  rw [h.logs]
  simpa using hne

/-- The file starts with the head of the record it is named after. -/
structure HasHead (x : WalFile) : Prop where
  lastId : 0 < x.info.lastId
  id : readInt x.file.bytes 0 8 = some x.info.firstId
  term : ∃ term, readInt x.file.bytes (0 + 8) 8 = some term
  len : ∃ len, readInt x.file.bytes (0 + 16) 4 = some len

/-- Behind the records there is no file, or one with a part of the next record. -/
def Late (m : ℤ) (late : List WalFile) : Prop :=
  late = [] ∨ ∃ x, late = [x] ∧ x.info.firstId = m ∧ HasHead x

/-- The log can be read: the files have the records, and the buffers have some of
them, up to the last one, and maybe records from before the first one. -/
structure Readable (w : FileBasedWal) (n : ℤ) (rs : List Record) : Prop where
  files : ∃ files late, w.walFiles = files ++ late ∧ Layout n files rs ∧ Late (n + rs.length) late
  valid : ∀ r ∈ rs, r.Valid
  first : w.firstLogId = n
  last : w.lastLogId = n + rs.length - 1
  buffers : ∃ m bs, Buffered m w.buffers bs ∧ (bs ≠ [] → m + bs.length = n + rs.length) ∧
    ∀ r ∈ bs, n ≤ r.id → r ∈ rs

variable {currId : ℤ}

namespace FileBasedWalIterator

variable {n : ℤ} {rs : List Record} {r : Record} {it : FileBasedWalIterator}

/-! ### Where an iterator is -/

/-- The iterator has buffers that reach to the end of its range, or none. -/
def BuffersReady (n : ℤ) (rs : List Record) (it : FileBasedWalIterator) : Prop :=
  it.firstIdInBuffer = maxLogId ∨
    it.firstIdInBuffer ≤ it.lastId ∧ ∃ seg, Buffered it.firstIdInBuffer it.buffers seg ∧
      it.lastId < it.firstIdInBuffer + seg.length ∧ ∀ r ∈ seg, n ≤ r.id → r ∈ rs

/-- The iterator is at the record in its first file, and its files reach to its
buffers or to the end of the log. -/
structure InFiles (n : ℤ) (rs : List Record) (it : FileBasedWalIterator) (r : Record) : Prop where
  before : it.currId < it.firstIdInBuffer
  id : it.currId = r.id
  term : it.currTerm = r.term
  len : it.currMsgLen = r.msg.length
  next : it.nextFirstId = firstIdInNextFile it.files
  ready : BuffersReady n rs it
  inside : it.lastId < n + rs.length
  place : ∃ f files late a b seg, it.files = f :: (files ++ late) ∧ f.Holds (a ++ r :: b) ∧
    Layout (f.info.firstId + (a ++ r :: b).length) files seg ∧
    Late (f.info.firstId + (a ++ r :: b).length + seg.length) late ∧
    (∀ r' ∈ (a ++ r :: b) ++ seg, r' ∈ rs) ∧ it.currPos = (fileBytes a).length ∧
    (it.firstIdInBuffer ≤ f.info.firstId + (a ++ r :: b).length + seg.length ∨
      it.firstIdInBuffer = maxLogId ∧
        f.info.firstId + (a ++ r :: b).length + seg.length = n + rs.length)

structure InBuffers (n : ℤ) (rs : List Record) (it : FileBasedWalIterator) (r : Record) :
    Prop where
  after : it.firstIdInBuffer ≤ it.currId
  low : n ≤ it.currId
  id : it.currId = r.id
  term : it.currTerm = r.term
  next : it.nextFirstId = firstIdInNextBuffer it.buffers
  place : ∃ b bs a c seg, it.buffers = b :: bs ∧ b.Holds (a ++ r :: c) ∧
    Buffered (b.firstLogId + (a ++ r :: c).length) bs seg ∧
    (∀ r' ∈ (a ++ r :: c) ++ seg, n ≤ r'.id → r' ∈ rs) ∧ it.currIdx = a.length ∧
    it.lastId < b.firstLogId + (a ++ r :: c).length + seg.length

/-! ### Reading the current record -/

theorem getLog_eq (h : b.Holds (a ++ r :: c)) :
    getLog (b :: bs) a.length = some (r.term, r.cluster, r.msg) := by
  rw [getLog, h.logs, Int.toNat_natCast, getElem?_map,
    getElem?_append_right (le_refl _), Nat.sub_self]
  rfl

theorem InBuffers.record_eq (h : InBuffers n rs it r) : it.record = some r := by
  obtain ⟨b, bs, a, c, seg, hb, hc, -, -, hidx, -⟩ := h.place
  rw [record, content, if_pos h.after, hb, hidx, getLog_eq hc]
  simp [h.id, h.term]

theorem InFiles.record_eq (h : InFiles n rs it r) (hr : r.Valid) : it.record = some r := by
  obtain ⟨f, files, late, a, b, seg, hf, hc, -, -, -, hpos, -⟩ := h.place
  have hs := stands_fileBytes a r b
  rw [← hc.bytes] at hs
  have hafter : ¬ it.firstIdInBuffer ≤ it.currId := not_le.mpr h.before
  simp only [record, content, if_neg hafter, hf]
  rw [hpos, hs.readCluster hr, h.len]
  simp only [Int.toNat_natCast]
  rw [hs.readMsg]
  simp [h.id, h.term]

/-! ### Going to the next record -/

theorem firstIdInNextBuffer_eq (hc : b.Holds c)
    (hrest : Buffered (b.firstLogId + c.length) bs seg) :
    firstIdInNextBuffer (b :: bs) = b.firstLogId + c.length := by
  cases bs with
  | nil => exact hc.lastLogId
  | cons b' bs =>
    obtain ⟨_, _, -, hb', -⟩ := Chunked.cons_iff.mp hrest
    exact hb'.1

variable {files : List WalFile}

theorem firstIdInNextFile_eq (hc : f.Holds c)
    (hrest : Layout (f.info.firstId + c.length) files seg)
    (hlate : Late (f.info.firstId + c.length + seg.length) late) :
    firstIdInNextFile (f :: (files ++ late)) = f.info.firstId + c.length := by
  cases files with
  | nil =>
    cases hrest
    rcases hlate with rfl | ⟨x, rfl, hx, -⟩
    · show f.info.lastId + 1 = _
      rw [hc.lastId]
      omega
    · exact hx.trans (add_zero _)
  | cons f' files =>
    obtain ⟨_, _, -, hf', -⟩ := Chunked.cons_iff.mp hrest
    exact hf'.1

theorem id_of_numbered {b : List Record} (h : Numbered m (a ++ r :: b)) :
    r.id = m + a.length := (numbered_append.mp h).2.1

theorem id_of_numbered_cons {b : List Record} (h : Numbered m (a ++ r :: r' :: b)) :
    r'.id = r.id + 1 := by
  have hr := id_of_numbered h
  rw [append_cons] at h
  rw [id_of_numbered h, length_append, length_singleton]
  omega

theorem InBuffers.next_eq (h : InBuffers n rs it r) (hlt : it.currId < it.lastId) :
    ∃ it' r', it.next = some it' ∧ it'.lastId = it.lastId ∧ r' ∈ rs ∧ r'.id = r.id + 1 ∧
      InBuffers n rs it' r' := by
  obtain ⟨b, bs, a, c, seg, hb, hc, hrest, hmem, hidx, hreach⟩ := h.place
  have hid := id_of_numbered hc.numbered
  have hcurr := h.id
  have hafter := h.after
  have hlow := h.low
  have hnext := h.next
  rw [hb, firstIdInNextBuffer_eq hc hrest] at hnext
  have henter : enterBuffers { it with currId := it.currId + 1 } =
      some { it with currId := it.currId + 1 } := by
    rw [enterBuffers, if_neg]
    simp only
    omega
  have hlen : ((a ++ r :: c).length : ℤ) = a.length + 1 + c.length := by
    rw [length_append, length_cons]
    omega
  rw [FileBasedWalIterator.next]
  simp only
  rw [if_neg (by omega), if_pos (by omega), nextInBuffers, henter]
  simp only [bind_eq_bind, bind_some]
  cases c with
  | nil =>
    -- the next record is in the next buffer
    rw [length_nil] at hlen
    cases bs with
    | nil =>
      cases hrest
      rw [length_nil] at hreach
      omega
    | cons b' bs =>
      obtain ⟨c', seg', rfl, hb', hne, hrest'⟩ := Chunked.cons_iff.mp hrest
      obtain ⟨r', c'', rfl⟩ := exists_cons_of_ne_nil hne
      have hid' : r'.id = r.id + 1 := by
        rw [id_of_numbered (a := []) hb'.2.numbered]
        simp only [length_nil]
        omega
      have hroll : rollBuffers { it with currId := it.currId + 1 } = some
          { it with currId := it.currId + 1, buffers := b' :: bs,
                    nextFirstId := firstIdInNextBuffer (b' :: bs), currIdx := 0 } := by
        rw [rollBuffers, if_pos (by simp only; omega), hb]
        simp only [tail_cons]
        rw [if_neg (not_not.mpr (by rw [hb'.1]; omega))]
      rw [hroll]
      simp only [bind_some]
      rw [show (0 : ℤ) = (([] : List Record).length : ℤ) from rfl, getLog_eq hb'.2]
      refine ⟨_, r', rfl, rfl, hmem r' (by simp) (by omega), hid', ⟨by simp only; omega,
        by simp only; omega, by simp only; omega, rfl, rfl, ?_⟩⟩
      refine ⟨b', bs, [], c'', seg', rfl, hb'.2, ?_, fun x hx => hmem x ?_, rfl, ?_⟩
      · rw [hb'.1]
        exact hrest'
      · rw [mem_append]
        exact .inr hx
      rw [@length_append _ _ seg'] at hreach
      simp only [nil_append]
      omega
  | cons r' c =>
    have hid' := id_of_numbered_cons hc.numbered
    have hc' : b.Holds ((a ++ [r]) ++ r' :: c) := by simpa using hc
    rw [length_cons] at hlen
    have hroll : rollBuffers { it with currId := it.currId + 1 } =
        some { it with currId := it.currId + 1, currIdx := ((a ++ [r]).length : ℤ) } := by
      rw [rollBuffers, if_neg (by simp only; push_cast at hlen; omega)]
      simp only [hidx, length_append]
      rfl
    rw [hroll]
    simp only [bind_some]
    rw [hb, getLog_eq hc']
    refine ⟨_, r', rfl, rfl, hmem r' (by simp) (by omega), hid', ⟨by simp only; omega,
      by simp only; omega, by simp only; omega, rfl, ?_, ?_⟩⟩
    · rw [hnext, firstIdInNextBuffer_eq hc hrest]
    refine ⟨b, bs, a ++ [r], c, seg, rfl, hc', ?_, ?_, rfl, ?_⟩
    · simpa using hrest
    · simpa using hmem
    · simpa using hreach

theorem readHead_eq {b : List Record} (hf : it.files = f :: files) (hc : f.Holds (a ++ r :: b))
    (hvalid : ∀ x ∈ a ++ r :: b, x.Valid) (hpos : it.currPos = (fileBytes a).length)
    (hid : it.currId = r.id) :
    readHead it = some { it with currTerm := r.term, currMsgLen := r.msg.length } := by
  have hr := hvalid r (by simp)
  have hs := stands_fileBytes a r b
  rw [← hc.bytes, ← hpos] at hs
  obtain ⟨x, hx, hxid, -⟩ := hc.last
  have hlast := (hvalid x (mem_of_getLast? hx)).pos
  rw [readHead, hf]
  simp only
  rw [if_neg (by omega), hs.readId hr, hs.readTerm hr, hs.readLen hr]
  simp only [bind_eq_bind, bind_some]
  rw [if_neg (not_not.mpr hid.symm)]

theorem InFiles.nextInFiles_eq (h : InFiles n rs it r) (hvalid : ∀ x ∈ rs, x.Valid)
    (hbefore : it.currId + 1 < it.firstIdInBuffer) :
    (∃ it' r', nextInFiles { it with currId := it.currId + 1 } = some it' ∧
      it'.lastId = it.lastId ∧ r' ∈ rs ∧ r'.id = r.id + 1 ∧ InFiles n rs it' r') ∨
    it.currId + 1 = n + rs.length ∧ ∃ it', nextInFiles { it with currId := it.currId + 1 } =
      some it' ∧ it'.lastId = it.lastId ∧ it.lastId < it'.currId := by
  obtain ⟨f, files, late, a, b, seg, hf, hc, hrest, hlate, hmem, hpos, hreach⟩ := h.place
  have hid := id_of_numbered hc.numbered
  have hcurr := h.id
  have hnext := h.next
  rw [hf, firstIdInNextFile_eq hc hrest hlate] at hnext
  have hlen : ((a ++ r :: b).length : ℤ) = a.length + 1 + b.length := by
    rw [length_append, length_cons]
    omega
  rw [nextInFiles]
  simp only
  cases b with
  | nil =>
    rw [length_nil] at hlen
    rw [if_pos (by omega), hf, tail_cons]
    cases files with
    | nil =>
      -- the records end here, so there are no buffers, and the log ends here
      cases hrest
      rw [length_nil] at hreach hlate
      obtain ⟨hmax, hend⟩ := hreach.resolve_left (by omega)
      have hinside := h.inside
      refine .inr ⟨by omega, ?_⟩
      rcases hlate with rfl | ⟨x, rfl, hx, hhead⟩
      · rw [append_nil, if_pos hmax]
        exact ⟨_, rfl, rfl, Int.lt_succ_self _⟩
      · obtain ⟨term, hterm⟩ := hhead.term
        obtain ⟨len, hlen⟩ := hhead.len
        have hpos := hhead.lastId
        simp only [nil_append, readHead]
        rw [if_neg (by omega), if_neg (by omega), hhead.id, hterm, hlen]
        simp only [bind_eq_bind, bind_some]
        rw [if_neg (by omega)]
        exact ⟨_, rfl, rfl, by simp only; omega⟩
    | cons f' files =>
      obtain ⟨c', seg', rfl, hf', hne, hrest'⟩ := Chunked.cons_iff.mp hrest
      obtain ⟨r', c'', rfl⟩ := exists_cons_of_ne_nil hne
      have hid' : r'.id = r.id + 1 := by
        rw [id_of_numbered (a := []) hf'.2.numbered]
        simp only [length_nil]
        omega
      have hsub : ∀ x ∈ (r' :: c'') ++ seg', x ∈ rs :=
        fun x hx => hmem x (mem_append_right _ hx)
      simp only [cons_append]
      rw [if_neg (not_not.mpr (by rw [hf'.1]; omega))]
      rw [readHead_eq (a := []) rfl hf'.2
        (fun x hx => hvalid x (hsub x (mem_append_left _ hx))) rfl (by simp only; omega)]
      refine .inl ⟨_, r', rfl, rfl, hsub r' (by simp), hid', ⟨hbefore, by simp only; omega, rfl,
        rfl, rfl, h.ready, h.inside, ?_⟩⟩
      rw [@length_append _ _ seg'] at hreach hlate
      refine ⟨f', files, late, [], c'', seg', rfl, hf'.2, ?_, ?_, hsub, rfl, ?_⟩
      · rw [hf'.1]
        exact hrest'
      · rw [hf'.1, nil_append, add_assoc, ← Nat.cast_add]
        exact hlate
      simp only [nil_append]
      omega
  | cons r' b =>
    rw [length_cons] at hlen
    rw [if_neg (by omega)]
    have hid' := id_of_numbered_cons hc.numbered
    have hc' : f.Holds ((a ++ [r]) ++ r' :: b) := by simpa using hc
    have hpos' : it.currPos + 32 + it.currMsgLen = (fileBytes (a ++ [r])).length := by
      rw [h.len, fileBytes_append, length_append, fileBytes_cons, fileBytes_nil,
        append_nil, Record.length_bytes]
      omega
    have hsub : ∀ x ∈ a ++ r :: r' :: b, x ∈ rs := fun x hx => hmem x (mem_append_left _ hx)
    have hread : readHead { it with currId := it.currId + 1,
                                    currPos := it.currPos + 32 + it.currMsgLen } = some
        { it with currId := it.currId + 1, currPos := it.currPos + 32 + it.currMsgLen,
                  currTerm := r'.term, currMsgLen := r'.msg.length } := by
      refine readHead_eq hf hc' (fun x hx => hvalid x (hsub x (by simpa using hx))) hpos' ?_
      simp only
      omega
    rw [hread]
    refine .inl ⟨_, r', rfl, rfl, hsub r' (by simp), hid', ⟨hbefore, by simp only; omega, rfl, rfl,
      h.next, h.ready, h.inside, ?_⟩⟩
    refine ⟨f, files, late, a ++ [r], b, seg, hf, hc', ?_, ?_, ?_, hpos', ?_⟩
    · simpa using hrest
    · simpa using hlate
    · simpa using hmem
    · simpa using hreach

theorem nextInBuffers_of_enter (hin : it.currId = it.firstIdInBuffer)
    (hbuf : Buffered it.firstIdInBuffer it.buffers seg) (hlow : n ≤ it.currId)
    (hseg : ∀ x ∈ seg, n ≤ x.id → x ∈ rs) (hlast : it.currId ≤ it.lastId)
    (hreach : it.lastId < it.firstIdInBuffer + seg.length) :
    ∃ it' r', nextInBuffers it = some it' ∧ it'.lastId = it.lastId ∧ r' ∈ rs ∧
      r'.id = it.currId ∧ InBuffers n rs it' r' := by
  cases hb : it.buffers with
  | nil =>
    rw [hb] at hbuf
    cases hbuf
    rw [length_nil] at hreach
    omega
  | cons b bs =>
    rw [hb] at hbuf
    obtain ⟨c, seg', rfl, hc, hne, hrest⟩ := Chunked.cons_iff.mp hbuf
    obtain ⟨r', c', rfl⟩ := exists_cons_of_ne_nil hne
    have hid : r'.id = it.currId := by
      rw [id_of_numbered (a := []) hc.2.numbered, hc.1, hin]
      simp
    have hnext : firstIdInNextBuffer (b :: bs) = b.firstLogId + (r' :: c').length :=
      firstIdInNextBuffer_eq hc.2 (by rw [hc.1]; exact hrest)
    have hlt : it.firstIdInBuffer < firstIdInNextBuffer (b :: bs) := by
      rw [hnext, length_cons]
      omega
    have henter : enterBuffers it =
        some { it with nextFirstId := firstIdInNextBuffer (b :: bs), currIdx := -1 } := by
      rw [enterBuffers, if_pos hin, hb, if_pos hlt]
    have hroll : rollBuffers { it with nextFirstId := firstIdInNextBuffer (b :: bs),
                                       currIdx := -1 } =
        some { it with nextFirstId := firstIdInNextBuffer (b :: bs), currIdx := 0 } := by
      rw [rollBuffers, if_neg (by simp only; omega)]
      rfl
    rw [nextInBuffers, henter]
    simp only [bind_eq_bind, bind_some]
    rw [hroll]
    simp only [bind_some]
    rw [hb, show (0 : ℤ) = (([] : List Record).length : ℤ) from rfl, getLog_eq hc.2]
    refine ⟨_, r', rfl, rfl, hseg r' (by simp) (by omega), hid, ⟨hin.ge, hlow, hid.symm, rfl, rfl,
      ?_⟩⟩
    refine ⟨b, bs, [], c', seg', rfl, hc.2, ?_, hseg, rfl, ?_⟩
    · rw [hc.1]
      exact hrest
    rw [length_append] at hreach
    simp only [nil_append]
    omega

/-- The iterator is at the record. -/
def At (n : ℤ) (rs : List Record) (it : FileBasedWalIterator) (r : Record) : Prop :=
  InFiles n rs it r ∨ InBuffers n rs it r

theorem At.id (h : At n rs it r) : it.currId = r.id := h.elim InFiles.id InBuffers.id

theorem At.record_eq (h : At n rs it r) (hr : r.Valid) : it.record = some r :=
  h.elim (fun h => h.record_eq hr) InBuffers.record_eq

theorem id_lt_max (hn : Numbered n rs) (hvalid : ∀ x ∈ rs, x.Valid) (hlow : n ≤ i)
    (hhigh : i < n + rs.length) : 0 ≤ i ∧ i < maxLogId := by
  obtain ⟨x, hx⟩ : ∃ x, rs[(i - n).toNat]? = some x := ⟨_, getElem?_eq_getElem (by omega)⟩
  have hid := hn.getElem? hx
  have hpos := (hvalid x (mem_of_getElem? hx)).pos
  have hlt := (hvalid x (mem_of_getElem? hx)).lt
  rw [maxLogId]
  omega

theorem InFiles.next_eq (h : InFiles n rs it r) (hn : Numbered n rs) (hvalid : ∀ x ∈ rs, x.Valid)
    (hr : r ∈ rs) (hle : it.currId ≤ it.lastId) :
    ∃ it', it.next = some it' ∧ it'.lastId = it.lastId ∧
      (it.currId < it.lastId → ∃ r' ∈ rs, r'.id = r.id + 1 ∧ At n rs it' r') ∧
      (it.currId = it.lastId → it'.valid = false) := by
  have hcurr := h.id
  have hinside := h.inside
  have hlow := (hn.le_id hr).1
  rw [FileBasedWalIterator.next]
  by_cases hbefore : it.currId + 1 < it.firstIdInBuffer
  · rw [if_pos hbefore]
    rcases h.nextInFiles_eq hvalid hbefore with ⟨it', r', heq, hlast, hr', hid', hit'⟩ |
      ⟨hend, it', heq, hlast, hbehind⟩
    · refine ⟨it', heq, hlast, fun _ => ⟨r', hr', hid', .inl hit'⟩, fun hc => ?_⟩
      rw [valid, hit'.id]
      exact decide_eq_false (by omega)
    · refine ⟨it', heq, hlast, fun hlt => ?_, fun _ => ?_⟩
      · omega
      · exact decide_eq_false (by omega)
  rw [if_neg hbefore]
  have hbefore' := h.before
  by_cases hlt : it.currId + 1 ≤ it.lastId
  · -- the next record is the first one in the buffers
    rw [if_pos hlt]
    rcases h.ready with hmax | ⟨-, seg, hbuf, hreach, hseg⟩
    · -- no record has the last id there is
      have := (id_lt_max hn hvalid (by omega) hinside).2
      omega
    have hlow' : n ≤ ({ it with currId := it.currId + 1 } : FileBasedWalIterator).currId := by
      simp only
      omega
    obtain ⟨it', r', heq, hlast, hr', hid', hit'⟩ :=
      @nextInBuffers_of_enter n rs { it with currId := it.currId + 1 } seg
        (by simp only; omega) hbuf hlow' hseg hlt hreach
    refine ⟨it', heq, hlast, fun _ => ⟨r', hr', ?_, .inr hit'⟩, fun hc => ?_⟩
    · rw [hid', ← hcurr]
    · omega
  · rw [if_neg hlt]
    refine ⟨_, rfl, rfl, fun hc => ?_, fun _ => ?_⟩
    · omega
    · exact decide_eq_false hlt

theorem At.next_eq (h : At n rs it r) (hn : Numbered n rs) (hvalid : ∀ x ∈ rs, x.Valid)
    (hr : r ∈ rs) (hle : it.currId ≤ it.lastId) :
    ∃ it', it.next = some it' ∧ it'.lastId = it.lastId ∧
      (it.currId < it.lastId → ∃ r' ∈ rs, r'.id = r.id + 1 ∧ At n rs it' r') ∧
      (it.currId = it.lastId → it'.valid = false) := by
  rcases h with h | h
  · exact h.next_eq hn hvalid hr hle
  rcases lt_or_eq_of_le hle with hlt | heq
  · obtain ⟨it', r', hnext, hlast, hr', hid', hit'⟩ := h.next_eq hlt
    exact ⟨it', hnext, hlast, fun _ => ⟨r', hr', hid', .inr hit'⟩, fun hc => absurd hc hlt.ne⟩
  have hafter := h.after
  refine ⟨{ it with currId := it.currId + 1 }, ?_, rfl, fun hc => absurd heq hc.ne, fun _ => ?_⟩
  · rw [next]
    simp only
    rw [if_neg (by omega), if_neg (by omega)]
  · exact decide_eq_false (by simp only; omega)

theorem collect_eq (hn : Numbered n rs) (hvalid : ∀ x ∈ rs, x.Valid) (k : ℕ) (h : At n rs it r)
    (hr : r ∈ rs) (hlast : it.lastId = it.currId + k) :
    collect (k + 1) it = some (rs.filter fun x => decide (r.id ≤ x.id ∧ x.id ≤ it.lastId)) := by
  induction k generalizing it r with
  | zero =>
    have hid := h.id
    obtain ⟨it', hnext, -, -, hend⟩ := h.next_eq hn hvalid hr (by omega)
    have hend := hend (by omega)
    have hvalid' : it.valid = true := decide_eq_true (by omega)
    rw [collect, if_pos hvalid', h.record_eq (hvalid r hr), hnext]
    simp only [bind_eq_bind, bind_some]
    rw [collect, hend]
    simp only [Bool.false_eq_true, if_false, bind_some]
    rw [hn.filter_eq_cons hr (by omega), filter_eq_nil_iff.mpr]
    simp only [decide_eq_true_eq]
    omega
  | succ k ih =>
    have hid := h.id
    obtain ⟨it', hnext, hlast', hstep, -⟩ := h.next_eq hn hvalid hr (by omega)
    obtain ⟨r', hr', hid', hit'⟩ := hstep (by omega)
    have hvalid' : it.valid = true := decide_eq_true (by omega)
    rw [collect, if_pos hvalid', h.record_eq (hvalid r hr), hnext]
    simp only [bind_eq_bind, bind_some]
    rw [ih hit' hr' (by rw [hit'.id]; omega), hlast', hid', hn.filter_eq_cons hr (by omega)]
    rfl

/-! ### The constructor -/

theorem pickBuffers_skip {lastId : ℤ} (hpost : ∀ b ∈ post, lastId < b.firstLogId)
    (hfirst : currId < firstId) : pickBuffers currId lastId (post ++ rest) picked firstId =
      pickBuffers currId lastId rest picked firstId := by
  induction post with
  | nil => rfl
  | cons b post ih =>
    have hb := hpost b (by simp)
    have ih := ih fun b' hb' => hpost b' (by simp [hb'])
    rw [cons_append, pickBuffers]
    split
    · exact ih
    rw [if_neg (by omega)]
    simp only
    rw [if_neg (by omega)]
    exact ih

theorem pickBuffers_take {lastId : ℤ}
    (hmid : ∀ b ∈ mid, currId < b.firstLogId ∧ b.firstLogId ≤ lastId ∧ b.logs ≠ []) :
    pickBuffers currId lastId (mid.reverse ++ rest) picked firstId =
      pickBuffers currId lastId rest (mid ++ picked)
        ((mid.head?.map fun b => b.firstLogId).getD firstId) := by
  -- the last of them comes first
  induction mid using reverseRecOn generalizing picked firstId with
  | nil => rfl
  | append_singleton mid b ih =>
    obtain ⟨h1, h2, h3⟩ := hmid b (by simp)
    rw [reverse_append, reverse_singleton, singleton_append, cons_append,
      pickBuffers, if_neg h3, if_pos h2]
    simp only
    rw [if_neg (by omega), ih fun b' hb' => hmid b' (by simp [hb']), append_assoc]
    cases mid with
    | nil => rfl
    | cons b' mid => rfl

/-- The buffers behind the range are left out, those that start in it are picked. -/
theorem pickBuffers_split {lastId : ℤ} (rest : List InMemoryLogBuffer) (hseg : Buffered m mid seg)
    (hlow : ∀ b ∈ mid, currId < b.firstLogId) (hmid : ∀ b ∈ mid, b.firstLogId < lastId + 1)
    (hpost : ∀ b ∈ post, lastId + 1 ≤ b.firstLogId) (hfirst : currId < firstId) :
    pickBuffers currId lastId ((mid ++ post).reverse ++ rest) [] firstId =
      pickBuffers currId lastId rest mid ((mid.head?.map fun b => b.firstLogId).getD firstId) := by
  have hlogs : ∀ b ∈ mid, currId < b.firstLogId ∧ b.firstLogId ≤ lastId ∧ b.logs ≠ [] := by
    intro b hb
    obtain ⟨_, c, hc, hne⟩ := hseg.exists_holds hb
    have := hmid b hb
    exact ⟨hlow b hb, by omega, hc.2.logs_ne hne⟩
  rw [reverse_append, append_assoc,
    pickBuffers_skip (fun b hb => hpost b (mem_reverse.mp hb)) hfirst, pickBuffers_take hlogs,
    append_nil]

theorem pickFiles_skip (hpost : ∀ f ∈ post, firstId ≤ f.info.firstId) :
    pickFiles currId firstId (post ++ rest) picked = pickFiles currId firstId rest picked := by
  induction post with
  | nil => rfl
  | cons f post ih =>
    rw [cons_append, pickFiles, if_pos (hpost f (by simp)),
      ih fun f' hf' => hpost f' (by simp [hf'])]

theorem pickFiles_take (hmid : ∀ f ∈ mid, currId < f.info.firstId ∧ f.info.firstId < firstId) :
    pickFiles currId firstId (mid.reverse ++ rest) picked =
      pickFiles currId firstId rest (mid ++ picked) := by
  induction mid using reverseRecOn generalizing picked with
  | nil => rfl
  | append_singleton mid f ih =>
    obtain ⟨h1, h2⟩ := hmid f (by simp)
    rw [reverse_append, reverse_singleton, singleton_append, cons_append,
      pickFiles, if_neg (by omega), if_neg (by omega), ih fun f' hf' => hmid f' (by simp [hf']),
      append_assoc]
    rfl

theorem findLog_eq {b : List Record} (hvalid : ∀ x ∈ a ++ r :: b, x.Valid)
    (hother : ∀ x ∈ a, x.id ≠ r.id) (hfuel : a.length < fuel) :
    findLog (fileBytes (p ++ (a ++ r :: b))) r.id fuel (fileBytes p).length =
      some (((fileBytes (p ++ a)).length : ℤ), r.term, (r.msg.length : ℤ)) := by
  -- `p` is what has been passed by
  induction a generalizing p fuel with
  | nil =>
    cases fuel with
    | zero => omega
    | succ fuel =>
      have hs := stands_fileBytes p r b
      have hr := hvalid r (by simp)
      rw [nil_append, findLog, hs.readId hr, hs.readTerm hr, hs.readLen hr]
      simp
  | cons x a ih =>
    cases fuel with
    | zero => omega
    | succ fuel =>
      have hs := stands_fileBytes p x (a ++ r :: b)
      have hx := hvalid x (by simp)
      have hassoc : p ++ ((x :: a) ++ r :: b) = (p ++ [x]) ++ (a ++ r :: b) := by simp
      rw [cons_append, findLog, hs.readId hx, hs.readTerm hx, hs.readLen hx]
      simp only [bind_eq_bind, bind_some]
      rw [if_neg (hother x (by simp)), ← length_fileBytes_concat, ← cons_append, hassoc,
        ih (fun y hy => hvalid y (by simp at hy ⊢; tauto)) (fun y hy => hother y (by simp [hy]))
          (by simpa using hfuel)]
      simp

theorem exists_cut (h : Numbered m rs) (hlow : m ≤ i) (hhigh : i < m + rs.length) :
    ∃ a r b, rs = a ++ r :: b ∧ r.id = i ∧ i = m + a.length := by
  have hlt : (i - m).toNat < rs.length := by omega
  refine ⟨rs.take (i - m).toNat, rs[(i - m).toNat], rs.drop ((i - m).toNat + 1), ?_, ?_, ?_⟩
  · rw [← drop_eq_getElem_cons hlt, take_append_drop]
  · rw [h.getElem? (getElem?_eq_getElem hlt)]
    omega
  · rw [length_take]
    omega

theorem fileKey (f : WalFile) (m : ℤ) (c : List Record) (h : f.info.firstId = m ∧ f.Holds c) :
    f.info.firstId = m := h.1

theorem bufferKey (b : InMemoryLogBuffer) (m : ℤ) (c : List Record)
    (h : b.firstLogId = m ∧ b.Holds c) : b.firstLogId = m := h.1

theorem createInFiles_eq (it : FileBasedWalIterator) (hwal : w.walFiles = files ++ late)
    (hfiles : Layout n files rs) (hlate : Late (n + rs.length) late)
    (hvalid : ∀ x ∈ rs, x.Valid) (hready : BuffersReady n rs it) (hlow : n ≤ it.currId)
    (hhigh : it.currId ≤ it.lastId) (hinside : it.lastId < n + rs.length)
    (hbefore : it.currId < it.firstIdInBuffer) :
    ∃ it' r, createInFiles w it = some it' ∧ it'.lastId = it.lastId ∧ it'.currId = it.currId ∧
      r ∈ rs ∧ r.id = it.currId ∧ InFiles n rs it' r := by
  obtain ⟨pre, f, behind, a₀, c, z, hsplit, rfl, -, hfn, hc, hne, hbehind, hf1, hf2⟩ :=
    hfiles.locate fileKey hlow (by omega)
  -- of the files behind it, those that start in the buffers are left out
  obtain ⟨mid, post, rfl, hmid, hpost⟩ := hbehind.exists_split fileKey it.firstIdInBuffer
  obtain ⟨seg, zs, rfl, hseg, hzs⟩ := Chunked.append_iff.mp hbehind
  have hzend : f.info.firstId + c.length + seg.length + (zs.length : ℤ) =
      n + ((a₀ ++ (c ++ (seg ++ zs))).length : ℤ) := by
    simp only [length_append]
    omega
  obtain ⟨late', hlate', hpickLate⟩ : ∃ late', Late (f.info.firstId + c.length + seg.length) late' ∧
      ∀ rest, pickFiles it.currId it.firstIdInBuffer (late.reverse ++ rest) [] =
        pickFiles it.currId it.firstIdInBuffer rest late' := by
    rcases hlate with rfl | ⟨x, rfl, hx, hhead⟩
    · exact ⟨[], .inl rfl, fun _ => rfl⟩
    by_cases hskip : it.firstIdInBuffer ≤ x.info.firstId
    · exact ⟨[], .inl rfl, fun _ => if_pos hskip⟩
    -- every file of the log starts before it
    obtain rfl : post = [] := by
      refine eq_nil_iff_forall_not_mem.mpr fun g hg => ?_
      have hlt := (hzs.key_mem fileKey hg).2
      have hge := hpost g hg
      omega
    cases hzs
    refine ⟨[x], .inr ⟨x, rfl, ?_, hhead⟩, fun rest => ?_⟩
    · rw [hx, ← hzend, length_nil, Nat.cast_zero, add_zero]
    · rw [reverse_singleton, singleton_append, pickFiles, if_neg hskip, if_neg (by omega)]
  have hpick : pickFiles it.currId it.firstIdInBuffer w.walFiles.reverse [] =
      f :: (mid ++ late') := by
    have hlt : ∀ g ∈ mid, it.currId < g.info.firstId ∧ g.info.firstId < it.firstIdInBuffer := by
      intro g hg
      have := (hseg.key_mem fileKey hg).1
      exact ⟨by omega, hmid g hg⟩
    rw [hwal, reverse_append, hpickLate, hsplit, reverse_append, reverse_cons, reverse_append,
      append_assoc, append_assoc, pickFiles_skip fun g hg => hpost g (mem_reverse.mp hg),
      pickFiles_take hlt, singleton_append, pickFiles, if_neg (by omega), if_pos hf1]
  obtain ⟨a, r, b, rfl, hrid, hra⟩ := exists_cut hc.2.numbered (by omega) hf2
  have hsub : ∀ x ∈ (a ++ r :: b) ++ seg, x ∈ a₀ ++ (a ++ r :: b ++ (seg ++ zs)) := by
    intro x hx
    rw [← append_assoc (a ++ r :: b)]
    exact mem_append_right _ (mem_append_left _ hx)
  have hother : ∀ x ∈ a, x.id ≠ r.id := by
    intro x hx hxr
    have := (Numbered.le_id (numbered_append.mp hc.2.numbered).1 hx).2
    omega
  have hfind := findLog_eq (p := [])
    (fun x hx => hvalid x (hsub x (mem_append_left _ hx))) hother
    (show a.length < f.file.bytes.length + 1 by
      have := length_le_fileBytes (a ++ r :: b)
      rw [hc.2.bytes]
      omega)
  rw [nil_append, ← hc.2.bytes, hrid] at hfind
  have hlastId := hc.2.lastId
  rw [createInFiles, hpick]
  simp only
  rw [if_neg (by omega), if_neg (by omega)]
  rw [show ((fileBytes ([] : List Record)).length : ℤ) = 0 from rfl] at hfind
  rw [hfind]
  refine ⟨_, r, rfl, rfl, rfl, hsub r (by simp), hrid, ⟨hbefore, hrid.symm, rfl, rfl, rfl, hready,
    hinside, ?_⟩⟩
  refine ⟨f, mid, late', a, b, seg, rfl, hc.2, hseg, hlate', hsub, rfl, ?_⟩
  rcases hready with hmax | ⟨hB, -⟩
  · -- without buffers the files reach to the end
    by_cases hpostnil : post = []
    · subst hpostnil
      cases hzs
      rw [length_nil] at hzend
      exact .inr ⟨hmax, by rw [← hzend]; push_cast; omega⟩
    · obtain ⟨g, gs, rfl⟩ := exists_cons_of_ne_nil hpostnil
      obtain ⟨_, _, -, hg, -⟩ := Chunked.cons_iff.mp hzs
      have := hpost g (by simp)
      rw [hg.1] at this
      exact .inl this
  · have hlt := hzs.lt_of_forall_key fileKey (i := it.firstIdInBuffer - 1)
      (fun g hg => by have := hpost g hg; omega) (by rw [hzend]; omega)
    exact .inl (Int.sub_one_lt_iff.mp hlt)

theorem create_eq (h : Readable w n rs) (hf : n ≤ f) (hfl : f ≤ l) (hl : l < n + rs.length) :
    ∃ it r, create w f l = some it ∧ it.lastId = l ∧ it.currId = f ∧ r ∈ rs ∧ r.id = f ∧
      At n rs it r := by
  obtain ⟨files, late, hwal, hfiles, hlate⟩ := h.files
  obtain ⟨hl0, hlmax⟩ := id_lt_max hfiles.numbered h.valid (hf.trans hfl) hl
  obtain ⟨m, bs, hbuf, hend, hsub⟩ := h.buffers
  have hlastId : (if 0 ≤ l ∧ l ≤ w.lastLogId then l else w.lastLogId) = l :=
    if_pos ⟨hl0, by rw [h.last]; omega⟩
  rw [create]
  simp only [hlastId]
  rw [if_neg (by omega), if_neg (by rw [h.first]; omega)]
  by_cases hin : m ≤ f ∧ bs ≠ []
  · -- the first record is in a buffer
    have hend := hend hin.2
    obtain ⟨pre, b, late, a₀, c, z, hsplit, rfl, -, hbm, hc, hne, hlate, hb1, hb2⟩ :=
      hbuf.locate bufferKey hin.1 (by omega)
    obtain ⟨mid, post, rfl, hmid, hpost⟩ := hlate.exists_split bufferKey (l + 1)
    obtain ⟨seg, zs, rfl, hseg, hzs⟩ := Chunked.append_iff.mp hlate
    have hlow : ∀ b ∈ mid, f < b.firstLogId :=
      fun b hb => lt_of_lt_of_le hb2 (hseg.key_mem bufferKey hb).1
    have hpick : pickBuffers f l w.buffers.reverse [] maxLogId = (b :: mid, b.firstLogId) := by
      rw [hsplit, reverse_append, reverse_cons, append_assoc,
        pickBuffers_split _ hseg hlow hmid hpost (by omega), singleton_append, pickBuffers,
        if_neg (hc.2.logs_ne hne), if_pos (by omega)]
      simp only
      rw [if_pos hb1]
    rw [hpick, if_pos hb1]
    have hlz : l < b.firstLogId + c.length + seg.length := by
      refine hzs.lt_of_forall_key bufferKey hpost ?_
      simp only [length_append] at hend
      omega
    obtain ⟨a, r, c', rfl, hrid, hra⟩ := exists_cut hc.2.numbered hb1 hb2
    have hidx : f - b.firstLogId = a.length := by omega
    have hmem : ∀ x ∈ (a ++ r :: c') ++ seg, n ≤ x.id → x ∈ rs := by
      intro x hx
      apply hsub
      rw [← append_assoc (a ++ r :: c')]
      exact mem_append_right _ (mem_append_left _ hx)
    rw [hidx, getLog_eq hc.2]
    exact ⟨_, r, rfl, rfl, rfl, hmem r (by simp) (by omega), hrid,
      .inr ⟨hb1, hf, hrid.symm, rfl, rfl,
      b, mid, a, c', seg, rfl, hc.2, hseg, hmem, rfl, hlz⟩⟩
  · -- the buffers start behind the first record
    obtain ⟨mid, post, hsplit, hmid, hpost⟩ := hbuf.exists_split bufferKey (l + 1)
    rw [hsplit] at hbuf
    obtain ⟨seg, zs, rfl, hseg, hzs⟩ := Chunked.append_iff.mp hbuf
    have hlow : ∀ b ∈ mid, f < b.firstLogId := by
      intro b hb
      have hne : seg ++ zs ≠ [] := hbuf.eq_nil_iff.not.mp (by simp [ne_nil_of_mem hb])
      exact lt_of_lt_of_le (not_le.mp fun hm => hin ⟨hm, hne⟩) (hseg.key_mem bufferKey hb).1
    have hpick := pickBuffers_split [] hseg hlow hmid hpost (lt_of_le_of_lt hfl hlmax)
    rw [append_nil, pickBuffers] at hpick
    rw [hsplit, hpick]
    cases mid with
    | nil =>
      rw [if_neg (by simp only [head?_nil, map_none, getD_none]; omega)]
      obtain ⟨it, r, heq, hlast, hcurr, hr, hid, hit⟩ :=
        createInFiles_eq { lastId := l, currId := f } hwal hfiles hlate h.valid (.inl rfl) hf hfl
          hl (lt_of_le_of_lt hfl hlmax)
      exact ⟨it, r, heq, hlast, hcurr, hr, hid, .inl hit⟩
    | cons b mid =>
      have hb1 := hlow b (by simp)
      have hb2 := hmid b (by simp)
      obtain ⟨c, seg', rfl, hc, hne, -⟩ := Chunked.cons_iff.mp hseg
      rw [head?_cons, map_some, getD_some, if_neg (by omega)]
      rw [← hc.1] at hseg hzs hend
      have hready : l < b.firstLogId + ((c ++ seg').length : ℤ) := by
        refine hzs.lt_of_forall_key bufferKey hpost ?_
        have := hend (by simp [hne])
        rw [@length_append _ _ zs] at this
        omega
      obtain ⟨it, r, heq, hlast, hcurr, hr, hid, hit⟩ :=
        createInFiles_eq
          { lastId := l, currId := f, buffers := b :: mid, firstIdInBuffer := b.firstLogId }
          hwal hfiles hlate h.valid
          (.inr ⟨by simp only; omega, c ++ seg', hseg, hready,
            fun x hx => hsub x (mem_append_left _ hx)⟩)
          hf hfl hl hb1
      exact ⟨it, r, heq, hlast, hcurr, hr, hid, .inl hit⟩

end FileBasedWalIterator

theorem Readable.entries_eq (h : Readable w n rs) (hf : n ≤ f) (hfl : f ≤ l)
    (hl : l < n + rs.length) :
    w.entries f l = some (rs.filter fun r => decide (f ≤ r.id ∧ r.id ≤ l)) := by
  obtain ⟨it, r, heq, hlast, hcurr, hr, hid, hit⟩ := FileBasedWalIterator.create_eq h hf hfl hl
  obtain ⟨files, late, -, hfiles, -⟩ := h.files
  have hk : it.lastId = it.currId + (l - f).toNat := by omega
  have hfuel : (it.lastId - f + 1).toNat = (l - f).toNat + 1 := by omega
  rw [FileBasedWal.entries, heq]
  simp only
  rw [hfuel, FileBasedWalIterator.collect_eq hfiles.numbered h.valid _ hit hr hk, hid, hlast]

end K2Graph.Wal
