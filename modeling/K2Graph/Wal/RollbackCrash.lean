import K2Graph.Wal.TornWrite

/-!
# A rollback that was cut off

`rollbackToLog` removes the files behind the given id, from the first of them to the
last, and then cuts the file the id is in.  The process may die between any two of
these operations.

As long as the first of these files is gone and the last is still there, the files
that stay and the last one have a gap between them.  A new `FileBasedWal` takes what
stands before the last gap for garbage, so it removes the very records the rollback
was to keep.

## Main results

* `keeps_rollbackCrash_iff` — **the records are there if and only if no file was
  removed, or all of them, or there are no such records.**
* `not_keeps_rollbackCrash` — records that are lost.
-/

namespace K2Graph.Wal

open List Represents FileBasedWalIterator FileBasedWal

namespace FileBasedWal

/-- How many files `rollbackToLog` removes. -/
def goneCount (now : ℕ) (id : ℤ) (w : FileBasedWal) : ℕ :=
  (goneFiles id (w.closeCurrFile now).walFiles).length

/-- The directory when the process dies inside `rollbackToLog`, after `k` of its
operations: removing files, and then cutting one. -/
def rollbackCrashDir (now : ℕ) (id : ℤ) (k : ℕ) (w : FileBasedWal) : Option Dir :=
  if k ≤ w.goneCount now id then
    let files := (w.closeCurrFile now).walFiles
    some (dirOf (keptFiles id files ++ (goneFiles id files).drop k))
  else (w.rollbackToLog now id).map fun w' => dirOf w'.1.walFiles

end FileBasedWal

/-- The log has the records up to the given id, from the first one on. -/
def Keeps (w : FileBasedWal) (id : ℤ) (rs : List Record) : Prop :=
  upTo id rs = [] ∨ w.firstLogId ≤ firstIdOf rs ∧ id ≤ w.lastLogId ∧
    w.entries (firstIdOf rs) id = some (upTo id rs)

/-! ### Gaps -/

section Gap

variable {files : List WalFile}

theorem removeBeforeGap_of_gap (h : Layout n files rs) (hfiles : files ≠ [])
    (h' : Layout m files' rs') (hne : files' ≠ []) (hgap : n + rs.length < m) (hpos : 0 < m) :
    removeBeforeGap (files ++ files') = files' := by
  cases h' with
  | nil => exact absurd rfl hne
  | @cons _ f files' c rs' hc _ hrest =>
    have hlast : lastGap (n + rs.length - 1) (-1) (f :: files') = m := by
      rw [lastGap, if_pos (by omega), hc.2.lastId, hc.1]
      simpa [lastGap] using Layout.lastGap_append hrest m []
    rw [h.removeBeforeGap_append hfiles, hlast, if_pos hpos,
      dropWhile_append_of_pos fun f hf => decide_eq_true (by
        have := (h.key_mem fileKey hf).2
        omega), dropWhile_cons_of_neg (by rw [decide_eq_true_eq]; omega)]

theorem scanAllWalFiles_append (h : Layout n files rs) (hfiles : files ≠ [])
    (h' : Layout m files' rs') (hne : files' ≠ []) (hgap : n + rs.length < m) (hpos : 0 < m)
    (hvalid : ∀ r ∈ rs, r.Valid) (hvalid' : ∀ r ∈ rs', r.Valid) (now : ℕ) :
    scanAllWalFiles now (dirOf (files ++ files')) = files'.map WalFile.refresh := by
  have hmap : (dirOf (files ++ files')).map (fun f => scanFile f.1 f.2) =
      files.map WalFile.refresh ++ files'.map WalFile.refresh := by
    rw [dirOf, map_append, map_append]
    exact congrArg₂ _ (h.map_scanFile hvalid) (h'.map_scanFile hvalid')
  have hne' : files'.map WalFile.refresh ≠ [] := by simpa using hne
  -- the last file is one of the second log
  have hcheck : checkLast now (files.map WalFile.refresh ++ files'.map WalFile.refresh) =
      files.map WalFile.refresh ++ files'.map WalFile.refresh := by
    obtain ⟨init, g, hg⟩ := (eq_nil_or_concat' _).resolve_left hne'
    have hlay := h'.refresh
    have hself := hlay.checkLast_eq hvalid' now
    rw [hg, checkLast_concat] at hself
    rw [hg, ← append_assoc, checkLast_concat]
    split_ifs at hself with hpos'
    · exact absurd (congrArg length hself) (by simp)
    · rw [if_neg hpos', append_assoc, hself, append_assoc]
  rw [scanAllWalFiles, hmap, hcheck,
    removeBeforeGap_of_gap h.refresh (by simpa using hfiles) h'.refresh hne' hgap hpos]

end Gap

/-! ### The crash -/

section Crash

variable {policy : FileBasedWalPolicy} {id : ℤ}

theorem goneFiles_eq (hp : ∀ f ∈ p, f.info.firstId < id + 1)
    (hq : ∀ f ∈ q, id + 1 ≤ f.info.firstId) : goneFiles id (p ++ q) = q := by
  rw [goneFiles, dropWhile_append_of_pos fun f hf => decide_eq_true (by
    have := hp f hf
    omega)]
  cases q with
  | nil => rfl
  | cons f q =>
    have := hq f (by simp)
    rw [dropWhile_cons_of_neg (by rw [decide_eq_true_eq]; omega)]

theorem Reads.keeps (h : Reads v rs) (hnum : Numbered n rs) (hne : rs ≠ []) (hlow : n ≤ id)
    (hhigh : id ≤ lastIdOf rs) : Keeps v id rs := by
  have hfirst := hnum.firstIdOf hne
  refine .inr ⟨h.first.le, hhigh.trans h.last.ge, ?_⟩
  rw [h.entries _ _ h.first.le (by omega) (hhigh.trans h.last.ge)]
  congr 1
  apply filter_congr
  intro r hr
  have := (hnum.le_id hr).1
  simp only [decide_eq_decide]
  omega

theorem keeps_of_all {files : List WalFile} (hlay : Layout n files rs)
    (hvalid : ∀ r ∈ rs, r.Valid) (hne : rs ≠ []) (hlow : n ≤ id) (hhigh : id ≤ lastIdOf rs) :
    Keeps (openDir policy pre now' (dirOf files)) id rs :=
  (reads_openDir (scanAllWalFiles_of_layout hlay hvalid now') hlay.refresh hvalid).keeps
    hlay.numbered hne hlow hhigh

theorem keeps_append (hnum : Numbered n (a ++ b)) (hne : a ≠ []) (hid : id ≤ lastIdOf a)
    (h : Keeps v id a) : Keeps v id (a ++ b) := by
  have ha := (numbered_append.mp hnum).1
  have hb := (numbered_append.mp hnum).2
  have hlast := ha.lastIdOf hne
  have hup : upTo id (a ++ b) = upTo id a := by
    have hbnil : upTo id b = [] := by
      refine filter_eq_nil_iff.mpr fun r hr => ?_
      have := (hb.le_id hr).1
      rw [decide_eq_true_eq]
      omega
    rw [upTo, filter_append]
    exact (congrArg (upTo id a ++ ·) hbnil).trans (append_nil _)
  have hfirst : firstIdOf (a ++ b) = firstIdOf a := by
    rw [hnum.firstIdOf (by simp [hne]), ha.firstIdOf hne]
  rw [Keeps, hup, hfirst]
  exact h

/-- Between the files that stay and those that are not yet gone there is a gap. -/
theorem not_keeps_of_gap (hp : Layout n p a) (hpne : p ≠ []) (hq : Layout m q z) (hqne : q ≠ [])
    (hgap : n + a.length < m) (hn : 0 < n) (hvalid : ∀ r ∈ a, r.Valid) (hvalid' : ∀ r ∈ z, r.Valid)
    (hlow : n ≤ id) (hnum : Numbered n (a ++ b)) :
    ¬ Keeps (openDir policy pre now' (dirOf (p ++ q))) id (a ++ b) := by
  have hane : a ≠ [] := hp.eq_nil_iff.not.mp hpne
  have hzne : z ≠ [] := hq.eq_nil_iff.not.mp hqne
  have hreads : Reads (openDir policy pre now' (dirOf (p ++ q))) z :=
    reads_openDir (scanAllWalFiles_append hp hpne hq hqne hgap (by omega) hvalid hvalid' now')
      hq.refresh hvalid'
  have hfirst := hnum.firstIdOf (by simp [hane])
  rintro (hnil | ⟨hle, -, -⟩)
  · -- the first record is one of those
    obtain ⟨r, a, rfl⟩ := exists_cons_of_ne_nil hane
    have hr : r ∈ upTo id (r :: a ++ b) :=
      mem_filter.mpr ⟨by simp, decide_eq_true (by have := hnum.1; omega)⟩
    rw [hnil] at hr
    cases hr
  · rw [hreads.first, hq.numbered.firstIdOf hzne] at hle
    omega

theorem exists_upTo (h : Numbered n rs) (hlow : n - 1 ≤ id) (hhigh : id < n + rs.length) :
    ∃ a b, rs = a ++ b ∧ upTo id rs = a ∧ id = n + a.length - 1 := by
  have hlen : ((rs.take (id - n + 1).toNat).length : ℤ) = id - n + 1 := by
    rw [length_take]
    omega
  have hsplit := take_append_drop (id - n + 1).toNat rs
  refine ⟨_, _, hsplit.symm, ?_, by omega⟩
  have hup : upTo id _ = _ := upTo_append (hsplit.symm ▸ h) (by omega)
  rwa [hsplit] at hup

theorem keeps_unlinking_iff (hlay : Layout n (p ++ q) rs) (hvalid : ∀ r ∈ rs, r.Valid)
    (hq : ∀ f ∈ q, id + 1 ≤ f.info.firstId) (hn : 0 < n) (hlow : n ≤ id)
    (hhigh : id < n + rs.length) (hk : k ≤ q.length) :
    Keeps (openDir policy pre now' (dirOf (p ++ q.drop k))) id rs ↔
      k = 0 ∨ q.length ≤ k := by
  obtain ⟨a, z, rfl, ha, hz⟩ := Chunked.append_iff.mp hlay
  have hnum := hlay.numbered
  have hva : ∀ x ∈ a, x.Valid := fun x hx => hvalid x (mem_append_left _ hx)
  have hvz : ∀ x ∈ z, x.Valid := fun x hx => hvalid x (mem_append_right _ hx)
  -- the record with the id is in a file that stays
  have hid : id < n + a.length := by
    refine hz.lt_of_forall_key fileKey hq ?_
    rw [length_append] at hhigh
    omega
  have hane : a ≠ [] := by
    rintro rfl
    rw [length_nil] at hid
    omega
  have hlast := (numbered_append.mp hnum).1.lastIdOf hane
  rcases eq_zero_or_pos k with rfl | hpos
  · have hlast' := hnum.lastIdOf (by simp [hane])
    exact iff_of_true (keeps_of_all hlay hvalid (by simp [hane]) hlow (by omega)) (.inl rfl)
  rcases lt_or_ge k q.length with hlt | hge
  · -- some are gone, some are not
    refine iff_of_false ?_ (by omega)
    rw [← take_append_drop k q] at hz
    obtain ⟨z₁, z₂, rfl, hz₁, hz₂⟩ := Chunked.append_iff.mp hz
    have hz₁ne : z₁ ≠ [] := by
      refine hz₁.eq_nil_iff.not.mp fun hnil => ?_
      have := congrArg length hnil
      rw [length_take, length_nil] at this
      omega
    have hdrop : q.drop k ≠ [] := by
      rw [Ne, drop_eq_nil_iff]
      omega
    have hz₁len : 0 < z₁.length := length_pos_iff.mpr hz₁ne
    exact not_keeps_of_gap ha (ha.eq_nil_iff.not.mpr hane) hz₂ hdrop (by omega) hn hva
      (fun x hx => hvz x (mem_append_right _ hx)) hlow hnum
  · -- all are gone
    refine iff_of_true ?_ (.inr hge)
    rw [drop_eq_nil_of_le hge, append_nil]
    exact keeps_append hnum hane (by omega) (keeps_of_all ha hva hane hlow (by omega))

theorem keeps_crash_iff (h : Represents now w rs) (hlow : w.firstLogId - 1 ≤ id)
    (hhigh : id ≤ w.lastLogId) :
    ∃ dir, w.rollbackCrashDir now id k = some dir ∧
      (Keeps (openDir policy pre now' dir) id rs ↔
        k = 0 ∨ w.goneCount now id ≤ k ∨ id < w.firstLogId) := by
  have hc := h.closeCurrFile
  obtain ⟨files, hclose⟩ := closeCurrFile_eq now w
  rw [hclose] at hc
  have hlay : Layout w.firstLogId files rs := hc.files
  obtain ⟨p, q, rfl, hp, hq⟩ := hlay.exists_split fileKey (id + 1)
  have hcount : w.goneCount now id = q.length := by
    rw [goneCount, hclose, goneFiles_eq hp hq]
  by_cases hne : rs = []
  · -- an empty log has nothing to lose
    subst hne
    have hq0 : q.length = 0 := by
      have := congrArg length (hlay.eq_nil_iff.mpr rfl)
      rw [length_append, length_nil] at this
      omega
    have hdir : ∃ dir, w.rollbackCrashDir now id k = some dir := by
      rw [rollbackCrashDir]
      split
      · exact ⟨_, rfl⟩
      · obtain ⟨w', heq, -⟩ := h.rollbackToLog hlow hhigh
        rw [heq]
        exact ⟨_, rfl⟩
    obtain ⟨dir, hdir⟩ := hdir
    exact ⟨dir, hdir, iff_of_true (.inl rfl) (.inr (.inl (by omega)))⟩
  have hend := h.lastLogId_eq hne
  rw [rollbackCrashDir, hcount]
  split_ifs with hk
  · rw [hclose]
    simp only
    rw [keptFiles_eq hp hq, goneFiles_eq hp hq]
    refine ⟨_, rfl, ?_⟩
    rcases lt_or_ge id w.firstLogId with hid | hid
    · -- there are no such records
      have hup : upTo id rs = [] :=
        upTo_append (a := []) h.numbered (by rw [length_nil]; push_cast; omega)
      exact iff_of_true (.inl hup) (.inr (.inr hid))
    · rw [keeps_unlinking_iff hlay h.valid hq (h.firstLogId_pos hne) hid (by omega) hk]
      have : ¬ id < w.firstLogId := by omega
      tauto
  · -- the rollback is complete
    obtain ⟨w', heq, hrep, -⟩ := h.rollbackToLog hlow hhigh
    rw [heq]
    refine ⟨_, rfl, iff_of_true ?_ (.inr (.inl (by omega)))⟩
    obtain ⟨a, b, rfl, hup, hid⟩ := exists_upTo h.numbered hlow (by omega)
    rw [hup] at hrep
    by_cases hane : a = []
    · exact .inl (by rw [hup, hane])
    have hnum := (numbered_append.mp h.numbered).1
    have hlast := hnum.lastIdOf hane
    have halen : 0 < a.length := length_pos_iff.mpr hane
    refine keeps_append h.numbered hane (by omega) ?_
    have hreads : Reads (openDir policy pre now' (dirOf w'.walFiles)) a :=
      reads_openDir (scanAllWalFiles_of_layout hrep.files hrep.valid now') hrep.files.refresh
        hrep.valid
    exact hreads.keeps hnum hane (by omega) (by omega)

end Crash

/-- **After a crash inside `rollbackToLog`, the records up to the given id are there if
and only if no file was removed, or all files that had to go, or the log has no such
records.** -/
theorem keeps_rollbackCrash_iff (policy : FileBasedWalPolicy) (hnum : 1 ≤ policy.numBuffers)
    (pre : Record → Bool) (now : ℕ) (ops : List (ℕ × WalOp)) (hops : ∀ op ∈ ops, op.2.Valid)
    {w : FileBasedWal} {answers : List Bool}
    (hrun : (openDir policy pre now []).runOps now ops = some (w, answers))
    {rs : List Record} (hrs : w.entries w.firstLogId w.lastLogId = some rs) {t : ℕ}
    (ht : now + (ops.map Prod.fst).sum ≤ t) {id : ℤ} (hlow : w.firstLogId - 1 ≤ id)
    (hhigh : id ≤ w.lastLogId) (k now' : ℕ) :
    ∃ dir, w.rollbackCrashDir t id k = some dir ∧
      (Keeps (openDir policy pre now' dir) id rs ↔
        k = 0 ∨ w.goneCount t id ≤ k ∨ id < w.firstLogId) := by
  obtain ⟨v, answers', a, heq, -, hsim⟩ := (simulates_openDir hnum).runOps hops
  rw [hrun] at heq
  cases heq
  have hrep := hsim.represents.mono ht
  -- what the log reads is what it stands for
  have hle : w.firstLogId ≤ w.lastLogId := by
    by_cases hne : a.records = []
    · have hfirst := hrep.first
      have hlast := hrep.last
      rw [hne] at hfirst hlast
      exact (hfirst.trans hlast.symm).le
    · have := hrep.lastLogId_eq hne
      have : 0 < a.records.length := length_pos_iff.mpr hne
      omega
  rw [hrep.entries_eq le_rfl hle le_rfl] at hrs
  have hall : rs = a.records := by
    rw [← Option.some.inj hrs, filter_eq_self]
    intro r hr
    have hmem := hrep.numbered.le_id hr
    have hend := hrep.lastLogId_eq (ne_nil_of_mem hr)
    exact decide_eq_true (by omega)
  rw [hall]
  exact keeps_crash_iff hrep hlow hhigh

/-- Three records, each in its own file, and their log. -/
def threeFiles : List (ℕ × WalOp) :=
  [(0, .appendLogs [⟨1, 1, 0, []⟩, ⟨2, 1, 0, []⟩, ⟨3, 1, 0, []⟩])]

theorem keeps_rollbackCrash_sample :
    ∃ w dir, (openDir { fileSize := 40 } (fun _ => true) 0 []).runOps 0 threeFiles =
        some (w, [true]) ∧
      w.rollbackCrashDir 0 1 2 = some dir ∧
      Keeps (openDir { fileSize := 40 } (fun _ => true) 0 dir) 1
        [⟨1, 1, 0, []⟩, ⟨2, 1, 0, []⟩, ⟨3, 1, 0, []⟩] := by
  obtain ⟨dir, hdir, hiff⟩ := keeps_rollbackCrash_iff { fileSize := 40 } (by decide) (fun _ => true)
    0 threeFiles (by simp only [threeFiles, mem_singleton, forall_eq, WalOp.Valid]; decide) rfl
    rfl (t := 0) (by decide) (show _ ≤ (1 : ℤ) by decide) (by decide) 2 0
  exact ⟨_, dir, rfl, hdir, hiff.mpr (.inr (.inl (by decide)))⟩

/-- The log is rolled back to its first record, and the process dies when the second file
is gone and the third is still there.  Then the first record is gone. -/
theorem not_keeps_rollbackCrash :
    ∃ w dir, (openDir { fileSize := 40 } (fun _ => true) 0 []).runOps 0 threeFiles =
        some (w, [true]) ∧
      w.entries w.firstLogId w.lastLogId = some [⟨1, 1, 0, []⟩, ⟨2, 1, 0, []⟩, ⟨3, 1, 0, []⟩] ∧
      w.rollbackCrashDir 0 1 1 = some dir ∧
      (openDir { fileSize := 40 } (fun _ => true) 0 dir).firstLogId = 3 ∧
      ¬ Keeps (openDir { fileSize := 40 } (fun _ => true) 0 dir) 1
        [⟨1, 1, 0, []⟩, ⟨2, 1, 0, []⟩, ⟨3, 1, 0, []⟩] := by
  refine ⟨_, _, rfl, by decide, rfl, by decide, ?_⟩
  rintro (hnil | ⟨hle, -, -⟩)
  · exact absurd hnil (by decide)
  · exact absurd hle (by decide)

end K2Graph.Wal
