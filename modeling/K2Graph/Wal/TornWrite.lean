import K2Graph.Wal.Refinement

/-!
# A write that was cut off

The process dies inside the last `write`: a part of the last record is on disk, and all
records before it.  A new `FileBasedWal` should find the records before it.

When the file has records before the one that was cut off, walking through the file
finds the last of them and cuts off the rest.  When the cut record is the first one in
its file, the walk finds nothing, and what is known of the file stays what its last
bytes look like.  These may be any bytes of a message; if they look like the end of a
record, the file stays.

## Main results

* `reads_torn_iff` — **the records are found if and only if `tornSafe`.**
* `not_reads_torn` — a log that is found wrong.
-/

namespace K2Graph.Wal

open List hiding not_le

/-! ### What is found -/

variable {files : List WalFile}

structure Reads (w : FileBasedWal) (rs : List Record) : Prop where
  first : w.firstLogId = firstIdOf rs
  last : w.lastLogId = lastIdOf rs
  lastTerm : w.lastLogTerm = lastTermOf rs
  entries : ∀ f l, w.firstLogId ≤ f → f ≤ l → l ≤ w.lastLogId →
    w.entries f l = some (rs.filter fun r => decide (f ≤ r.id ∧ r.id ≤ l))

/-- What is found when there may be a file behind the log. -/
theorem reads_of_late (hscan : scanAllWalFiles now dir = files ++ late) (hlay : Layout n files rs)
    (hne : rs ≠ []) (hlate : Late (n + rs.length) late) (hvalid : ∀ r ∈ rs, r.Valid)
    (hlast : ((files ++ late).getLast?.map fun f => f.info.lastId).getD 0 = lastIdOf rs)
    (hterm : ((files ++ late).getLast?.map fun f => f.info.lastTerm).getD 0 = lastTermOf rs) :
    Reads (FileBasedWal.openDir policy pre now dir) rs := by
  have hfirst : ((files ++ late).head?.map fun f => f.info.firstId).getD 0 = n := by
    cases hlay with
    | nil => exact absurd rfl hne
    | cons hc _ _ => exact hc.1
  have hend := hlay.numbered.lastIdOf hne
  rw [FileBasedWal.openDir, hscan]
  refine ⟨?_, hlast, hterm, fun f l hf hfl hl => ?_⟩
  · simp only [hfirst]
    exact (hlay.numbered.firstIdOf hne).symm
  simp only [hfirst, hlast] at hf hl
  refine Readable.entries_eq ⟨⟨files, late, rfl, hlay, hlate⟩, hvalid, hfirst, ?_, ?_⟩ hf hfl
    (by omega)
  · simp only [hlast]
    exact hend
  · exact ⟨0, [], .nil 0, by simp, by simp⟩

theorem reads_openDir (hscan : scanAllWalFiles now dir = files) (hlay : Layout n files rs)
    (hvalid : ∀ r ∈ rs, r.Valid) : Reads (FileBasedWal.openDir policy pre now dir) rs := by
  rcases eq_nil_or_concat' files with rfl | ⟨init, g, rfl⟩
  · cases hlay
    rw [FileBasedWal.openDir, hscan]
    refine ⟨rfl, rfl, rfl, fun f l hf hfl hl => ?_⟩
    simp only [head?_nil, getLast?_nil, Option.map_none, Option.getD_none] at hf hl ⊢
    obtain rfl : f = 0 := by omega
    obtain rfl : l = 0 := by omega
    rfl
  · obtain ⟨a, d, rfl, -, hd, hne⟩ := Chunked.concat_iff.mp hlay
    obtain ⟨r, hr, hid, hterm⟩ := hd.2.last
    refine reads_of_late (hscan.trans (append_nil _).symm) hlay (by simp [hne]) (.inl rfl) hvalid
      ?_ ?_
    · simp [lastIdOf, hr, hid]
    · simp [lastTermOf, hr, hterm]

/-! ### The crash -/

namespace FileBasedWal

/-- The directory when the process dies while `appendLogInternal` writes the record, and
the first `k` bytes of it are on disk. -/
def tornDir (now : ℕ) (r : Record) (k : ℕ) (w : FileBasedWal) : Option Dir :=
  (w.prepareFile now r).map fun w' =>
    dirOf (w'.walFiles.map fun f =>
      if some f.info.firstId = w'.currFile then
        { f with file := ⟨f.file.bytes ++ r.bytes.take k, now⟩ }
      else f)

/-- The part of the record is behind other records in its file, or its bytes do not look
like the end of a record, or what they look like is the last record there is. -/
def tornSafe (w : FileBasedWal) (rs : List Record) (r : Record) (k : ℕ) : Bool :=
  !w.opensFile r || decide ((guessLast r.id (r.bytes.take k)).1 ≤ 0) ||
    (decide (rs ≠ []) && decide (guessLast r.id (r.bytes.take k) = (lastIdOf rs, lastTermOf rs)))

end FileBasedWal

/-! ### The directory after the crash -/

section Crash

variable {r : Record}

theorem tornDir_eq (h : Represents now w rs) (hnext : Represents.IsNext rs r) :
    ∃ n files id a c, w.tornDir now r k =
        some (dirOf (files ++ [⟨⟨id, 0, 0, 0, 0⟩, ⟨fileBytes c ++ r.bytes.take k, now⟩⟩])) ∧
      rs = a ++ c ∧ (c = [] ↔ w.opensFile r = true) ∧ Layout n files a ∧ id = n + a.length ∧
      Numbered id c ∧ r.id = id + c.length := by
  obtain ⟨files, f, a, c, hprep, hrs, hc, hp⟩ := h.prepareFile_eq hnext
  refine ⟨_, files, f.info.firstId, a, c, ?_, hrs, hc, hp.before, hp.place, hp.numbered, hp.next⟩
  rw [FileBasedWal.tornDir, hprep, Option.map_some]
  simp only [dirOf, map_append, map_singleton, map_map, hp.bytes]
  congr 2
  apply map_congr_left
  intro g hg
  have := (hp.before.key_mem FileBasedWalIterator.fileKey hg).2
  have hplace := hp.place
  rw [Function.comp_apply, if_neg (by rw [Option.some.injEq]; omega)]

/-- What the first loop of `scanAllWalFiles` makes of the directory. -/
theorem map_scanFile_torn {x : WalFile} (hlay : Layout n files a) (hvalid : ∀ r ∈ a, r.Valid) :
    (dirOf (files ++ [x])).map (fun f => scanFile f.1 f.2) =
      files.map WalFile.refresh ++ [scanFile x.info.firstId x.file] := by
  rw [dirOf, map_append, map_append]
  congr 1
  exact hlay.map_scanFile hvalid

theorem checkLast_concat (files : List WalFile) (x : WalFile) :
    checkLast now' (files ++ [x]) =
      if (scanLastWal now' x).info.lastId ≤ 0 then files else files ++ [scanLastWal now' x] := by
  simp [checkLast]

theorem holds_scanLastWal_torn (now now' : ℕ) {id : ℤ} (hc : Numbered id c) (hne : c ≠ [])
    (hvalid : ∀ x ∈ c, x.Valid) (hr : r.Valid) (hk : k < r.bytes.length) :
    (scanLastWal now' (scanFile id ⟨fileBytes c ++ r.bytes.take k, now⟩)).Holds c ∧
      (scanLastWal now' (scanFile id ⟨fileBytes c ++ r.bytes.take k, now⟩)).info.firstId = id := by
  obtain ⟨r', hlast⟩ := Option.ne_none_iff_exists'.mp (mt getLast?_eq_none_iff.mp hne)
  rw [scanLastWal_of_torn rfl hk hc hvalid hr]
  split_ifs with hcut
  · refine ⟨⟨?_, ⟨r', hlast, ?_, ?_⟩, rfl, rfl⟩, ?_⟩
    · simp only [WalFileInfo.seen, hlast]
      exact hc
    · simp [WalFileInfo.seen, hlast]
    · simp [WalFileInfo.seen, hlast]
    · simp only [WalFileInfo.seen, hlast]
      rfl
  obtain rfl : k = 0 := by
    by_contra hk0
    exact hcut ⟨hne, hk0⟩
  refine ⟨⟨?_, ⟨r', hlast, ?_, ?_⟩, ?_, ?_⟩, ?_⟩
  · simp only [WalFileInfo.seen, hlast]
    exact hc
  · simp [WalFileInfo.seen, hlast]
  · simp [WalFileInfo.seen, hlast]
  · simp [scanFile]
  · simp [WalFileInfo.seen, hlast, scanFile]
  · simp only [WalFileInfo.seen, hlast]
    rfl

theorem scanLastWal_torn_alone {id : ℤ} (hr : r.Valid) (hk : k < r.bytes.length) :
    scanLastWal now' (scanFile id ⟨r.bytes.take k, now⟩) = scanFile id ⟨r.bytes.take k, now⟩ := by
  have hempty : Numbered id [] := trivial
  rw [scanLastWal_of_torn rfl hk hempty (by simp) hr]
  rfl

theorem removeBeforeGap_concat (hlay : Layout n files a) (hx : x.info.firstId = n + a.length) :
    removeBeforeGap (files ++ [x]) = files ++ [x] := by
  by_cases hne : files = []
  · rw [hne]
    rfl
  · have hgap : lastGap (n + a.length - 1) (-1) [x] = -1 := by
      rw [lastGap, lastGap, if_neg (by omega)]
    rw [hlay.removeBeforeGap_append hne, hgap]
    rfl

end Crash

/-! ### What is found after the crash -/

section Recovery

variable {r : Record}

theorem length_of_guessLast {id : ℤ} (h : 0 < (guessLast id bytes).1) : 20 ≤ bytes.length := by
  have htail : 0 < (readTail bytes).1 := by
    rw [guessLast] at h
    split at h
    · simp at h
    split at h
    · simp at h
    · split at h
      · simp at h
      · exact h
  rw [readTail] at htail
  split at htail
  · simp at htail
  split at htail
  · simp at htail
  rename_i hprec
  split at htail
  · simp at htail
  split at htail
  · simp at htail
  split at htail
  · simp at htail
  rename_i hid
  have h₁ := le_of_readInt hprec
  have h₂ := le_of_readInt hid
  omega

theorem hasHead_torn (hr : r.Valid) (h : 0 < (guessLast r.id (r.bytes.take k)).1) :
    HasHead (scanFile r.id ⟨r.bytes.take k, now⟩) := by
  have hk : 20 ≤ k := (length_of_guessLast h).trans (length_take_le _ _)
  obtain ⟨post, hpost⟩ := r.take_bytes hk
  refine ⟨h, ?_, ⟨r.term, ?_⟩, ⟨r.msg.length, ?_⟩⟩
  · exact readInt_of_eq [] hr.fits_id ⟨_, hpost⟩ rfl
  · exact readInt_of_eq (LittleEndian.ofInt 8 r.id) hr.term ⟨_, hpost⟩
      (by rw [LittleEndian.length_ofInt]; rfl)
  · refine readInt_of_eq (LittleEndian.ofInt 8 r.id ++ LittleEndian.ofInt 8 r.term) hr.fits_length
      ⟨post, ?_⟩ (by rw [length_append]; rfl)
    simp [scanFile, hpost]

theorem reads_torn_behind {id : ℤ} (hlay : Layout n files a) (hid : id = n + a.length)
    (hc : Numbered id c) (hne : c ≠ []) (hvalid : ∀ x ∈ a ++ c, x.Valid) (hr : r.Valid)
    (hk : k < r.bytes.length) : Reads (FileBasedWal.openDir policy pre now'
      (dirOf (files ++ [⟨⟨id, 0, 0, 0, 0⟩, ⟨fileBytes c ++ r.bytes.take k, now⟩⟩]))) (a ++ c) := by
  have hva : ∀ x ∈ a, x.Valid := fun x hx => hvalid x (mem_append_left _ hx)
  have hvc : ∀ x ∈ c, x.Valid := fun x hx => hvalid x (mem_append_right _ hx)
  obtain ⟨hholds, hfirst⟩ := holds_scanLastWal_torn now now' hc hne hvc hr hk
  obtain ⟨r', hlast, hlastId, -⟩ := hholds.last
  have hpos := (hvc r' (mem_of_getLast? hlast)).pos
  have hlay' : Layout n (files.map WalFile.refresh ++
      [scanLastWal now' (scanFile id ⟨fileBytes c ++ r.bytes.take k, now⟩)]) (a ++ c) :=
    Chunked.concat_iff.mpr ⟨a, c, rfl, hlay.refresh, ⟨hfirst.trans hid, hholds⟩, hne⟩
  have hkept : ¬ (scanLastWal now' (scanFile id ⟨fileBytes c ++ r.bytes.take k, now⟩)).info.lastId ≤
      0 := by omega
  refine reads_openDir ?_ hlay' hvalid
  rw [scanAllWalFiles, map_scanFile_torn hlay hva, checkLast_concat, if_neg hkept,
    hlay'.removeBeforeGap_eq]

/-- A part of a record whose bytes look like the end of one is taken for it: what is found is
right only if the last record there is has the id and the term that were taken. -/
theorem reads_torn_taken_iff (hlay : Layout n files rs) (hid : r.id = n + rs.length)
    (hvalid : ∀ x ∈ rs, x.Valid) (hr : r.Valid) (hk : k < r.bytes.length)
    (hguess : 0 < (guessLast r.id (r.bytes.take k)).1) : Reads (FileBasedWal.openDir policy pre now'
        (dirOf (files ++ [⟨⟨r.id, 0, 0, 0, 0⟩, ⟨r.bytes.take k, now⟩⟩]))) rs ↔
      rs ≠ [] ∧ guessLast r.id (r.bytes.take k) = (lastIdOf rs, lastTermOf rs) := by
  -- the part of the record is taken for the end of one
  have hscan : scanAllWalFiles now'
      (dirOf (files ++ [⟨⟨r.id, 0, 0, 0, 0⟩, ⟨r.bytes.take k, now⟩⟩])) =
        files.map WalFile.refresh ++ [scanFile r.id ⟨r.bytes.take k, now⟩] := by
    rw [scanAllWalFiles, map_scanFile_torn hlay hvalid, checkLast_concat,
      scanLastWal_torn_alone hr hk, if_neg (by exact not_le.mpr hguess),
      removeBeforeGap_concat hlay.refresh hid]
  have hlast : (FileBasedWal.openDir policy pre now' (dirOf (files ++
      [⟨⟨r.id, 0, 0, 0, 0⟩, ⟨r.bytes.take k, now⟩⟩]))).lastLogId =
        (guessLast r.id (r.bytes.take k)).1 ∧
      (FileBasedWal.openDir policy pre now' (dirOf (files ++
      [⟨⟨r.id, 0, 0, 0, 0⟩, ⟨r.bytes.take k, now⟩⟩]))).lastLogTerm =
        (guessLast r.id (r.bytes.take k)).2 := by
    simp only [FileBasedWal.openDir, hscan, getLast?_append, getLast?_singleton,
      Option.some_or]
    exact ⟨rfl, rfl⟩
  constructor
  · intro h
    have h₁ := hlast.1.symm.trans h.last
    have h₂ := hlast.2.symm.trans h.lastTerm
    refine ⟨?_, Prod.ext h₁ h₂⟩
    rintro rfl
    rw [h₁] at hguess
    exact absurd hguess (by decide)
  -- the file behind the log does not change what is read from it
  rintro ⟨hne, heq⟩
  refine reads_of_late hscan hlay.refresh hne (.inr ⟨_, rfl, hid, hasHead_torn hr hguess⟩) hvalid
    ?_ ?_
  · rw [getLast?_concat]
    exact congrArg Prod.fst heq
  · rw [getLast?_concat]
    exact congrArg Prod.snd heq

theorem reads_torn (h : Represents now w rs) (hnext : Represents.IsNext rs r) (hr : r.Valid)
    (hk : k < r.bytes.length) :
    ∃ dir, w.tornDir now r k = some dir ∧
      (Reads (FileBasedWal.openDir policy pre now' dir) rs ↔ w.tornSafe rs r k = true) := by
  obtain ⟨n, files, id, a, c, hdir, rfl, hc, hlay, hid, hnum, hrid⟩ := tornDir_eq (k := k) h hnext
  refine ⟨_, hdir, ?_⟩
  by_cases hne : c = []
  · subst hne
    rw [append_nil] at h ⊢
    rw [length_nil, Nat.cast_zero, add_zero] at hrid
    subst hrid
    rw [fileBytes_nil, nil_append, FileBasedWal.tornSafe, hc.mp rfl]
    rcases le_or_gt (guessLast r.id (r.bytes.take k)).1 0 with hguess | hguess
    · simp only [Bool.not_true, Bool.false_or, decide_eq_true hguess, Bool.true_or, iff_true]
      -- the part of the record is dropped
      refine reads_openDir ?_ hlay.refresh h.valid
      rw [scanAllWalFiles, map_scanFile_torn hlay h.valid, checkLast_concat,
        scanLastWal_torn_alone hr hk, if_pos (by exact hguess), hlay.refresh.removeBeforeGap_eq]
    · rw [reads_torn_taken_iff hlay hid h.valid hr hk hguess]
      simp [decide_eq_false (not_le.mpr hguess)]
  · have hopen : w.opensFile r = false := by
      rw [← Bool.not_eq_true]
      exact fun ho => hne (hc.mpr ho)
    rw [FileBasedWal.tornSafe, hopen]
    simp only [Bool.not_false, Bool.true_or, iff_true]
    exact reads_torn_behind hlay hid hnum hne h.valid hr hk

end Recovery

/-! ### Appending and dying -/

/-- Records that are appended one after the other, each with the time that goes by
before it. -/
def appends (entries : List (ℕ × Record)) : List (ℕ × WalOp) :=
  entries.map fun e => (e.1, .appendLog e.2)

theorem AbstractLog.Run.records_appends
    (h : AbstractLog.Run pre a ((appends entries).map Prod.snd) answers a')
    (hall : ∀ b ∈ answers, b = true) : a'.records = a.records ++ entries.map Prod.snd := by
  induction entries generalizing a answers with
  | nil =>
    cases h
    simp
  | cons e entries ih =>
    cases h with
    | cons hstep hrun =>
      cases hstep
      have hacc := hall _ (mem_cons_self ..)
      rw [ih hrun fun b hb => hall b (mem_cons_of_mem _ hb)]
      rw [AbstractLog.append] at hacc ⊢
      split at hacc
      · rename_i htake
        rw [if_pos htake]
        simp
      · cases hacc

/-- **After records have been appended and the process has died inside the write of one
more, the records are found if and only if `tornSafe`.** -/
theorem reads_torn_iff (policy : FileBasedWalPolicy) (hnum : 1 ≤ policy.numBuffers)
    (pre : Record → Bool) (now : ℕ) (entries : List (ℕ × Record))
    (hvalid : ∀ e ∈ entries, e.2.Valid) {w : FileBasedWal} {answers : List Bool}
    (hrun : (FileBasedWal.openDir policy pre now []).runOps now (appends entries) =
      some (w, answers))
    (hall : ∀ b ∈ answers, b = true) {r : Record} (hr : r.Valid) {t : ℕ}
    (ht : now + (entries.map Prod.fst).sum ≤ t) {w' : FileBasedWal}
    (happ : w.appendLog t r = some (w', true)) {k : ℕ} (hk : k < r.bytes.length) (now' : ℕ) :
    ∃ dir, w.tornDir t r k = some dir ∧
      (Reads (FileBasedWal.openDir policy pre now' dir) (entries.map Prod.snd) ↔
        w.tornSafe (entries.map Prod.snd) r k = true) := by
  have hops : ∀ op ∈ appends entries, op.2.Valid := by
    intro op hop
    obtain ⟨e, he, rfl⟩ := mem_map.mp hop
    exact hvalid e he
  obtain ⟨v, answers', a, heq, habs, hsim⟩ := (simulates_openDir hnum).runOps hops
  rw [hrun] at heq
  cases heq
  have hrecords := habs.records_appends hall
  rw [nil_append] at hrecords
  have hclock : now + ((appends entries).map Prod.fst).sum ≤ t := by
    rw [appends, map_map]
    exact ht
  have hsim : Simulates pre t w a := ⟨hsim.represents.mono hclock, hsim.stopped, hsim.preProcessor⟩
  -- the record is the next one, since the log takes it
  obtain ⟨v', hv', -⟩ := hsim.appendLog hr
  rw [happ] at hv'
  simp only [Option.some.injEq, Prod.mk.injEq] at hv'
  have hacc := hv'.2.symm
  have hnext : Represents.IsNext a.records r := by
    rw [AbstractLog.append] at hacc
    split at hacc
    · rename_i htake
      simp only [AbstractLog.accepts, Bool.and_eq_true, Bool.or_eq_true, decide_eq_true_eq] at htake
      exact htake.1.2
    · cases hacc
  rw [← hrecords]
  exact reads_torn hsim.represents hnext hr hk

/-- A log with one record, and what it is after it has been written. -/
theorem reads_torn_sample :
    ∃ w dir, (FileBasedWal.openDir {} (fun _ => true) 0 []).runOps 0
        (appends [(0, ⟨1, 1, 0, [7]⟩)]) = some (w, [true]) ∧
      w.tornDir 1 ⟨2, 1, 0, [8, 9]⟩ 30 = some dir ∧
      Reads (FileBasedWal.openDir {} (fun _ => true) 2 dir) [⟨1, 1, 0, [7]⟩] := by
  obtain ⟨dir, hdir, hiff⟩ := reads_torn_iff {} (by decide) (fun _ => true) 0
    [(0, ⟨1, 1, 0, [7]⟩)] (by decide) rfl (by decide) (r := ⟨2, 1, 0, [8, 9]⟩) (by decide) (t := 1)
    (by decide) rfl (k := 30) (by decide) 2
  exact ⟨_, dir, rfl, hdir, hiff.mpr (by decide)⟩

/-- The message of a record whose first part looks like the end of another one. -/
def lookalike : List UInt8 :=
  [5, 0, 0, 0, 0, 0, 0, 0, 9, 0, 0, 0, 0, 0, 0, 0, 0xf4, 0xff, 0xff, 0xff]

/-- The process dies inside the write of the first record of a new log, four bytes before
its end.  The log that is found then has a last record with the id five. -/
theorem not_reads_torn :
    ∃ w' dir, (FileBasedWal.openDir {} (fun _ => true) 0 []).appendLog 0 ⟨1, 1, 0, lookalike⟩ =
        some (w', true) ∧
      (FileBasedWal.openDir {} (fun _ => true) 0 []).tornDir 0 ⟨1, 1, 0, lookalike⟩ 48 = some dir ∧
      (FileBasedWal.openDir {} (fun _ => true) 0 dir).lastLogId = 5 ∧
      ¬ Reads (FileBasedWal.openDir {} (fun _ => true) 0 dir) [] := by
  refine ⟨_, _, rfl, rfl, by decide, fun h => ?_⟩
  exact absurd h.last (by decide)

end K2Graph.Wal
