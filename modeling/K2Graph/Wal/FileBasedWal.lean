import K2Graph.Wal.Scan

/-!
# `FileBasedWal`

The log as the code keeps it: records in files, and the last of them once more in
memory buffers.  The clock is an argument of every function that reads it.  A failed
`CHECK` and a `LOG(FATAL)` end the process: the function returns `none`.

Making a directory and a hard link may fail; all other calls of the file system are
taken to succeed, as long as the file is there or, for `O_EXCL`, is not.
-/

namespace K2Graph.Wal

/-- `FileBasedWalPolicy`.  What `sync` does is not modelled. -/
structure FileBasedWalPolicy where
  /-- `ttl`, in seconds. -/
  ttl : ℤ := 86400
  /-- `fileSize`, in bytes. -/
  fileSize : ℕ := 16 * 1024 * 1024
  /-- `bufferSize`, in bytes. -/
  bufferSize : ℕ := 8 * 1024 * 1024
  numBuffers : ℕ := 2

structure InMemoryLogBuffer where
  firstLogId : ℤ
  /-- `logs_`: term, cluster and message. -/
  logs : List (ℤ × ℤ × List UInt8)
  /-- `totalLen_`, which is `size()`. -/
  totalLen : ℕ

namespace InMemoryLogBuffer

def lastLogId (b : InMemoryLogBuffer) : ℤ := b.logs.length + b.firstLogId - 1

def push (b : InMemoryLogBuffer) (r : Record) : InMemoryLogBuffer :=
  { b with logs := b.logs ++ [(r.term, r.cluster, r.msg)],
           totalLen := b.totalLen + (r.msg.length + 8 + 8 + 8) }

end InMemoryLogBuffer

structure FileBasedWal where
  policy : FileBasedWalPolicy
  preProcessor : Record → Bool
  stopped : Bool
  firstLogId : ℤ
  lastLogId : ℤ
  lastLogTerm : ℤ
  /-- `walFiles_`, and the files on disk. -/
  walFiles : List WalFile
  /-- The first id of `currInfo_`, when a file is open. -/
  currFile : Option ℤ
  buffers : List InMemoryLogBuffer

namespace FileBasedWal

/-! ### Opening and closing -/

variable (policy : FileBasedWalPolicy)

/-- The constructor, over a directory. -/
def openDir (preProcessor : Record → Bool) (now : ℕ) (dir : Dir) :
    FileBasedWal :=
  let files := scanAllWalFiles now dir
  { policy := policy
    preProcessor := preProcessor
    stopped := false
    firstLogId := (files.head?.map fun f => f.info.firstId).getD 0
    lastLogId := (files.getLast?.map fun f => f.info.lastId).getD 0
    lastLogTerm := (files.getLast?.map fun f => f.info.lastTerm).getD 0
    walFiles := files
    currFile := files.getLast?.map fun f => f.info.firstId
    buffers := [] }

/-- Changes the file with the given first id. -/
def modifyFile (id : ℤ) (g : WalFile → WalFile) (files : List WalFile) : List WalFile :=
  files.map fun f => if f.info.firstId = id then g f else f

variable (now : ℕ)

/-- What closing a file leaves of it. -/
def closeFile (f : WalFile) : WalFile :=
  ⟨{ f.info with mtime := now }, { f.file with mtime := now }⟩

section

variable (w : FileBasedWal)

def closeCurrFile : FileBasedWal :=
  match w.currFile with
  | none => w
  | some id => { w with walFiles := modifyFile id (closeFile now) w.walFiles, currFile := none }

/-- The destructor closes the file, and a new object reads the directory. -/
def reopen : FileBasedWal :=
  openDir w.policy w.preProcessor now (dirOf (w.closeCurrFile now).walFiles)

def stop : FileBasedWal := { w with stopped := true }

/-! ### Appending -/

/-- `walFiles_.emplace`: the map is ordered by the first id. -/
def insertFile (f : WalFile) (files : List WalFile) : List WalFile :=
  files.takeWhile (fun g => g.info.firstId < f.info.firstId) ++
    f :: files.dropWhile fun g => g.info.firstId < f.info.firstId

/-- A file nothing has been written to. -/
def newFile (startLogId : ℤ) : WalFile where
  info := { firstId := startLogId, lastId := -1, lastTerm := -1, mtime := 0, size := 0 }
  file := { bytes := [], mtime := now }

/-- `prepareNewFile`, which ends the process if the file exists. -/
def prepareNewFile (startLogId : ℤ) (w : FileBasedWal) : Option FileBasedWal :=
  if w.walFiles.any fun f => f.info.firstId = startLogId then none
  else
    some { w with walFiles := insertFile (newFile now startLogId) w.walFiles,
                  currFile := some startLogId }

/-- `currInfo_->size()`. -/
def currSize : ℕ :=
  ((w.walFiles.find? fun f => some f.info.firstId = w.currFile).map fun f => f.info.size).getD 0

end

/-- The part of `appendLogInternal` that prepares the file: none is open, or the
record is too long for the one that is. -/
def prepareFile (r : Record) (w : FileBasedWal) : Option FileBasedWal :=
  if w.currFile = none then w.prepareNewFile now r.id
  else if w.policy.fileSize < w.currSize + r.bytes.length then
    (w.closeCurrFile now).prepareNewFile now r.id
  else some w

def writeRecord (r : Record) (f : WalFile) : WalFile where
  info := { f.info with size := f.info.size + r.bytes.length, lastId := r.id, lastTerm := r.term }
  file := ⟨f.file.bytes ++ r.bytes, now⟩

/-- `getLastBuffer` and `push`. -/
def pushLog (r : Record) (buffers : List InMemoryLogBuffer) :
    Option (List InMemoryLogBuffer) :=
  let new := InMemoryLogBuffer.push ⟨r.id, [], 0⟩ r
  match buffers.getLast? with
  | none => some [new]
  | some b =>
      if b.totalLen + r.bytes.length ≤ policy.bufferSize then
        some (buffers.dropLast ++ [b.push r])
      else
        let rest := if buffers.length = policy.numBuffers then buffers.tail else buffers
        if rest.length < policy.numBuffers then some (rest ++ [new]) else none

/-- `appendLogInternal`. -/
def appendLog (r : Record) (w : FileBasedWal) : Option (FileBasedWal × Bool) :=
  if w.stopped then some (w, false)
  else if w.lastLogId ≠ 0 ∧ w.firstLogId ≠ 0 ∧ r.id ≠ w.lastLogId + 1 then some (w, false)
  else if !w.preProcessor r then some (w, false)
  else do
    let w' ← w.prepareFile now r
    if maxWrite < r.bytes.length then none
    else
      let buffers ← pushLog w.policy r w.buffers
      some ({ w' with
        walFiles := w'.walFiles.map fun f =>
          if some f.info.firstId = w'.currFile then writeRecord now r f else f
        lastLogId := r.id
        lastLogTerm := r.term
        firstLogId := if w.firstLogId = 0 then r.id else w.firstLogId
        buffers := buffers }, true)

def appendLogs : List Record → FileBasedWal → Option (FileBasedWal × Bool)
  | [], w => some (w, true)
  | r :: rs, w =>
      match w.appendLog now r with
      | none => none
      | some (w', false) => some (w', false)
      | some (w', true) => appendLogs rs w'

/-! ### Rolling back -/

/-- The loop of `rollbackInFile`, with the id and the term read last: where it ends,
and what it has read last.  A record without a whole head ends it. -/
def rollbackLoop (bytes : List UInt8) (logId : ℤ) : ℕ → ℤ → ℤ → ℤ → ℤ × ℤ × ℤ
  | 0, pos, id, term => (pos, id, term)
  | fuel + 1, pos, id, term =>
      match readInt bytes pos 8 with
      | none => (pos, id, term)
      | some id' =>
          match readInt bytes (pos + 8) 8 with
          | none => (pos, id', term)
          | some term' =>
              match readInt bytes (pos + 16) 4 with
              | none => (pos, id', term')
              | some len =>
                  if id' = logId then (pos + 32 + len, id', term')
                  else rollbackLoop bytes logId fuel (pos + 32 + len) id' term'

variable (now : ℕ)

def rollbackInFile (logId : ℤ) (f : WalFile) : Option WalFile :=
  let bytes := f.file.bytes
  let (pos, id, term) := rollbackLoop bytes logId (bytes.length + 1) 0 0 0
  if id ≠ logId ∨ pos = 0 then none
  else if 0 < pos ∧ pos < bytes.length then
    some ⟨{ f.info with lastId := id, lastTerm := term, size := pos.toNat },
      ⟨bytes.take pos.toNat, now⟩⟩
  else some ⟨{ f.info with lastId := id, lastTerm := term }, f.file⟩

/-- The files `rollbackToLog` keeps: those before `walFiles_.upper_bound(id)`. -/
def keptFiles (id : ℤ) (files : List WalFile) : List WalFile :=
  files.takeWhile fun f => f.info.firstId ≤ id

/-- The files `rollbackToLog` removes. -/
def goneFiles (id : ℤ) (files : List WalFile) : List WalFile :=
  files.dropWhile fun f => f.info.firstId ≤ id

def rollbackToLog (id : ℤ) (w : FileBasedWal) : Option (FileBasedWal × Bool) :=
  if id < w.firstLogId - 1 ∨ w.lastLogId < id then some (w, false)
  else
    let w' := w.closeCurrFile now
    let kept := keptFiles id w'.walFiles
    match kept.getLast? with
    | none =>
        if id = w.firstLogId - 1 ∨ id = 0 then
          some ({ w' with walFiles := [], firstLogId := 0, lastLogId := 0, lastLogTerm := 0,
                          buffers := [] }, true)
        else none
    | some f =>
        (rollbackInFile now id f).map fun f' =>
          ({ w' with walFiles := kept.dropLast ++ [f'], lastLogId := id,
                     lastLogTerm := f'.info.lastTerm, buffers := [] }, true)

/-! ### The other operations -/

def reset (w : FileBasedWal) : FileBasedWal :=
  { w.closeCurrFile now with walFiles := [], buffers := [], lastLogId := 0, firstLogId := 0 }

/-- `linkCurrentWAL`; `linked` says the link can be made. -/
def linkCurrentWAL (linked : Bool) (w : FileBasedWal) : FileBasedWal × Bool :=
  (w.closeCurrFile now, if w.walFiles = [] then true else linked)

/-- The file is older than `walTTL`. -/
def expired (walTTL : ℤ) (f : WalFile) : Bool :=
  decide (walTTL < (now : ℤ) - f.info.mtime)

/-- The loop of `cleanWAL`, which skips the last file. -/
def cleanFiles (walTTL : ℤ) (files : List WalFile) : List WalFile :=
  files.dropLast.filter (fun f => !expired now walTTL f) ++ files.getLast?.toList

def cleanWAL (ttl : ℤ) (w : FileBasedWal) : FileBasedWal :=
  if w.walFiles = [] then w
  else
    let files := cleanFiles now (if ttl = 0 then w.policy.ttl else ttl) w.walFiles
    { w with walFiles := files,
             firstLogId := (files.head?.map fun f => f.info.firstId).getD 0 }

end FileBasedWal
end K2Graph.Wal
