import K2Graph.Wal.FileBasedWal

/-!
# `FileBasedWalIterator`

The iterator runs over a range of records.  It reads the older ones from the files
and the newer ones from the buffers: the constructor picks the buffers that reach
into the range, and as many files as are needed for what comes before them.
-/

namespace K2Graph.Wal

/-- `std::numeric_limits<LogID>::max()`. -/
def maxLogId : ℤ := 2 ^ 63 - 1

structure FileBasedWalIterator where
  lastId : ℤ
  currId : ℤ
  currTerm : ℤ := 0
  firstIdInBuffer : ℤ := maxLogId
  nextFirstId : ℤ := 0
  buffers : List InMemoryLogBuffer := []
  currIdx : ℤ := 0
  /-- `idRanges_` and `fds_`. -/
  files : List WalFile := []
  currPos : ℤ := 0
  currMsgLen : ℤ := 0

namespace FileBasedWalIterator

variable (it : FileBasedWalIterator)

def valid : Bool := decide (it.currId ≤ it.lastId)

/-- The iterator at its end. -/
def finish : FileBasedWalIterator := { it with currId := it.lastId + 1 }

/-- `getFirstIdInNextBuffer()`. -/
def firstIdInNextBuffer : List InMemoryLogBuffer → ℤ
  | [] => 0
  | [b] => b.lastLogId + 1
  | _ :: b :: _ => b.firstLogId

/-- `getFirstIdInNextFile()`. -/
def firstIdInNextFile : List WalFile → ℤ
  | [] => 0
  | [f] => f.info.lastId + 1
  | _ :: f :: _ => f.info.firstId

/-- `InMemoryLogBuffer::getTerm` and the like, which check the index. -/
def getLog (buffers : List InMemoryLogBuffer) (idx : ℤ) : Option (ℤ × ℤ × List UInt8) :=
  match buffers with
  | [] => none
  | b :: _ => if idx < 0 then none else b.logs[idx.toNat]?

/-! ### The constructor -/

/-- Picks the buffers that reach into the range, from the last one on, until one
starts no later than the range.  `firstId` is `firstIdInBuffer_` so far. -/
def pickBuffers (currId lastId : ℤ) :
    List InMemoryLogBuffer → List InMemoryLogBuffer → ℤ → List InMemoryLogBuffer × ℤ
  | [], picked, firstId => (picked, firstId)
  | b :: rest, picked, firstId =>
      if b.logs = [] then pickBuffers currId lastId rest picked firstId
      else
        let (picked', firstId') :=
          if b.firstLogId ≤ lastId then (b :: picked, b.firstLogId) else (picked, firstId)
        if firstId' ≤ currId then (picked', firstId')
        else pickBuffers currId lastId rest picked' firstId'

/-- Picks the files that start before the buffers, from the last one on, until one
starts no later than the range. -/
def pickFiles (currId firstIdInBuffer : ℤ) : List WalFile → List WalFile → List WalFile
  | [], picked => picked
  | f :: rest, picked =>
      if firstIdInBuffer ≤ f.info.firstId then pickFiles currId firstIdInBuffer rest picked
      else if f.info.firstId ≤ currId then f :: picked
      else pickFiles currId firstIdInBuffer rest (f :: picked)

/-- The position, the term and the length of the record with the given id.  The
process ends if the file has no such record. -/
def findLog (bytes : List UInt8) (currId : ℤ) : ℕ → ℤ → Option (ℤ × ℤ × ℤ)
  | 0, _ => none
  | fuel + 1, pos => do
      let logId ← readInt bytes pos 8
      let term ← readInt bytes (pos + 8) 8
      let len ← readInt bytes (pos + 16) 4
      if logId = currId then some (pos, term, len)
      else findLog bytes currId fuel (pos + 32 + len)

/-- The part of the constructor that starts in the files. -/
def createInFiles (w : FileBasedWal) (it : FileBasedWalIterator) : Option FileBasedWalIterator :=
  match pickFiles it.currId it.firstIdInBuffer w.walFiles.reverse [] with
  | [] => some it.finish
  | f :: files =>
      if it.currId < f.info.firstId then some { it.finish with files := f :: files }
      else if f.info.lastId < it.currId then none
      else
        (findLog f.file.bytes it.currId (f.file.bytes.length + 1) 0).map fun (pos, term, len) =>
          { it with files := f :: files, nextFirstId := firstIdInNextFile (f :: files),
                    currPos := pos, currTerm := term, currMsgLen := len }

def create (w : FileBasedWal) (startId lastId : ℤ) : Option FileBasedWalIterator :=
  let it : FileBasedWalIterator :=
    { lastId := if 0 ≤ lastId ∧ lastId ≤ w.lastLogId then lastId else w.lastLogId,
      currId := startId }
  if it.lastId < startId then some it
  else if startId < w.firstLogId then some it.finish
  else
    let (buffers, firstId) := pickBuffers startId it.lastId w.buffers.reverse [] maxLogId
    let it := { it with buffers := buffers, firstIdInBuffer := firstId }
    if firstId ≤ startId then
      (getLog buffers (startId - firstId)).map fun log =>
        { it with currIdx := startId - firstId, currTerm := log.1,
                  nextFirstId := firstIdInNextBuffer buffers }
    else createInFiles w it

/-! ### `operator++` -/

/-- The part of `operator++` that reads the head of the record in the first file. -/
def readHead : Option FileBasedWalIterator :=
  match it.files with
  | [] => none
  | f :: _ =>
      if f.info.lastId ≤ 0 then some it.finish
      else do
        let logId ← readInt f.file.bytes it.currPos 8
        if logId ≠ it.currId then none
        else
          let term ← readInt f.file.bytes (it.currPos + 8) 8
          let len ← readInt f.file.bytes (it.currPos + 16) 4
          some { it with currTerm := term, currMsgLen := len }

/-- The part of `operator++` that stays in the files. -/
def nextInFiles : Option FileBasedWalIterator :=
  if it.nextFirstId ≤ it.currId then
    match it.files.tail with
    | [] => if it.firstIdInBuffer = maxLogId then some { it with files := [] }.finish else none
    | f :: files =>
        if f.info.firstId ≠ it.currId then none
        else
          readHead { it with files := f :: files, nextFirstId := firstIdInNextFile (f :: files),
                             currPos := 0 }
  else readHead { it with currPos := it.currPos + 32 + it.currMsgLen }

/-- The part of `operator++` that starts to read the buffers. -/
def enterBuffers : Option FileBasedWalIterator :=
  if it.currId = it.firstIdInBuffer then
    if it.firstIdInBuffer < firstIdInNextBuffer it.buffers then
      some { it with nextFirstId := firstIdInNextBuffer it.buffers, currIdx := -1 }
    else none
  else some it

/-- The part of `operator++` that goes to the next record in the buffers. -/
def rollBuffers : Option FileBasedWalIterator :=
  if it.nextFirstId ≤ it.currId then
    match it.buffers.tail with
    | [] => none
    | b :: buffers =>
        if b.firstLogId ≠ it.currId then none
        else some { it with buffers := b :: buffers,
                            nextFirstId := firstIdInNextBuffer (b :: buffers), currIdx := 0 }
  else some { it with currIdx := it.currIdx + 1 }

/-- The part of `operator++` that reads the buffers. -/
def nextInBuffers : Option FileBasedWalIterator := do
  let it ← it.enterBuffers
  let it ← it.rollBuffers
  let log ← getLog it.buffers it.currIdx
  some { it with currTerm := log.1 }

/-- `operator++`. -/
def next : Option FileBasedWalIterator :=
  let it := { it with currId := it.currId + 1 }
  if it.currId < it.firstIdInBuffer then it.nextInFiles
  else if it.currId ≤ it.lastId then it.nextInBuffers
  else some it

/-! ### What is read -/

/-- `logSource()` and `logMsg()`. -/
def content : Option (ℤ × List UInt8) :=
  if it.firstIdInBuffer ≤ it.currId then
    (getLog it.buffers it.currIdx).map fun log => log.2
  else
    match it.files with
    | [] => none
    | f :: _ => do
        let cluster ← readInt f.file.bytes (it.currPos + 20) 8
        if it.currMsgLen < 0 then none
        else
          let msg ← readAt f.file.bytes (it.currPos + 28) it.currMsgLen.toNat
          some (cluster, msg)

/-- `logId()`, `logTerm()`, `logSource()` and `logMsg()`. -/
def record : Option Record :=
  it.content.map fun c => ⟨it.currId, it.currTerm, c.1, c.2⟩

/-- A loop over the iterator: what it reads, if it ends and no `CHECK` fails. -/
def collect : ℕ → FileBasedWalIterator → Option (List Record)
  | 0, it => if it.valid then none else some []
  | fuel + 1, it =>
      if it.valid then do
        let r ← it.record
        let it' ← it.next
        let rs ← collect fuel it'
        some (r :: rs)
      else some []

end FileBasedWalIterator

/-- What a loop over `iterator(firstLogId, lastLogId)` reads. -/
def FileBasedWal.entries (w : FileBasedWal) (firstLogId lastLogId : ℤ) : Option (List Record) :=
  match FileBasedWalIterator.create w firstLogId lastLogId with
  | none => none
  | some it => it.collect (it.lastId - firstLogId + 1).toNat

end K2Graph.Wal
