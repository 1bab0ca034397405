import K2Graph.Kvstore.Commit
import K2Graph.Kvstore.Scan
import K2Graph.Raft.Lifecycle

/-!
# Snapshots of a partition

A leader that has no logs to send scans its engine and sends the rows in chunks.
`SnapshotManager::sendSnapshot` reads the last committed log first and scans afterwards;
only keys with the prefix of the partition's data are scanned.  The follower puts the rows
of a chunk into its engine and compares what it has counted with what the chunk says has
been sent; the chunk that is marked done makes it run again.

Nothing is sent when the scan cannot begin; this is left out.

## Main results

* `Leader.flatMap_chunks`, `Leader.counted_chunks` — the chunks are the rows, with the
  counts that go with them.
* `Leader.commitSnapshot_puts` — what a chunk does to the engine.
-/

namespace K2Graph.Kvstore

open List

/-! ### The sender -/

/-- `NebulaKeyUtils::snapshotPrefix`: everything for the meta partition, the data keys for
any other. -/
def snapshotPrefix (partId : Int32) : Bytes := if partId = 0 then [] else keyItem partId .data

/-- What the callback of `accessAllRowsInSnapshot` is given. -/
structure Chunk where
  rows : List Bytes
  totalCount : ℕ
  totalSize : ℕ
  done : Bool

/-- The loop of `accessAllRowsInSnapshot`, with the rows not sent yet and their size, and
what has been counted. -/
def accessRows (snapshotBatchSize : ℤ) :
    List Bytes → List Bytes → ℤ → ℕ → ℕ → List Chunk
  | [], data, _, totalCount, totalSize => [⟨data, totalCount, totalSize, true⟩]
  | row :: rows, data, batchSize, totalCount, totalSize =>
      if snapshotBatchSize ≤ batchSize then
        ⟨data, totalCount, totalSize, false⟩ ::
          accessRows snapshotBatchSize rows [row] (toInt row.length) (totalCount + 1)
            (totalSize + row.length)
      else
        accessRows snapshotBatchSize rows (data ++ [row]) (toInt (batchSize + row.length))
          (totalCount + 1) (totalSize + row.length)

def encodeRow (kv : Bytes × Bytes) : Bytes := encodeKV kv.1 kv.2

/-- `SnapshotManagerImpl::accessAllRowsInSnapshot`. -/
def accessAllRowsInSnapshot (snapshotBatchSize : ℤ) (partId : Int32) (e : Engine) : List Chunk :=
  accessRows snapshotBatchSize ((e.scan (snapshotPrefix partId)).map encodeRow) [] 0 0 0

/-- A leader that sends a snapshot: its engine when it reads the last committed log, and
when the scan begins.  rocksdb has no keys or values of `2 ^ 32` bytes. -/
structure Leader where
  part : Part
  addr : Raft.HostAddr
  term : ℕ
  snapshotBatchSize : ℤ
  atCommit : Engine
  atScan : Engine
  committed : Int64 × Int64
  committed_eq : part.lastCommittedLogId atCommit = some committed
  short : ∀ x ∈ atScan.entries, x.1.length < 2 ^ 32 ∧ x.2.length < 2 ^ 32

namespace Leader

variable (l : Leader)

def committedLogId : ℕ := l.committed.1.toNatClampNeg

def committedLogTerm : ℕ := l.committed.2.toNatClampNeg

def rows : List (Bytes × Bytes) := l.atScan.scan (snapshotPrefix l.part.partId)

def chunks : List Chunk :=
  accessAllRowsInSnapshot l.snapshotBatchSize l.part.partId l.atScan

/-- `SnapshotManager::send`. -/
def request (c : Chunk) : Raft.SendSnapshotRequest where
  term := l.term
  committedLogId := l.committedLogId
  committedLogTerm := l.committedLogTerm
  leader := l.addr
  rows := c.rows
  totalSize := c.totalSize
  totalCount := c.totalCount
  done := c.done

def Sends (k : Bytes) : Prop := ∃ v, (k, v) ∈ l.rows

end Leader

/-! ### The receiver -/

def decodeRow (row : Bytes) : Option WriteOp := do
  let kv ← decodeKV row
  return .put (← kv.1.read row) (← kv.2.read row)

/-- `Part::commitSnapshot`; what it counts is `RaftPart.commitSnapshot`. -/
def Part.commitSnapshot (p : Part) (engine : Engine) (rows : List Bytes)
    (committedLogId committedLogTerm : Int64) (finished engineOk : Bool) : Option Engine := do
  let puts ← rows.mapM decodeRow
  let batch := if finished then puts ++ [p.putCommitMsg committedLogId committedLogTerm] else puts
  return if engineOk then engine.write batch else engine

/-- `Part::cleanup`. -/
def Part.cleanup (p : Part) (engine : Engine) (engineOk : Bool) : Engine :=
  if engineOk then engine.write [p.putCommitMsg 0 0] else engine

/-- A partition that receives a snapshot. -/
structure Follower where
  part : Raft.RaftPart
  engine : Engine

/-- `processSendSnapshotRequest` does not refuse the request. -/
def receives (p : Raft.RaftPart) (req : Raft.SendSnapshotRequest) : Bool :=
  decide (p.status ≠ .stopped ∧ p.status ≠ .starting ∧ (p.role = .follower ∨ p.role = .learner) ∧
    p.leader = req.leader ∧ p.term = req.term)

namespace Follower

/-- `processSendSnapshotRequest` and what it does to the engine; `engineOk` is what the
engine says to writes. -/
def processSendSnapshotRequest (p : Part) (f : Follower) (req : Raft.SendSnapshotRequest)
    (engineOk : Bool) : Option (Follower × Raft.ErrorCode) :=
  let r := f.part.processSendSnapshotRequest req engineOk
  if receives f.part req then do
    let engine :=
      if f.part.status ≠ .waitingSnapshot then p.cleanup f.engine engineOk else f.engine
    let engine ← p.commitSnapshot engine req.rows (Int64.ofNat req.committedLogId)
      (Int64.ofNat req.committedLogTerm) req.done engineOk
    return (⟨r.1, engine⟩, r.2)
  else some (⟨r.1, f.engine⟩, r.2)

def cleanupSnapshot (p : Part) (f : Follower) : Follower :=
  ⟨f.part.cleanupSnapshot, p.cleanup f.engine true⟩

end Follower

/-! ### The chunks -/

/-- What the chunks count, after rows have been counted before; the last one is marked
done. -/
def Counted : ℕ → ℕ → List Chunk → Prop
  | _, _, [] => True
  | count, size, c :: cs => c.totalCount = count + c.rows.length ∧
      c.totalSize = size + (c.rows.map List.length).sum ∧ (c.done = true ↔ cs = []) ∧
      Counted c.totalCount c.totalSize cs

variable (limit : ℤ) (rows data : List Bytes) (batchSize : ℤ) (count size : ℕ)

theorem accessRows_ne_nil : accessRows limit rows data batchSize count size ≠ [] := by
  induction rows generalizing data batchSize count size with
  | nil => exact cons_ne_nil _ _
  | cons row rows ih =>
    rw [accessRows]
    split
    · exact cons_ne_nil _ _
    · exact ih _ _ _ _

theorem flatMap_accessRows :
    (accessRows limit rows data batchSize count size).flatMap Chunk.rows = data ++ rows := by
  induction rows generalizing data batchSize count size with
  | nil => simp [accessRows]
  | cons row rows ih =>
    rw [accessRows]
    split
    · rw [flatMap_cons, ih]
      rfl
    · rw [ih, append_assoc]
      rfl

theorem counted_accessRows :
    Counted count size (accessRows limit rows data batchSize (count + data.length)
      (size + (data.map List.length).sum)) := by
  induction rows generalizing data batchSize count size with
  | nil => exact ⟨rfl, rfl, by simp, trivial⟩
  | cons row rows ih =>
    rw [accessRows]
    split
    · -- the row is the first of the next chunk
      refine ⟨rfl, rfl, ?_, ?_⟩
      · simp [accessRows_ne_nil]
      · simpa using ih [row] (toInt row.length) (count + data.length)
          (size + (data.map length).sum)
    · have h := ih (data ++ [row]) (toInt (batchSize + row.length)) count size
      simpa [add_assoc] using h

theorem Leader.flatMap_chunks (l : Leader) :
    l.chunks.flatMap Chunk.rows = l.rows.map encodeRow := by
  rw [Leader.chunks, accessAllRowsInSnapshot, flatMap_accessRows]
  rfl

theorem Leader.counted_chunks (l : Leader) : Counted 0 0 l.chunks :=
  counted_accessRows l.snapshotBatchSize (l.rows.map encodeRow) [] 0 0 0

theorem Leader.chunks_ne_nil (l : Leader) : l.chunks ≠ [] := accessRows_ne_nil _ _ _ _ _ _

/-! ### The rows -/

variable {l : Leader}

theorem Leader.mem_rows :
    kv ∈ l.rows ↔ l.atScan.lookup kv.1 = some kv.2 ∧ snapshotPrefix l.part.partId <+: kv.1 :=
  Engine.mem_scan

theorem Leader.decodeRow_encode (h : kv ∈ l.rows) :
    decodeRow (encodeRow kv) = some (.put kv.1 kv.2) := by
  obtain ⟨hkey, hval⟩ := l.short ⟨kv.1, kv.2⟩ (AList.mem_lookup_iff.mp (Leader.mem_rows.mp h).1)
  obtain ⟨pieces, hdec, hk, hv⟩ := decodeKV_encode hkey hval
  rw [decodeRow, encodeRow, hdec]
  simp only [Option.bind_eq_bind, Option.bind_some, hk, hv]
  rfl

theorem Leader.exists_pairs (hc : c ∈ l.chunks) :
    ∃ kvs : List (Bytes × Bytes), c.rows = kvs.map encodeRow ∧ ∀ kv ∈ kvs, kv ∈ l.rows := by
  have hrows : ∀ row ∈ c.rows, ∃ kv ∈ l.rows, encodeRow kv = row := by
    intro row hrow
    have hmem : row ∈ l.chunks.flatMap Chunk.rows := mem_flatMap.mpr ⟨c, hc, hrow⟩
    rw [l.flatMap_chunks] at hmem
    exact mem_map.mp hmem
  generalize c.rows = rows at hrows
  induction rows with
  | nil => exact ⟨[], rfl, by simp⟩
  | cons row rows ih =>
    obtain ⟨kv, hkv, hrow⟩ := hrows row mem_cons_self
    obtain ⟨kvs, heq, hkvs⟩ := ih fun r hr => hrows r (mem_cons_of_mem _ hr)
    refine ⟨kv :: kvs, by rw [map_cons, hrow, heq], ?_⟩
    exact forall_mem_cons.mpr ⟨hkv, hkvs⟩

/-! ### What a chunk does -/

theorem Engine.lookup_write_puts {e r : Engine} {kvs : List (Bytes × Bytes)}
    (h : ∀ kv ∈ kvs, r.lookup kv.1 = some kv.2) (k : Bytes) :
    (∀ v, (k, v) ∉ kvs) ∧ (e.write (kvs.map fun kv => .put kv.1 kv.2)).lookup k = e.lookup k ∨
      (∃ v, (k, v) ∈ kvs) ∧
        (e.write (kvs.map fun kv => .put kv.1 kv.2)).lookup k = r.lookup k := by
  induction kvs generalizing e with
  | nil => exact .inl ⟨by simp, rfl⟩
  | cons kv kvs ih =>
    obtain ⟨key, v⟩ := kv
    obtain ⟨hkv, hkvs⟩ := forall_mem_cons.mp h
    rcases ih (e := e.apply (.put key v)) hkvs with ⟨hno, heq⟩ | ⟨⟨w, hw⟩, heq⟩
    · by_cases hk : key = k
      · subst hk
        refine .inr ⟨⟨v, mem_cons_self⟩, heq.trans ?_⟩
        rw [lookup_apply, hkv]
        exact if_pos rfl
      refine .inl ⟨fun w hw => ?_, heq.trans ?_⟩
      · rcases mem_cons.mp hw with hw | hw
        · exact hk (congrArg Prod.fst hw).symm
        · exact hno w hw
      · rw [lookup_apply]
        exact if_neg hk
    · exact .inr ⟨⟨w, mem_cons_of_mem _ hw⟩, heq⟩

def Leader.Carries (l : Leader) (c : Chunk) (k : Bytes) : Prop :=
  ∃ v, (k, v) ∈ l.rows ∧ encodeRow (k, v) ∈ c.rows

theorem Leader.exists_carries (h : l.Sends k) : ∃ c ∈ l.chunks, l.Carries c k := by
  obtain ⟨v, hv⟩ := h
  have hmem : encodeRow (k, v) ∈ l.chunks.flatMap Chunk.rows := by
    rw [l.flatMap_chunks]
    exact mem_map_of_mem hv
  obtain ⟨c, hc, hrow⟩ := mem_flatMap.mp hmem
  exact ⟨c, hc, v, hv, hrow⟩

/-- How a chunk changes what is under a key. -/
structure Leader.Puts (l : Leader) (c : Chunk) (engineOk : Bool) (engine engine' : Engine)
    (k : Bytes) : Prop where
  /-- A key the chunk has is written. -/
  carried : engineOk = true → l.Carries c k → engine'.lookup k = l.atScan.lookup k
  /-- A key no chunk has is not. -/
  notSent : ¬ l.Sends k → engine'.lookup k = engine.lookup k
  /-- Nothing is written but what was scanned. -/
  either : engine'.lookup k = engine.lookup k ∨ engine'.lookup k = l.atScan.lookup k

theorem Leader.commitSnapshot_puts (hc : c ∈ l.chunks) (engine : Engine) (id term : Int64)
    (finished engineOk : Bool) :
    ∃ engine', l.part.commitSnapshot engine c.rows id term finished engineOk = some engine' ∧
      ∀ k, k ≠ systemCommitKey l.part.partId → l.Puts c engineOk engine engine' k := by
  obtain ⟨kvs, hrows, hkvs⟩ := l.exists_pairs hc
  have hdec : c.rows.mapM decodeRow = some (kvs.map fun kv => .put kv.1 kv.2) := by
    rw [hrows]
    refine mapM_of_forall₂ ?_
    rw [forall₂_map_left_iff, forall₂_map_right_iff, forall₂_same]
    exact fun kv hkv => l.decodeRow_encode (hkvs kv hkv)
  rw [Part.commitSnapshot, hdec]
  refine ⟨_, rfl, fun k hk => ?_⟩
  cases engineOk with
  | false => exact ⟨fun h => absurd h (by decide), fun _ => rfl, .inl rfl⟩
  | true =>
    -- besides rows, only the record of the last committed log is written
    have hlook (batch : List WriteOp) : (engine.write (if finished then
        batch ++ [l.part.putCommitMsg id term] else batch)).lookup k =
          (engine.write batch).lookup k := by
      split
      · rw [Engine.write_append]
        refine (Engine.lookup_apply (engine.write batch) (l.part.putCommitMsg id term) k).trans ?_
        exact if_neg (Ne.symm hk)
      · rfl
    rcases Engine.lookup_write_puts
      (fun kv hkv => (Leader.mem_rows.mp (hkvs kv hkv)).1) k with ⟨hno, heq⟩ | ⟨⟨v, hv⟩, heq⟩
    · refine ⟨fun _ hcar => ?_, fun _ => (hlook _).trans heq, .inl ((hlook _).trans heq)⟩
      obtain ⟨v, hv, hrow⟩ := hcar
      rw [hrows] at hrow
      obtain ⟨kv, hkv, hrow⟩ := mem_map.mp hrow
      -- the pair is read back from the row
      have hdec := l.decodeRow_encode (hkvs kv hkv)
      rw [hrow, l.decodeRow_encode hv] at hdec
      cases hdec
      exact absurd hkv (hno _)
    · refine ⟨fun _ _ => (hlook _).trans heq, fun hno => ?_, .inr ((hlook _).trans heq)⟩
      exact absurd ⟨v, hkvs _ hv⟩ hno

end K2Graph.Kvstore
