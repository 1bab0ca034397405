import K2Graph.Kvstore.LogEncoder
import K2Graph.Lib.Except

/-!
# Applying logs to the engine

`Part::commitLogs` decodes every log it is given, collects the writes of all of them in
one batch and puts the id and term of the last log at its end.  Cutting the log
differently into calls should make no difference, and neither should encoding: the engine
should hold what the operations leave there one after the other, and the record of the
last log.

This is so for everything but mixed batches with very long keys.  The decoder of mixed
batches has the offset to a value in an `int`; with a key of `2 ^ 31 - 8` bytes it is
negative, and the value is looked for before the beginning of the log.

## Main results

* `Part.decodeLog_encode` — an operation is read back as its writes.
* `Part.appliesInOrder_of_fits` — then logs are applied in order.
* `Part.not_appliesInOrder_longKey` — a log that is not.
* `Part.replay_converges` — applying logs again makes no difference.
-/

namespace K2Graph.Kvstore

open List LittleEndian WriteOp

/-! ### `Part::commitLogs` -/

/-- A log as `LogIterator` gives it. -/
structure LogEntry where
  id : Int64
  term : Int64
  msg : Bytes
  deriving DecidableEq

/-- What is carried out while logs are committed, besides the writes. -/
inductive Command where
  | commitTransLeader (target : HostAddr)
  | commitRemovePeer (peer : HostAddr)

/-- What `Part` has that does not change. -/
structure Part where
  partId : Int32
  startTimeMs : Int64

/-- The writes of `OP_MULTI_PUT`. -/
def putPairs (log : Bytes) : List StringPiece → Option (List WriteOp)
  | [] => some []
  | [_] => none
  | key :: value :: kvs => do
      let op := put (← key.read log) (← value.read log)
      return op :: (← putPairs log kvs)

/-- The write of one operation of `OP_BATCH_WRITE`; nothing is written for a type that is
not known. -/
def batchOp (log : Bytes) (op : UInt8 × StringPiece × StringPiece) : Option (List WriteOp) :=
  match BatchLogType.ofByte op.1 with
  | some .put => do return [.put (← op.2.1.read log) (← op.2.2.read log)]
  | some .remove => do return [.remove (← op.2.1.read log)]
  | some .removeRange => do return [.removeRange (← op.2.1.read log) (← op.2.2.read log)]
  | none => some []

namespace Part

variable (p : Part)

/-- What a log of the given type adds to the batch, and the command it is, if it is one
that is carried out here. -/
def decodeAs (log : Bytes) : LogType → Option (List WriteOp × List Command)
  | .put => do
      let pieces ← decodeMultiValues log
      return ([.put (← (← pieces[0]?).read log) (← (← pieces[1]?).read log)], [])
  | .multiPut => do return (← putPairs log (← decodeMultiValues log), [])
  | .remove => do return ([.remove (← (← decodeSingleValue log).read log)], [])
  | .multiRemove => do
      let keys ← (← decodeMultiValues log).mapM fun k => k.read log
      return (keys.map .remove, [])
  | .removeRange => do
      let range ← decodeMultiValues log
      return ([.removeRange (← (← range[0]?).read log) (← (← range[1]?).read log)], [])
  | .batchWrite => do
      let ops ← (← decodeBatchValue log).mapM (batchOp log)
      return (ops.flatten, [])
  | .addPeer => return ([], [])
  | .addLearner => return ([], [])
  | .transLeader => do
      let newLeader ← decodeHost .transLeader log
      let ts ← getTimestamp log
      return ([], if p.startTimeMs < ts then [.commitTransLeader newLeader] else [])
  | .removePeer => do
      let peer ← decodeHost .removePeer log
      let ts ← getTimestamp log
      return ([], if p.startTimeMs < ts then [.commitRemovePeer peer] else [])

/-- One log; that of a heartbeat is empty, and one of a type that is not known is passed
over. -/
def decodeLog (log : Bytes) : Option (List WriteOp × List Command) := do
  if log = [] then return ([], [])
  match LogType.ofByte (← log[8]?) with
  | some type => p.decodeAs log type
  | none => return ([], [])

/-- What has been collected by the loop of `commitLogs`. -/
structure Collected where
  batch : List WriteOp
  commands : List Command
  lastId : Int64
  lastTerm : Int64

def collect (c : Collected) (e : LogEntry) : Option Collected := do
  let (ops, commands) ← p.decodeLog e.msg
  return ⟨c.batch ++ ops, c.commands ++ commands, e.id, e.term⟩

variable (committedLogId committedLogTerm : Int64)

/-- The id and the term as they are written. -/
def commitMsg : Bytes :=
  ofInt 8 committedLogId.toInt ++ ofInt 8 committedLogTerm.toInt

def putCommitMsg : WriteOp :=
  .put (systemCommitKey p.partId) (commitMsg committedLogId committedLogTerm)

def commitLogs (engine : Engine) (logs : List LogEntry) :
    Option (Engine × List Command) := do
  let c ← logs.foldlM p.collect ⟨[], [], -1, -1⟩
  let batch := if 0 ≤ c.lastId then c.batch ++ [p.putCommitMsg c.lastId c.lastTerm] else c.batch
  return (engine.write batch, c.commands)

/-- Calls of `commitLogs`, one after the other. -/
def commitAll (p : Part) (engine : Engine) : List (List LogEntry) → Option (Engine × List Command)
  | [] => some (engine, [])
  | logs :: calls => do
      let (engine, commands) ← p.commitLogs engine logs
      let (engine, commands') ← p.commitAll engine calls
      return (engine, commands ++ commands')

/-- Fails where the `CHECK` of the size does. -/
def lastCommittedLogId (engine : Engine) : Option (Int64 × Int64) :=
  match engine.lookup (systemCommitKey p.partId) with
  | none => some (0, 0)
  | some val =>
      if val.length = 8 + 8 then do
        return (Int64.ofInt (← readInt val 0 8), Int64.ofInt (← readInt val 8 8))
      else none

end Part

/-! ### Operations -/

/-- What is asked of a partition.  `sync` is the command with an empty log, which is also
the log of a heartbeat. -/
inductive Operation where
  | put (key value : Bytes)
  | multiPut (kvs : List (Bytes × Bytes))
  | remove (key : Bytes)
  | multiRemove (keys : List Bytes)
  | removeRange (start stop : Bytes)
  | batch (ops : List WriteOp)
  | addLearner (learner : HostAddr)
  | transferLeader (target : HostAddr)
  | addPeer (peer : HostAddr)
  | removePeer (peer : HostAddr)
  | sync

/-- The operation as `BatchHolder` keeps it. -/
def WriteOp.held : WriteOp → BatchLogType × Bytes × Bytes
  | put key value => (.put, key, value)
  | remove key => (.remove, key, [])
  | removeRange start stop => (.removeRange, start, stop)

namespace Operation

/-- The log `Part` writes for the operation. -/
def encode (ts : Int64) : Operation → Bytes
  | put key value => encodeTwoValues ts .put key value
  | multiPut kvs => encodeMultiKVs ts .multiPut kvs
  | remove key => encodeSingleValue ts .remove key
  | multiRemove keys => encodeMultiValues ts .multiRemove keys
  | removeRange start stop => encodeTwoValues ts .removeRange start stop
  | batch ops => encodeBatchValue ts (ops.map held)
  | addLearner learner => encodeHost ts .addLearner learner
  | transferLeader target => encodeHost ts .transLeader target
  | addPeer peer => encodeHost ts .addPeer peer
  | removePeer peer => encodeHost ts .removePeer peer
  | sync => []

def writes : Operation → List WriteOp
  | put key value => [.put key value]
  | multiPut kvs => kvs.map fun kv => .put kv.1 kv.2
  | remove key => [.remove key]
  | multiRemove keys => keys.map .remove
  | removeRange start stop => [.removeRange start stop]
  | batch ops => ops
  | _ => []

/-- The command that is carried out when the operation is committed. -/
def commands (p : Part) (ts : Int64) : Operation → List Command
  | transferLeader target => if p.startTimeMs < ts then [.commitTransLeader target] else []
  | removePeer peer => if p.startTimeMs < ts then [.commitRemovePeer peer] else []
  | _ => []

/-- The keys and values of the operation. -/
def strings : Operation → List Bytes
  | put key value => [key, value]
  | multiPut kvs => kvs.flatMap fun kv => [kv.1, kv.2]
  | remove key => [key]
  | multiRemove keys => keys
  | removeRange start stop => [start, stop]
  | batch ops => ops.flatMap fun op => [op.held.2.1, op.held.2.2]
  | _ => []

/-- The keys and values are shorter than `2 ^ 32` bytes. -/
def Short (op : Operation) : Prop := ∀ v ∈ op.strings, v.length < 2 ^ 32

instance (op : Operation) : Decidable op.Short :=
  inferInstanceAs (Decidable (∀ v ∈ op.strings, v.length < 2 ^ 32))

/-- The number of strings fits where it is written, and so do the offsets of a mixed
batch. -/
def Fits : Operation → Prop
  | multiPut kvs => 2 * kvs.length < 2 ^ 32
  | multiRemove keys => keys.length < 2 ^ 32
  | batch ops => ops.length < 2 ^ 32 ∧ OffsetsFit (ops.map held)
  | _ => True

instance : (op : Operation) → Decidable op.Fits
  | multiPut kvs => inferInstanceAs (Decidable (2 * kvs.length < 2 ^ 32))
  | multiRemove keys => inferInstanceAs (Decidable (keys.length < 2 ^ 32))
  | batch ops => inferInstanceAs (Decidable (ops.length < 2 ^ 32 ∧ OffsetsFit (ops.map held)))
  | put .. | remove _ | removeRange .. | addLearner _ | transferLeader _ | addPeer _
  | removePeer _ | sync => .isTrue trivial

end Operation

/-- An operation with its place in the log, and the time at which it was encoded. -/
structure Record where
  id : Int64
  term : Int64
  ts : Int64
  op : Operation
  id_nonneg : 0 ≤ id

def Record.encode (r : Record) : LogEntry := ⟨r.id, r.term, r.op.encode r.ts⟩

namespace Part

/-- The operations one by one, and the record of the last log. -/
def expected (p : Part) (engine : Engine) (log : List Record) : Engine :=
  let sequential := log.foldl (fun e r => e.write r.op.writes) engine
  match log.getLast? with
  | some r => sequential.insert (systemCommitKey p.partId) (commitMsg r.id r.term)
  | none => sequential

/-- However the log is cut into calls of `commitLogs`, the engine holds afterwards what
the operations one by one leave there, and the id and term of the last log. -/
def AppliesInOrder (p : Part) (log : List Record) : Prop :=
  ∀ engine calls, calls.flatten = log.map Record.encode →
    ∃ engine' commands, p.commitAll engine calls = some (engine', commands) ∧
      (∀ k, engine'.lookup k = (p.expected engine log).lookup k) ∧
      ∀ r, log.getLast? = some r → p.lastCommittedLogId engine' = some (r.id, r.term)

/-! ### One log -/

theorem putPairs_of_reads {kvs : List (Bytes × Bytes)}
    (h : List.Forall₂ (fun piece v => StringPiece.read piece log = some v) pieces
      (kvs.flatMap fun kv => [kv.1, kv.2])) :
    putPairs log pieces = some (kvs.map fun kv => .put kv.1 kv.2) := by
  induction kvs generalizing pieces with
  | nil =>
    cases h
    rfl
  | cons kv kvs ih =>
    cases h with
    | cons hk h =>
      cases h with
      | cons hv h => rw [putPairs, hk, hv, ih h]; rfl

theorem batchOp_held (h : DecodedAs log item op.held) : batchOp log item = some [op] := by
  obtain ⟨htype, hkey, hvalue⟩ := h
  rw [batchOp, htype]
  cases op with
  | put key value | removeRange start stop =>
    simp only [held] at hkey hvalue ⊢; rw [hkey, hvalue]; rfl
  | remove key => simp only [held] at hkey ⊢; rw [hkey]; rfl

variable {p : Part}

theorem decodeLog_eq (h : log[8]? = some type.toByte) : p.decodeLog log = p.decodeAs log type := by
  have hne : log ≠ [] := by
    rintro rfl
    cases h
  rw [decodeLog, if_neg hne, h]
  simp

theorem decodeMultiValues_two (ts : Int64) (type : LogType)
    (h : ∀ v ∈ [v1, v2], v.length < 2 ^ 32) :
    ∃ a b, decodeMultiValues (encodeTwoValues ts type v1 v2) = some [a, b] ∧
      a.read (encodeTwoValues ts type v1 v2) = some v1 ∧
      b.read (encodeTwoValues ts type v1 v2) = some v2 := by
  rw [encodeTwoValues_eq]
  obtain ⟨pieces, hdec, hread⟩ :=
    decodeMultiValues_encode ts type (by simp) h
  obtain _ | ⟨ha, _ | ⟨hb, _ | _⟩⟩ := hread
  exact ⟨_, _, hdec, ha, hb⟩

end Part

namespace Operation

def type : Operation → Option LogType
  | put .. => some .put
  | multiPut _ => some .multiPut
  | remove _ => some .remove
  | multiRemove _ => some .multiRemove
  | removeRange .. => some .removeRange
  | batch _ => some .batchWrite
  | addLearner _ => some .addLearner
  | transferLeader _ => some .transLeader
  | addPeer _ => some .addPeer
  | removePeer _ => some .removePeer
  | sync => none

theorem getElem?_encode {op : Operation} {type : LogType} (ts : Int64) (h : op.type = some type) :
    (op.encode ts)[8]? = some type.toByte := by
  cases op with
  | put key value => cases h; exact getElem?_encodeHead ts .put 2 _
  | multiPut kvs => cases h; exact getElem?_encodeHead ts .multiPut _ _
  | remove key => cases h; exact getElem?_encodeHead ts .remove _ _
  | multiRemove keys => cases h; exact getElem?_encodeHead ts .multiRemove _ _
  | removeRange start stop => cases h; exact getElem?_encodeHead ts .removeRange 2 _
  | batch ops => cases h; exact getElem?_encodeHead ts .batchWrite _ _
  | addLearner learner => cases h; exact getElem?_encodeHost ts .addLearner learner
  | transferLeader target => cases h; exact getElem?_encodeHost ts .transLeader target
  | addPeer peer => cases h; exact getElem?_encodeHost ts .addPeer peer
  | removePeer peer => cases h; exact getElem?_encodeHost ts .removePeer peer
  | sync => cases h

end Operation

namespace Part

variable {p : Part}

/-- **An operation is read back** as its writes and its command. -/
theorem decodeLog_encode (p : Part) (ts : Int64) {op : Operation} (hshort : op.Short)
    (hfits : op.Fits) : p.decodeLog (op.encode ts) = some (op.writes, op.commands p ts) := by
  cases htype : op.type with
  | none =>
    cases op with
    | sync => rfl
    | _ => cases htype
  | some type =>
  rw [decodeLog_eq (Operation.getElem?_encode ts htype)]
  cases op with
  | put key value =>
    cases htype
    obtain ⟨a, b, hdec, ha, hb⟩ := decodeMultiValues_two ts .put hshort
    rw [Operation.encode, decodeAs, hdec]
    simp only [Option.bind_eq_bind, Option.bind_some, getElem?_cons_zero,
      getElem?_cons_succ, ha, hb]
    rfl
  | multiPut kvs =>
    cases htype
    have hnum : (kvs.flatMap fun kv => [kv.1, kv.2]).length < 2 ^ 32 := by
      have hfits : 2 * kvs.length < 2 ^ 32 := hfits
      simpa [mul_comm] using hfits
    obtain ⟨pieces, hdec, hread⟩ := decodeMultiValues_encode ts .multiPut hnum hshort
    rw [Operation.encode, encodeMultiKVs_eq, decodeAs, hdec]
    simp only [Option.bind_eq_bind, Option.bind_some, putPairs_of_reads hread]
    rfl
  | remove key =>
    cases htype
    obtain ⟨piece, hdec, hread⟩ :=
      decodeSingleValue_encode ts .remove (hshort key mem_cons_self)
    rw [Operation.encode, decodeAs, hdec]
    simp only [Option.bind_eq_bind, Option.bind_some, hread]
    rfl
  | multiRemove keys =>
    cases htype
    obtain ⟨pieces, hdec, hread⟩ := decodeMultiValues_encode ts .multiRemove hfits hshort
    rw [Operation.encode, decodeAs, hdec]
    simp only [Option.bind_eq_bind, Option.bind_some, mapM_of_forall₂ hread]
    rfl
  | removeRange start stop =>
    cases htype
    obtain ⟨a, b, hdec, ha, hb⟩ := decodeMultiValues_two ts .removeRange hshort
    rw [Operation.encode, decodeAs, hdec]
    simp only [Option.bind_eq_bind, Option.bind_some, getElem?_cons_zero,
      getElem?_cons_succ, ha, hb]
    rfl
  | batch ops =>
    cases htype
    obtain ⟨hnum, hoff⟩ := hfits
    obtain ⟨items, hdec, hread⟩ := decodeBatchValue_encode ts
      (by rw [length_map]; exact hnum) hoff (fun held hheld => by
        obtain ⟨op, hop, rfl⟩ := mem_map.mp hheld
        exact hshort _ (mem_flatMap.mpr ⟨op, hop, by simp⟩))
    have hops : items.mapM (batchOp (encodeBatchValue ts (ops.map held))) =
        some (ops.map fun op => [op]) := by
      refine mapM_of_forall₂ (forall₂_map_right_iff.mpr ?_)
      exact (forall₂_map_right_iff.mp hread).imp fun item op h => batchOp_held h
    rw [Operation.encode, decodeAs, hdec]
    simp only [Option.bind_eq_bind, Option.bind_some, hops]
    rw [← flatMap_def, flatMap_singleton']
    rfl
  | addLearner learner | addPeer peer => cases htype; rfl
  | transferLeader target | removePeer peer =>
    cases htype
    rw [Operation.encode, decodeAs, decodeHost_encode, getTimestamp_encodeHost]
    rfl
  | sync => cases htype

/-! ### A call -/

theorem foldl_write (engine : Engine) (log : List Record) :
    log.foldl (fun e r => e.write r.op.writes) engine =
      engine.write (log.flatMap fun r => r.op.writes) := by
  induction log generalizing engine with
  | nil => rfl
  | cons r log ih => rw [foldl_cons, ih, flatMap_cons, Engine.write_append]

theorem foldlM_collect (logs : List LogEntry) (c : Collected) :
    logs.foldlM p.collect c = (logs.mapM fun e => p.decodeLog e.msg).map fun ds =>
      ⟨c.batch ++ ds.flatMap Prod.fst, c.commands ++ ds.flatMap Prod.snd,
        (logs.getLast?.map LogEntry.id).getD c.lastId,
        (logs.getLast?.map LogEntry.term).getD c.lastTerm⟩ := by
  induction logs generalizing c with
  | nil => simp
  | cons e logs ih =>
    rw [foldlM_cons, mapM_cons, collect]
    cases p.decodeLog e.msg with
    | none => rfl
    | some d =>
      simp only [ih]
      cases logs.mapM fun e => p.decodeLog e.msg with
      | none => rfl
      | some ds => cases hlast : logs.getLast? <;> simp [getLast?_cons, hlast]

/-- What a key holds after logs with these writes: of all the records, the last one is
left. -/
def held (p : Part) (logs : List LogEntry) (ops : List WriteOp) (k : Bytes)
    (before : Option Bytes) : Option Bytes :=
  if k = systemCommitKey p.partId then
    (logs.getLast?.map fun e => commitMsg e.id e.term).or before
  else ops.foldl (fun held op => op.onKey k held) before

theorem held_append (logs logs' : List LogEntry) (ops ops' : List WriteOp) (k : Bytes)
    (before : Option Bytes) :
    p.held (logs ++ logs') (ops ++ ops') k before =
      p.held logs' ops' k (p.held logs ops k before) := by
  unfold held
  by_cases hk : k = systemCommitKey p.partId
  · rw [if_pos hk, if_pos hk, if_pos hk, getLast?_append, Option.map_or, Option.or_assoc]
  · rw [if_neg hk, if_neg hk, if_neg hk, foldl_append]

theorem map_lookup_commitLogs (hids : ∀ e ∈ logs, 0 ≤ e.id) (engine : Engine) :
    (p.commitLogs engine logs).map (fun r k => r.1.lookup k) =
      (logs.mapM fun e => p.decodeLog e.msg).map fun ds k =>
        p.held logs (ds.flatMap Prod.fst) k (engine.lookup k) := by
  rw [commitLogs, foldlM_collect]
  cases hds : logs.mapM fun e => p.decodeLog e.msg with
  | none => rfl
  | some ds =>
    simp only [Option.map_some, Option.bind_eq_bind, Option.bind_some,
      Option.pure_def, Option.some.injEq]
    funext k
    cases hlast : logs.getLast? with
    | none =>
      -- `lastId` is still -1
      rw [getLast?_eq_none_iff.mp hlast] at hds
      cases hds
      simp [held, hlast, Engine.write]
    | some e =>
      rw [Option.map_some, Option.getD_some, if_pos (hids e (mem_of_getLast? hlast)),
        Engine.lookup_write, held, hlast]
      by_cases hk : k = systemCommitKey p.partId
      · simp [putCommitMsg, onKey, hk]
      · simp [putCommitMsg, onKey, hk, Ne.symm hk]

/-! ### Calls one after the other -/

variable {calls : List (List LogEntry)}

/-- **Calls one after the other** leave what one call with all the logs does. -/
theorem map_lookup_commitAll (hids : ∀ e ∈ calls.flatten, 0 ≤ e.id) (engine : Engine) :
    (p.commitAll engine calls).map (fun r k => r.1.lookup k) =
      (calls.flatten.mapM fun e => p.decodeLog e.msg).map fun ds k =>
        p.held calls.flatten (ds.flatMap Prod.fst) k (engine.lookup k) := by
  induction calls generalizing engine with
  | nil => simp [commitAll, held]
  | cons logs calls ih =>
    rw [flatten_cons, forall_mem_append] at hids
    have hcall := map_lookup_commitLogs (p := p) hids.1 engine
    rw [flatten_cons, mapM_append, commitAll]
    cases hds : logs.mapM fun e => p.decodeLog e.msg with
    | none =>
      rw [hds, Option.map_none, Option.map_eq_none_iff] at hcall
      rw [hcall]
      rfl
    | some ds =>
      rw [hds, Option.map_some, Option.map_eq_some_iff] at hcall
      obtain ⟨⟨engine', commands⟩, hcall, hlookup⟩ := hcall
      have hrest := ih hids.2 engine'
      rw [hcall]
      simp only [Option.bind_eq_bind, Option.bind_some, Option.pure_def]
      cases hds' : calls.flatten.mapM fun e => p.decodeLog e.msg with
      | none =>
        rw [hds', Option.map_none, Option.map_eq_none_iff] at hrest
        rw [hrest]
        rfl
      | some ds' =>
        rw [hds', Option.map_some, Option.map_eq_some_iff] at hrest
        obtain ⟨r, hrest, hlookup'⟩ := hrest
        rw [hrest]
        simp only [Option.bind_some, Option.map_some, Option.some.injEq] at hlookup' ⊢
        rw [hlookup']
        funext k
        rw [flatMap_append, held_append, ← congrFun hlookup k]

theorem lookup_expected (engine : Engine) (log : List Record) (k : Bytes) :
    (p.expected engine log).lookup k =
      p.held (log.map Record.encode) (log.flatMap fun r => r.op.writes) k
        (engine.lookup k) := by
  rw [expected, foldl_write, held, getLast?_map]
  cases hlast : log.getLast? with
  | none =>
    rw [getLast?_eq_none_iff.mp hlast]
    exact (ite_self _).symm
  | some r =>
    by_cases hk : k = systemCommitKey p.partId
    · subst hk
      rw [if_pos rfl, AList.lookup_insert]
      rfl
    · rw [if_neg hk, AList.lookup_insert_ne hk, Engine.lookup_write]

theorem mapM_decodeLog_encode {log : List Record} (hshort : ∀ r ∈ log, r.op.Short)
    (hfits : ∀ r ∈ log, r.op.Fits) :
    ((log.map Record.encode).mapM fun e => p.decodeLog e.msg) =
      some (log.map fun r => (r.op.writes, r.op.commands p r.ts)) := by
  refine mapM_of_forall₂ (forall₂_map_left_iff.mpr (forall₂_map_right_iff.mpr ?_))
  exact forall₂_same.mpr fun r hr => decodeLog_encode p r.ts (hshort r hr) (hfits r hr)

theorem commitAll_encode (hshort : ∀ r ∈ log, r.op.Short) (hfits : ∀ r ∈ log, r.op.Fits)
    (hcalls : calls.flatten = log.map Record.encode) (engine : Engine) :
    ∃ engine' commands, p.commitAll engine calls = some (engine', commands) ∧
      ∀ k, engine'.lookup k = (p.expected engine log).lookup k := by
  have hids : ∀ e ∈ calls.flatten, 0 ≤ e.id := by
    rw [hcalls, forall_mem_map]
    exact fun r _ => r.id_nonneg
  have hall := map_lookup_commitAll (p := p) hids engine
  rw [hcalls, mapM_decodeLog_encode hshort hfits, Option.map_some, Option.map_eq_some_iff] at hall
  obtain ⟨⟨engine', commands⟩, hall, hlookup⟩ := hall
  refine ⟨engine', commands, hall, fun k => ?_⟩
  have hwrites : (log.flatMap fun r => r.op.writes) =
      (log.map fun r => (r.op.writes, r.op.commands p r.ts)).flatMap Prod.fst := by
    rw [flatMap_map]
  rw [lookup_expected, hwrites]
  exact congrFun hlookup k

theorem lastCommittedLogId_of_lookup {id : Int64}
    (h : engine.lookup (systemCommitKey p.partId) = some (commitMsg id term)) :
    p.lastCommittedLogId engine = some (id, term) := by
  have hlen : (commitMsg id term).length = 8 + 8 := by simp [commitMsg]
  have hid : readInt (commitMsg id term) 0 8 = some id.toInt := by
    refine readInt_of_eq [] (fits_int64 _) ⟨ofInt 8 term.toInt, ?_⟩ rfl
    rw [commitMsg, nil_append]
  have hterm : readInt (commitMsg id term) 8 8 = some term.toInt := by
    refine readInt_of_eq (ofInt 8 id.toInt) (fits_int64 _) ⟨[], ?_⟩ (by simp)
    rw [commitMsg, append_nil]
  simp [lastCommittedLogId, h, hlen, hid, hterm]

/-- **Where every operation fits, logs are applied in order.** -/
theorem appliesInOrder_of_fits (p : Part) (log : List Record) (hshort : ∀ r ∈ log, r.op.Short)
    (hfits : ∀ r ∈ log, r.op.Fits) : p.AppliesInOrder log := by
  intro engine calls hcalls
  obtain ⟨engine', commands, hall, hlookup⟩ := commitAll_encode hshort hfits hcalls engine
  refine ⟨engine', commands, hall, hlookup, fun r hr => ?_⟩
  refine lastCommittedLogId_of_lookup ?_
  rw [hlookup, lookup_expected, held, if_pos rfl, getLast?_map, hr]
  rfl

/-- A log with a mixed batch, a transfer of leadership and a heartbeat in it. -/
def sampleLog : List Record :=
  [⟨1, 1, 10, .multiPut [([1], [2]), ([3], [4])], by decide⟩,
    ⟨2, 1, 11, .batch [.put [5] [6], .remove [1], .removeRange [3] [4]], by decide⟩,
    ⟨3, 2, 12, .transferLeader ⟨1, 2⟩, by decide⟩, ⟨4, 2, 13, .sync, by decide⟩]

theorem appliesInOrder_sampleLog : (⟨1, 0⟩ : Part).AppliesInOrder sampleLog :=
  appliesInOrder_of_fits ⟨1, 0⟩ sampleLog (by decide +kernel) (by decide +kernel)

/-! ### Applying logs again -/

theorem foldl_onKey_cases (ops : List WriteOp) (k : Bytes) :
    (∀ before, ops.foldl (fun held op => op.onKey k held) before = before) ∨
      ∃ after, ∀ before, ops.foldl (fun held op => op.onKey k held) before = after := by
  induction ops with
  | nil => exact .inl fun _ => rfl
  | cons op ops ih =>
    rcases ih with hkeeps | ⟨after, hafter⟩
    · -- then `op` decides
      simp only [foldl_cons, hkeeps]
      cases op with
      | put key value | remove key => by_cases hkey : key = k <;> simp [onKey, hkey]
      | removeRange start stop =>
        by_cases hkey : inRange start stop k = true <;> simp [onKey, hkey]
    · exact .inr ⟨after, fun before => hafter _⟩

/-- Logs that have been applied already make no difference when the logs after them are
applied too. -/
theorem held_again (first again last : List LogEntry) (ops ops' ops'' : List WriteOp)
    (k : Bytes) (before : Option Bytes) :
    p.held (again ++ last) (ops' ++ ops'') k (p.held (first ++ again) (ops ++ ops') k before) =
      p.held (first ++ again ++ last) (ops ++ ops' ++ ops'') k before := by
  simp only [held_append]
  unfold held
  by_cases hk : k = systemCommitKey p.partId
  · simp [if_pos hk, ← Option.or_assoc]
  simp only [if_neg hk]
  rcases foldl_onKey_cases ops' k with hkeeps | ⟨after, hafter⟩
  · rw [hkeeps]
  · rw [hafter, hafter]

/-- **Replay converges**: the logs after the `a`-th on top of the first `b` of them leave
what all of them leave, however each of the three is cut into calls.  Where all the logs
are of operations that fit, there is no log that cannot be decoded. -/
theorem replay_converges (p : Part) (engine : Engine) (logs : List LogEntry)
    (hids : ∀ e ∈ logs, 0 ≤ e.id) (a b : ℕ) (hab : a ≤ b)
    (once first again : List (List LogEntry)) (honce : once.flatten = logs)
    (hfirst : first.flatten = logs.take b) (hagain : again.flatten = logs.drop a) :
    ((p.commitAll engine first).bind fun r => p.commitAll r.1 again).map
        (fun r k => r.1.lookup k) = (p.commitAll engine once).map (fun r k => r.1.lookup k) ∧
      ∀ log : List Record, logs = log.map Record.encode → (∀ r ∈ log, r.op.Short) →
        (∀ r ∈ log, r.op.Fits) → (p.commitAll engine once).isSome := by
  constructor
  · -- the logs in three parts, of which the second is applied twice
    obtain ⟨as, bs, cs, rfl, htake, hdrop⟩ : ∃ as bs cs, logs = as ++ bs ++ cs ∧
        logs.take b = as ++ bs ∧ logs.drop a = bs ++ cs := by
      refine ⟨logs.take a, (logs.drop a).take (b - a), logs.drop b, ?_, ?_, ?_⟩
      · rw [← take_add, Nat.add_sub_cancel' hab, take_append_drop]
      · rw [← take_add, Nat.add_sub_cancel' hab]
      · rw [← Nat.add_sub_cancel' hab, ← drop_drop, Nat.add_sub_cancel_left, take_append_drop]
    rw [htake] at hfirst
    rw [hdrop] at hagain
    simp only [forall_mem_append] at hids
    have hids₁ : ∀ e ∈ first.flatten, 0 ≤ e.id := by
      rw [hfirst, forall_mem_append]
      exact hids.1
    have hids₂ : ∀ e ∈ again.flatten, 0 ≤ e.id := by
      rw [hagain, forall_mem_append]
      exact ⟨hids.1.2, hids.2⟩
    have hids₃ : ∀ e ∈ once.flatten, 0 ≤ e.id := by
      simp only [honce, forall_mem_append]
      exact hids
    have h₁ := map_lookup_commitAll (p := p) hids₁ engine
    rw [map_lookup_commitAll hids₃, honce]
    rw [hfirst] at h₁
    simp only [mapM_append] at h₁ ⊢
    cases has : as.mapM fun e => p.decodeLog e.msg with
    | none =>
      rw [has] at h₁
      rw [Option.map_eq_none_iff.mp h₁]
      rfl
    | some ops =>
      cases hbs : bs.mapM fun e => p.decodeLog e.msg with
      | none =>
        rw [has, hbs] at h₁
        rw [Option.map_eq_none_iff.mp h₁]
        rfl
      | some ops' =>
        rw [has, hbs] at h₁
        obtain ⟨⟨engine', commands⟩, h₁, hlookup⟩ := Option.map_eq_some_iff.mp h₁
        rw [h₁, Option.bind_some, map_lookup_commitAll hids₂, hagain, mapM_append, hbs]
        cases cs.mapM fun e => p.decodeLog e.msg with
        | none => rfl
        | some ops'' =>
          simp only [Option.bind_eq_bind, Option.bind_some, Option.pure_def, Option.map_some,
            Option.some.injEq]
          funext k
          have hkey : engine'.lookup k = p.held (as ++ bs) ((ops ++ ops').flatMap Prod.fst) k
              (engine.lookup k) := congrFun hlookup k
          rw [hkey]
          simp only [flatMap_append]
          exact held_again as bs cs _ _ _ k _
  · intro log hlog hshort hfits
    obtain ⟨engine', commands, hall, -⟩ :=
      commitAll_encode hshort hfits (honce.trans hlog) engine
    rw [hall]
    rfl

/-- All of the sample log after its first two logs, which are applied in two calls. -/
theorem replay_converges_sampleLog :
    let logs := sampleLog.map Record.encode
    (((⟨1, 0⟩ : Part).commitAll ∅ [logs.take 1, (logs.drop 1).take 1]).bind fun r =>
        (⟨1, 0⟩ : Part).commitAll r.1 [logs]).map (fun r k => r.1.lookup k) =
      ((⟨1, 0⟩ : Part).commitAll ∅ [logs]).map (fun r k => r.1.lookup k) :=
  (replay_converges ⟨1, 0⟩ ∅ (sampleLog.map Record.encode) (by decide) 0 2 (by decide)
    [sampleLog.map Record.encode] _ [sampleLog.map Record.encode]
    (by decide +kernel) (by decide +kernel) (by decide +kernel)).1

/-! ### Long keys -/

/-- In a mixed batch that puts a value under a key of `2 ^ 31 - 8` bytes, the offset of
the value is `INT_MIN`. -/
theorem decodeLog_longKey (p : Part) (ts : Int64) (key val : Bytes)
    (hkey : key.length = 2 ^ 31 - 8) (hval : val.length < 2 ^ 32) :
    p.decodeLog ((Operation.batch [.put key val]).encode ts) = none := by
  have htype : (Operation.batch [.put key val]).type = some .batchWrite := rfl
  rw [decodeLog_eq (Operation.getElem?_encode ts htype), decodeAs]
  have hdata : (Operation.batch [.put key val]).encode ts =
      encodeHead ts .batchWrite 1 ++ (encodeBatchOp (.put, key, val) ++ []) := by
    simp [Operation.encode, encodeBatchValue, WriteOp.held]
  obtain ⟨htype, hlen1, hlen2, hkr, -⟩ := reads_encodeBatchOp (by omega) hval hdata
  have hoff1 : toInt (4 + (key.length : ℤ)) = 4 + key.length := by
    rw [hkey]
    decide
  have hoff2 : toInt (4 + (key.length : ℤ) + 4) = -2 ^ 31 := by
    rw [hkey]
    decide
  have hdec : decodeBatchValue ((Operation.batch [.put key val]).encode ts) =
      some [(BatchLogType.put.toByte, ⟨13 + 1 + 4, key.length⟩,
        ⟨13 + 1 + -2 ^ 31, val.length⟩)] := by
    have hnum : readNat ((Operation.batch [.put key val]).encode ts) (8 + 1) 4 = some 1 := by
      rw [hdata]
      exact readNat_encodeHead ts .batchWrite _ (by decide)
    rw [decodeBatchValue, hnum]
    refine (decodeOps_succ 0 htype hlen1 (by rw [hoff1]; exact hlen2)).trans ?_
    rw [hoff1, hoff2]
    rfl
  -- nothing is there to be read
  have hval : StringPiece.read ⟨13 + 1 + -2 ^ 31, val.length⟩
      ((Operation.batch [.put key val]).encode ts) = none := by
    have hneg : ¬ (0 : ℤ) ≤ 13 + 1 + -2 ^ 31 := by decide
    rw [StringPiece.read, readAt, if_neg (fun h => hneg h.1)]
  rw [hdec]
  simp only [Option.bind_eq_bind, Option.bind_some, mapM_cons, batchOp,
    BatchLogType.ofByte_toByte]
  cases StringPiece.read ⟨13 + 1 + 4, key.length⟩ ((Operation.batch [.put key val]).encode ts) with
  | none => rfl
  | some k => rfl

/-- A log with a key of `2 ^ 31 - 8` bytes in a mixed batch. -/
def longKeyLog : List Record :=
  [⟨1, 1, 10, .batch [.put (List.replicate (2 ^ 31 - 8) 0) [7]], by decide⟩]

/-- **Logs are not always applied in order**: the value of a long key is looked for before
the log. -/
theorem not_appliesInOrder_longKey :
    (∀ r ∈ longKeyLog, r.op.Short) ∧ ¬ (⟨1, 0⟩ : Part).AppliesInOrder longKeyLog := by
  constructor
  · intro r hr
    rw [longKeyLog, mem_singleton] at hr
    rw [hr]
    intro v hv
    simp only [Operation.strings, WriteOp.held, flatMap_cons, flatMap_nil,
      append_nil, mem_cons, not_mem_nil, or_false] at hv
    rcases hv with rfl | rfl
    · rw [length_replicate]
      decide
    · decide
  · intro h
    obtain ⟨engine', commands, hall, -⟩ :=
      h ∅ [longKeyLog.map Record.encode] (by rw [flatten_singleton])
    have hnone := decodeLog_longKey ⟨1, 0⟩ 10 (replicate (2 ^ 31 - 8) 0) [7]
      length_replicate (by decide)
    rw [commitAll, commitLogs, longKeyLog, map_singleton, foldlM_cons, collect,
      Record.encode] at hall
    rw [hnone] at hall
    cases hall

end Part
end K2Graph.Kvstore
