import K2Graph.Lib.Bytes
import K2Graph.Lib.Writes

/-!
# The engine of a partition

`RocksEngine` holds keys and values, which are byte strings, in the order of the keys'
bytes.  It is written in batches: a batch is a list of operations, applied as a whole and
in order.  This is what is assumed of rocksdb; everything above is the code's.

The keys of a partition begin with four bytes that give the partition and a type: data,
index, UUID or system.

## Main results

* `Engine.lookup_write` — what a key holds after a batch.
-/

namespace K2Graph.Kvstore

open LittleEndian

abbrev Bytes := List UInt8

/-! ### Batches -/

/-- The content of an engine. -/
abbrev Engine := AList fun _ : Bytes => Bytes

/-- An operation of a `WriteBatch`. -/
inductive WriteOp where
  | put (key value : Bytes)
  | remove (key : Bytes)
  | removeRange (start stop : Bytes)
  deriving DecidableEq

/-- The keys of a range; the end of the range is not in it. -/
def inRange (start stop key : Bytes) : Bool := decide (start ≤ key) && decide (key < stop)

namespace WriteOp

/-- What is left under a key, given what it held. -/
def onKey (k : Bytes) (held : Option Bytes) : WriteOp → Option Bytes
  | put key value => if key = k then some value else held
  | remove key => if key = k then none else held
  | removeRange start stop => if inRange start stop k then none else held

end WriteOp

namespace Engine

variable (e : Engine)

def apply : WriteOp → Engine
  | .put key value => e.insert key value
  | .remove key => e.erase key
  | .removeRange start stop =>
      Write.applyAll e ((e.keys.filter (inRange start stop)).map .erase)

/-- `commitBatchWrite`. -/
def write (batch : List WriteOp) : Engine := batch.foldl apply e

theorem write_append (batch batch' : List WriteOp) :
    e.write (batch ++ batch') = (e.write batch).write batch' :=
  List.foldl_append

theorem lookup_apply (op : WriteOp) (k : Bytes) :
    (e.apply op).lookup k = op.onKey k (e.lookup k) := by
  cases op with
  | put key value => exact Write.lookup_apply e (.put key value) k
  | remove key => exact Write.lookup_apply e (.erase key) k
  | removeRange start stop =>
    refine (Write.lookup_applyAll_erase e (e.keys.filter (inRange start stop)) k).trans ?_
    have hmem : k ∈ e.keys.filter (inRange start stop) ↔ k ∈ e ∧ inRange start stop k = true := by
      rw [List.mem_filter, ← AList.mem_keys]
    rw [WriteOp.onKey]
    by_cases hr : inRange start stop k = true
    · rw [if_pos hr]
      by_cases hk : k ∈ e
      · rw [if_pos (hmem.mpr ⟨hk, hr⟩)]
      · -- there is nothing to erase
        rw [if_neg (fun h => hk (hmem.mp h).1), AList.lookup_eq_none.mpr hk]
    · rw [if_neg hr, if_neg (fun h => hr (hmem.mp h).2)]

/-- **What a key holds after a batch.** -/
theorem lookup_write (batch : List WriteOp) (k : Bytes) :
    (e.write batch).lookup k = batch.foldl (fun held op => op.onKey k held) (e.lookup k) := by
  induction batch generalizing e with
  | nil => rfl
  | cons op batch ih =>
    refine (ih (e.apply op)).trans ?_
    rw [lookup_apply]
    rfl

end Engine

/-! ### Keys -/

/-- `NebulaKeyType`. -/
inductive KeyType where
  | data
  | index
  | uuid
  | system
  deriving DecidableEq

def KeyType.toInt : KeyType → ℤ
  | data => 1
  | index => 2
  | uuid => 3
  | system => 4

/-- The first four bytes of a key: `(partId << kPartitionOffset) | type`, in an
`int32_t`. -/
def keyItem (partId : Int32) (type : KeyType) : Bytes := ofInt 4 (partId.toInt * 256 + type.toInt)

/-- `NebulaKeyUtils::systemCommitKey`. -/
def systemCommitKey (partId : Int32) : Bytes := keyItem partId .system ++ ofNat 4 1

end K2Graph.Kvstore
