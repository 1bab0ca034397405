import K2Graph.Lib.Bytes
import K2Graph.Lib.Varint
import Mathlib.Data.Nat.Bitwise

/-!
# Writing rows

A row is a header, the version of its schema, offsets of blocks of fields and the fields.
The lowest bits of the header tell how many bytes an offset takes, the highest ones how
many the version takes.  The reader expects an offset for every 16 fields, that of the
field that comes next.

`RowWriter` notes an offset behind the last field of a block when that field is written.
`Skip` notes it one field too late: behind the first field of the next block.
-/

namespace K2Graph.Dataman

open LittleEndian

/-- The types of `cpp2::SupportedType` that rows hold; a field of another type ends the
process. -/
inductive SupportedType
  | bool
  | int
  | vid
  | float
  | double
  | string
  | timestamp
  deriving DecidableEq

/-- A value; floating-point numbers are given by their bits. -/
inductive Value
  | bool (v : Bool)
  | int (v : Int64)
  | float (bits : UInt32)
  | double (bits : UInt64)
  | string (v : List UInt8)
  deriving DecidableEq

/-- `SchemaProviderIf`: the names and types of the fields. -/
structure Schema where
  version : Int64
  fields : List (List UInt8 × SupportedType)
  names : (fields.map Prod.fst).Nodup

/-- `getNumFields`. -/
def Schema.numFields (schema : Schema) : ℕ := schema.fields.length

/-- `getFieldType`. -/
def Schema.fieldType (schema : Schema) (index : ℕ) : Option SupportedType :=
  schema.fields[index]?.map Prod.snd

/-- `static_cast` between `float` and `double`. -/
structure FloatCasts where
  toDouble : UInt32 → UInt64
  toFloat : UInt64 → UInt32

/-! ### Fields -/

/-- `writeInt`, which uses `folly::encodeVarint` with ten bytes. -/
def writeInt (v : UInt64) : List UInt8 := Varint.encode 9 v.toNat

variable (casts : FloatCasts)

/-- `operator<<`: what is written for a value.  A value that does not go with the type is
replaced by a default for its own type. -/
def fieldBytes : Value → SupportedType → List UInt8
  | .bool v, .bool => [if v then 1 else 0]
  | .bool _, _ => [0]
  | .float v, .float => ofNat 4 v.toNat
  | .float v, .double => ofNat 8 (casts.toDouble v).toNat
  | .float _, _ => ofNat 4 0
  | .double v, .float => ofNat 4 (casts.toFloat v).toNat
  | .double v, .double => ofNat 8 v.toNat
  | .double _, _ => ofNat 8 0
  | .string v, .string => writeInt (.ofNat v.length) ++ v
  | .string _, _ => writeInt 0
  | .int v, .int => writeInt v.toUInt64
  | .int v, .timestamp => writeInt v.toUInt64
  | .int v, .vid => ofNat 8 v.toUInt64.toNat
  | .int _, _ => writeInt 0

/-- What `Skip` writes for a field. -/
def defaultBytes : SupportedType → List UInt8
  | .bool => [0]
  | .int => writeInt 0
  | .timestamp => writeInt 0
  | .float => ofNat 4 0
  | .double => ofNat 8 0
  | .string => writeInt 0
  | .vid => ofNat 8 0

/-! ### The writer -/

/-- `RowWriter` with a schema that was given to it. -/
structure RowWriter where
  cord : List UInt8
  colNum : ℕ
  blockOffsets : List ℕ
  deriving DecidableEq

namespace RowWriter

/-- A new writer. -/
def empty : RowWriter := ⟨[], 0, []⟩

/-- `operator<<` of a value.  There is no field to write to behind the last one: the check
for a `SchemaWriter` fails. -/
def write (casts : FloatCasts) (schema : Schema) (w : RowWriter) (v : Value) : Option RowWriter :=
  (schema.fieldType w.colNum).map fun type =>
    let cord := w.cord ++ fieldBytes casts v type
    ⟨cord, w.colNum + 1,
      if (w.colNum + 1) % 16 = 0 then w.blockOffsets ++ [cord.length] else w.blockOffsets⟩

/-- One round of the loop of `Skip`. -/
def skipField (w : RowWriter) (type : SupportedType) : RowWriter :=
  let cord := w.cord ++ defaultBytes type
  ⟨cord, w.colNum + 1,
    if w.colNum ≠ 0 ∧ w.colNum % 16 = 0 then w.blockOffsets ++ [cord.length] else w.blockOffsets⟩

/-- `operator<<` of `Skip`. -/
def skip (schema : Schema) (w : RowWriter) (toSkip : ℤ) : RowWriter :=
  ((schema.fields.drop w.colNum).take toSkip.toNat).foldl
    (fun w field => w.skipField field.2) w

end RowWriter

/-- The loop of `calcOccupiedBytes`. -/
def occupiedBytes : ℕ → ℕ → ℕ
  | 0, _ => 0
  | k + 1, v => if v / 256 = 0 then 1 else occupiedBytes k (v / 256) + 1

/-- `calcOccupiedBytes` of an `uint64_t`. -/
def calcOccupiedBytes (v : ℕ) : ℕ := occupiedBytes 8 v

namespace RowWriter

/-- `encodeTo`: the fields that are left are skipped first. -/
def encode (schema : Schema) (w : RowWriter) : List UInt8 :=
  let w := w.skip schema (schema.numFields - w.colNum)
  let offsetBytes := calcOccupiedBytes w.cord.length
  let verBytes := if 0 < schema.version then calcOccupiedBytes schema.version.toUInt64.toNat else 0
  UInt8.ofNat (offsetBytes - 1 ||| verBytes <<< 5) ::
    (ofNat verBytes schema.version.toUInt64.toNat ++
      (w.blockOffsets.flatMap (ofNat offsetBytes) ++ w.cord))

end RowWriter

/-- What is put into the stream. -/
inductive Step
  | write (v : Value)
  | skip (toSkip : ℤ)

def RowWriter.step (schema : Schema) (w : RowWriter) : Step → Option RowWriter
  | .write v => w.write casts schema v
  | .skip toSkip => some (w.skip schema toSkip)

/-- The writer after a sequence of steps that stays within the schema. -/
def RowWriter.run (schema : Schema) (steps : List Step) : Option RowWriter :=
  steps.foldlM (RowWriter.step casts schema) .empty

end K2Graph.Dataman
