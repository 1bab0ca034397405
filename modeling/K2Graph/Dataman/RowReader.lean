import K2Graph.Dataman.RowWriter

/-!
# Reading rows

`RowReader` takes the offsets of the blocks from the header and finds the other fields when
they are asked for: it goes on from the last field of the block that was found before, and
notes every offset that it comes across.

A number that is cut off throws inside a function that is `noexcept`, a failed check and a
fatal log end the process, and a byte behind the end of the data is undefined; all of these
are `none` here.
-/

namespace K2Graph.Dataman

open LittleEndian

/-- An open row.  Offsets that are not known are negative; `visited` tells the last field of
a block that was found. -/
structure RowReader where
  schema : Schema
  data : List UInt8
  offsets : ℕ → ℤ
  visited : ℕ → ℕ

/-! ### Results -/

/-- `ResultType::E_NAME_NOT_FOUND`. -/
def nameNotFound : ℤ := -1

/-- `ResultType::E_INDEX_OUT_OF_RANGE`. -/
def indexOutOfRange : ℤ := -2

/-- `ResultType::E_INCOMPATIBLE_TYPE`. -/
def incompatibleType : ℤ := -3

/-- `ResultType::E_DATA_INVALID`. -/
def dataInvalid : ℤ := -5

/-! ### Opening a row -/

/-- `getSchemaVer`.  Shifts by more than the width of the number are undefined. -/
def getSchemaVer (row : List UInt8) : Option Int32 :=
  match row with
  | [] => some (-1)
  | header :: rest =>
      let verBytes := (header >>> 5).toNat
      if rest.length < verBytes then some (-1)
      else if 4 < verBytes then none
      else some (.ofInt (toNat (rest.take verBytes)))

/-- A block offset of the header; the number is put together in an `int64_t`. -/
def blockOffset (row : List UInt8) (start numBytes i : ℕ) : ℤ :=
  (toNat ((row.drop (start + numBytes * i)).take numBytes) : ℤ).bmod (2 ^ 64)

/-- `processHeader` and the constructor, which logs fatally if the row is too short. -/
def processHeader (schema : Schema) (row : List UInt8) : Option RowReader :=
  match row with
  | [] => none
  | header :: _ =>
      let numBytesForOffset := (header &&& 7).toNat + 1
      let verBytes := (header >>> 5).toNat
      let numOffsets := schema.numFields / 16
      let headerLen := 1 + verBytes + numBytesForOffset * numOffsets
      if row.length < headerLen then none
      else some {
        schema := schema
        data := row.drop headerLen
        offsets := fun j =>
          if j = schema.numFields then row.length - headerLen
          else if j = 0 then 0
          else if j % 16 = 0 then blockOffset row (1 + verBytes) numBytesForOffset (j / 16 - 1)
          else -1
        visited := fun _ => 0 }

/-- `getRowReader`, which checks the version. -/
def getRowReader (schema : Schema) (row : List UInt8) : Option RowReader :=
  match getSchemaVer row with
  | none => none
  | some ver => if ver.toInt = schema.version.toInt then processHeader schema row else none

/-! ### Reading at an offset -/

/-- `static_cast<int32_t>`. -/
def int32 (x : ℤ) : ℤ := x.bmod (2 ^ 32)

variable (r : RowReader) (offset : ℤ)

/-- The bytes of the data from an offset on. -/
def RowReader.dataFrom : Option (List UInt8) :=
  if 0 ≤ offset ∧ offset ≤ r.data.length then some (r.data.drop offset.toNat) else none

/-- `readInteger`: the number and the number of bytes. -/
def RowReader.readInteger : Option (Int64 × ℤ) := do
  let bytes ← r.dataFrom offset
  let (v, len) ← Varint.decode 10 bytes
  return ((UInt64.ofNat v).toInt64, len)

/-- `readFloat`, `readDouble` and `readInt64`: the bytes of a fixed width, or an error. -/
def RowReader.readFixed (width : ℕ) (offset : ℤ) : Option (Except ℤ ℕ) :=
  if r.data.length < offset + width then some (.error dataInvalid)
  else (r.dataFrom offset).map fun bytes => .ok (toNat (bytes.take width))

/-- `readString`: the result is turned into an `int32_t`, and a length that is negative makes
`subpiece` take everything. -/
def RowReader.readString : Option (ℤ × List UInt8) := do
  let (strLen, intLen) ← r.readInteger offset
  let bytes ← r.dataFrom (offset + intLen)
  if r.data.length < offset + intLen + strLen.toInt then return (dataInvalid, [])
  return (int32 (intLen + strLen.toInt),
    if strLen < 0 then bytes else bytes.take strLen.toInt.toNat)

/-! ### Finding a field -/

/-- The offset behind a field. -/
def RowReader.fieldEnd : SupportedType → Option ℤ
  | .bool => some (offset + 1)
  | .int => (r.readInteger offset).map fun x => offset + x.2
  | .timestamp => (r.readInteger offset).map fun x => offset + x.2
  | .float => some (offset + 4)
  | .double => some (offset + 8)
  | .string => (r.readInteger offset).map fun x => offset + x.2 + x.1.toInt
  | .vid => some (offset + 8)

def RowReader.note (index : ℕ) (offset : ℤ) : RowReader where
  schema := r.schema
  data := r.data
  offsets := Function.update r.offsets index offset
  visited := Function.update r.visited (index / 16) (index % 16)

/-- `skipToNext`: the offset of the next field, or an error. -/
def RowReader.skipToNext (index : ℕ) (offset : ℤ) : Option (ℤ × RowReader) :=
  match r.schema.fieldType index with
  | none => none
  | some type =>
      if 0 ≤ r.offsets (index + 1) then some (r.offsets (index + 1), r)
      else
        match r.fieldEnd offset type with
        | none => none
        | some next =>
            if r.data.length < next then some (dataInvalid, r)
            else some (next, r.note (index + 1) next)

/-- The loop of `skipToField`, for a number of fields. -/
def RowReader.skipFields (r : RowReader) : ℕ → ℕ → ℤ → Option (ℤ × RowReader)
  | 0, _, offset => some (offset, r)
  | count + 1, index, offset =>
      match r.skipToNext index offset with
      | none => none
      | some (next, r) =>
          if next < 0 then some (dataInvalid, r) else r.skipFields count (index + 1) next

def RowReader.skipToField (index : ℕ) : Option (ℤ × RowReader) :=
  if r.schema.numFields ≤ index then some (indexOutOfRange, r)
  else
    let maxVisitedIndex := index / 16 * 16 + r.visited (index / 16)
    if index ≤ maxVisitedIndex then some (r.offsets index, r)
    else r.skipFields (index - maxVisitedIndex) maxVisitedIndex (r.offsets maxVisitedIndex)

/-! ### Getters -/

def intToBool (v : Int64) : Bool := v ≠ 0

def strToBool (v : List UInt8) : Bool :=
  v ∈ ["Y", "y", "T", "t", "yes", "Yes", "YES", "true", "True", "TRUE"].map fun s =>
    s.toUTF8.data.toList

def RowReader.getBool : SupportedType → Option (Except ℤ Value)
  | .bool =>
      match r.dataFrom offset with
      | some (b :: _) => some (.ok (.bool (b ≠ 0)))
      | _ => none
  | .int => (r.readInteger offset).map fun x => .ok (.bool (intToBool x.1))
  | .timestamp => (r.readInteger offset).map fun x => .ok (.bool (intToBool x.1))
  | .string => (r.readString offset).map fun x =>
      if 0 < x.1 then .ok (.bool (strToBool x.2)) else .error x.1
  | _ => some (.error incompatibleType)

def RowReader.getInt : SupportedType → Option (Except ℤ Value)
  | .int => (r.readInteger offset).map fun x => .ok (.int x.1)
  | .timestamp => (r.readInteger offset).map fun x => .ok (.int x.1)
  | _ => some (.error incompatibleType)

def RowReader.getInt64 : SupportedType → Option (Except ℤ Value)
  | .int => (r.readInteger offset).map fun x => .ok (.int x.1)
  | .timestamp => (r.readInteger offset).map fun x => .ok (.int x.1)
  | .vid => (r.readFixed 8 offset).map (·.map fun x => .int (UInt64.ofNat x).toInt64)
  | _ => some (.error incompatibleType)

def RowReader.getVid (type : SupportedType) : Option (Except ℤ Value) :=
  if type = .int ∨ type = .vid then r.getInt64 offset type else some (.error incompatibleType)

def RowReader.getFloat (casts : FloatCasts) (r : RowReader) (offset : ℤ) :
    SupportedType → Option (Except ℤ Value)
  | .float => (r.readFixed 4 offset).map (·.map fun x => .float (UInt32.ofNat x))
  | .double =>
      (r.readFixed 8 offset).map (·.map fun x => .float (casts.toFloat (UInt64.ofNat x)))
  | _ => some (.error incompatibleType)

def RowReader.getDouble (casts : FloatCasts) (r : RowReader) (offset : ℤ) :
    SupportedType → Option (Except ℤ Value)
  | .float =>
      (r.readFixed 4 offset).map (·.map fun x => .double (casts.toDouble (UInt32.ofNat x)))
  | .double => (r.readFixed 8 offset).map (·.map fun x => .double (UInt64.ofNat x))
  | _ => some (.error incompatibleType)

def RowReader.getString : SupportedType → Option (Except ℤ Value)
  | .string => (r.readString offset).map fun x =>
      if x.1 < 0 then .error x.1 else .ok (.string x.2)
  | _ => some (.error incompatibleType)

inductive Getter
  | bool
  | int
  | float
  | double
  | string
  | vid

variable (casts : FloatCasts) (r : RowReader)

def RowReader.getAt (offset : ℤ) (type : SupportedType) : Getter → Option (Except ℤ Value)
  | .bool => r.getBool offset type
  | .int => r.getInt offset type
  | .float => r.getFloat casts offset type
  | .double => r.getDouble casts offset type
  | .string => r.getString offset type
  | .vid => r.getVid offset type

def RowReader.get (getter : Getter) (index : ℕ) : Option (Except ℤ Value × RowReader) :=
  match r.skipToField index with
  | none => none
  | some (offset, r) =>
      if offset < 0 then some (.error offset, r)
      else
        match r.schema.fieldType index with
        | none => some (.error indexOutOfRange, r)
        | some type => (r.getAt casts offset type getter).map fun result => (result, r)

/-- `getFieldIndex`. -/
def Schema.fieldIndex (schema : Schema) (name : List UInt8) : Option ℕ :=
  schema.fields.findIdx? fun field => field.1 = name

def RowReader.getByName (getter : Getter) (name : List UInt8) :
    Option (Except ℤ Value × RowReader) :=
  match r.schema.fieldIndex name with
  | none => some (.error nameNotFound, r)
  | some index => r.get casts getter index

inductive Access
  | index (getter : Getter) (index : ℕ)
  | name (getter : Getter) (name : List UInt8)

/-- What a read returns, and the reader after it. -/
def RowReader.read : Access → Option (Except ℤ Value × RowReader)
  | .index getter index => r.get casts getter index
  | .name getter name => r.getByName casts getter name

/-- The reader after a sequence of reads. -/
def RowReader.run (accesses : List Access) : Option RowReader :=
  accesses.foldlM (fun r access => (r.read casts access).map Prod.snd) r

/-- The getter that `getPropByIndex` and `getPropByName` take for a type. -/
def SupportedType.getter : SupportedType → Getter
  | .bool => .bool
  | .int => .int
  | .timestamp => .int
  | .vid => .vid
  | .float => .float
  | .double => .double
  | .string => .string

end K2Graph.Dataman
