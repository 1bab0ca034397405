import K2Graph.Base.SupportedType
import K2Graph.Storaged.Keys
import Mathlib.Logic.Equiv.List
import Mathlib.Tactic.DeriveEncodable

/-!
# Tags and edges in the store of metad

The processors that create, alter, drop and get tags and edges.  They read the store first and
write to it then, so a request comes to the operations that took effect and an answer.  The
processors of tags and of edges differ in the tables and names of their keys only.

The versions of a schema are under keys that hold a word which falls when the version rises.  The
default values are under keys of their own.

What a write comes to is an argument (`Env`), and so is what is read behind the end of a vector.
The format of schemas and indexes is an argument (`Codec`).  A failed lookup is taken to mean that
the key is not there.
-/

namespace K2Graph.Metad

open LittleEndian Kvstore
open Storaged (int32At int64At)

/-! ### Schemas -/

/-- A string of a request; its length is an `int32_t` on the wire. -/
abbrev Name := { name : Bytes // name.length < 2 ^ 31 }

/-- `nebula::cpp2::Value`; a double is given by its bits. -/
inductive Value
  | empty
  | int (x : Int64)
  | bool (b : Bool)
  | double (bits : UInt64)
  | string (s : Bytes)
  | timestamp (x : Int64)
  deriving DecidableEq

/-- `nebula::cpp2::ColumnDef`. -/
structure ColumnDef where
  name : Name
  type : SupportedType
  defaultValue : Option Value
  deriving DecidableEq

/-- `nebula::cpp2::SchemaProp`. -/
structure SchemaProp where
  ttlDuration : Option Int64
  ttlCol : Option Name
  deriving DecidableEq

/-- `nebula::cpp2::Schema`. -/
structure Schema where
  columns : List ColumnDef
  prop : SchemaProp
  deriving DecidableEq

/-- `nebula::cpp2::SchemaID`. -/
inductive SchemaId
  | empty
  | tag (id : Int32)
  | edge (type : Int32)
  deriving DecidableEq

/-- `nebula::cpp2::IndexItem`: what it is on, and its fields. -/
structure IndexItem where
  schemaId : SchemaId
  fields : List Name

/-- How values are written: `CompactSerializer` and `folly::to<std::string>`. -/
structure Codec where
  serialize : Schema → Bytes
  deserialize : Bytes → Schema
  deserialize_serialize : ∀ schema, deserialize (serialize schema) = schema
  parseIndex : Bytes → IndexItem
  text : Value → Bytes

instance encodableUInt8 : Encodable UInt8 :=
  .ofLeftInjection UInt8.toNat (fun n => some (.ofNat n)) fun x => by rw [UInt8.ofNat_toNat]

instance encodableUInt64 : Encodable UInt64 :=
  .ofLeftInjection UInt64.toNat (fun n => some (.ofNat n)) fun x => by rw [UInt64.ofNat_toNat]

instance encodableInt64 : Encodable Int64 :=
  .ofLeftInjection Int64.toInt (fun n => some (.ofInt n)) fun x => by rw [Int64.ofInt_toInt]

deriving instance Encodable for SupportedType
deriving instance Encodable for Value
deriving instance Encodable for ColumnDef
deriving instance Encodable for SchemaProp
deriving instance Encodable for Schema

/-- A format: short strings for some schemas, and strings as long as their numbers for the
others. -/
def Codec.ofList (known : List Schema) : Codec where
  serialize schema :=
    if schema ∈ known then List.replicate (known.idxOf schema) 0
    else 1 :: List.replicate (Encodable.encode schema) 0
  deserialize
    | 1 :: raw => ((Encodable.decode raw.length : Option Schema).getD ⟨[], ⟨none, none⟩⟩)
    | raw => known.getD raw.length ⟨[], ⟨none, none⟩⟩
  deserialize_serialize schema := by
    by_cases hmem : schema ∈ known
    · have hnot : ∀ rest : Bytes, List.replicate (known.idxOf schema) (0 : UInt8) ≠ 1 :: rest := by
        intro rest heq
        have hone : (1 : UInt8) ∈ List.replicate (known.idxOf schema) 0 := by
          rw [heq]
          exact List.mem_cons_self
        exact absurd (List.eq_of_mem_replicate hone) (by decide)
      rw [if_pos hmem]
      split
      · rename_i raw heq
        exact absurd heq (hnot raw)
      · rw [List.length_replicate, List.getD_eq_getElem?_getD, List.getElem?_idxOf hmem,
          Option.getD_some]
    · simp [if_neg hmem]
  parseIndex _ := ⟨.empty, []⟩
  text _ := []

/-! ### Keys -/

/-- The tables of the store. -/
inductive Table
  | spaces
  | tags
  | edges
  | indexes
  | index
  | defaults
  | lastUpdateTime
  | id
  deriving DecidableEq

/-- The names of the tables, such as `__tags__`. -/
def Table.bytes : Table → Bytes
  | spaces => [95, 95, 115, 112, 97, 99, 101, 115, 95, 95]
  | tags => [95, 95, 116, 97, 103, 115, 95, 95]
  | edges => [95, 95, 101, 100, 103, 101, 115, 95, 95]
  | indexes => [95, 95, 105, 110, 100, 101, 120, 101, 115, 95, 95]
  | index => [95, 95, 105, 110, 100, 101, 120, 95, 95]
  | defaults => [95, 95, 100, 101, 102, 97, 117, 108, 116, 95, 95]
  | lastUpdateTime =>
      [95, 95, 108, 97, 115, 116, 95, 117, 112, 100, 97, 116, 101, 95, 116, 105, 109, 101, 95, 95]
  | id => [95, 95, 105, 100, 95, 95]

def Table.key (table : Table) (rest : Bytes) : Bytes := table.bytes ++ rest

/-- Tags or edges. -/
inductive Kind
  | tag
  | edge
  deriving DecidableEq

/-- `kTagsTable` and `kEdgesTable`. -/
def Kind.table : Kind → Table
  | tag => .tags
  | edge => .edges

/-- `EntryType`. -/
def Kind.entryType : Kind → UInt8
  | tag => 2
  | edge => 3

/-- The kind whose names must not be taken. -/
def Kind.other : Kind → Kind
  | tag => edge
  | edge => tag

def spaceKey (spaceId : Int32) : Bytes := Table.spaces.key (ofInt 4 spaceId.toInt)

/-- The space and the tag or edge. -/
def schemaWords (spaceId id : Int32) : Bytes := ofInt 4 spaceId.toInt ++ ofInt 4 id.toInt

/-- `schemaTagPrefix` and `schemaEdgePrefix`. -/
def schemaPrefix (kind : Kind) (spaceId id : Int32) :
    Bytes := kind.table.key (schemaWords spaceId id)

/-- `schemaTagKey` and `schemaEdgeKey`. -/
def schemaKey (kind : Kind) (spaceId id : Int32) (version : Int64) : Bytes :=
  schemaPrefix kind spaceId id ++ ofInt 8 (Int64.maxValue - version).toInt

/-- `parseTagVersion` and `parseEdgeVersion`. -/
def parseVersion (kind : Kind) (key : Bytes) : Int64 :=
  Int64.maxValue - int64At key (kind.table.bytes.length + 8)

/-- `indexTagKey` and `indexEdgeKey`. -/
def nameKey (kind : Kind) (spaceId : Int32) (name : Name) : Bytes :=
  Table.index.key (kind.entryType :: (ofInt 4 spaceId.toInt ++ name))

def defaultKey (spaceId id : Int32) (field : Name) : Bytes :=
  Table.defaults.key (schemaWords spaceId id ++ field)

/-- The key of `autoIncrementId`. -/
def idKey : Bytes := Table.id.key []

def lastUpdateTimeKey : Bytes := Table.lastUpdateTime.key []

/-- `indexPrefix`. -/
def indexesPrefix (spaceId : Int32) : Bytes := Table.indexes.key (ofInt 4 spaceId.toInt)

/-- `schemaTagVal` and `schemaEdgeVal`. -/
def schemaVal (codec : Codec) (name : Name) (schema : Schema) : Bytes :=
  ofInt 4 name.1.length ++ (name.1 ++ codec.serialize schema)

def parseSchema (codec : Codec) (raw : Bytes) : Schema :=
  codec.deserialize (raw.drop (4 + (int32At raw 0).toInt).toNat)

/-! ### Answers -/

/-- `cpp2::ErrorCode`; the codes of a write that fails are one. -/
inductive ErrorCode
  | succeeded
  | notFound
  | conflict
  | existed
  | invalidParm
  | unsupported
  | storeFailure
  deriving DecidableEq

/-- What the writes of a request come to, and what stands behind the end of a vector. -/
structure Env where
  /-- The write of `autoIncrementId`. -/
  putId : Bool
  /-- `multiRemove`. -/
  remove : Bool
  /-- The put or the removal of `doSyncPutAndUpdate` or `doSyncMultiRemoveAndUpdate`. -/
  write : Bool
  /-- The write of `LastUpdateTimeMan::update`, whose result is not looked at. -/
  update : Bool
  /-- The `sync` of `LastUpdateTimeMan::update`. -/
  sync : Bool
  /-- The time. -/
  now : Int64
  /-- What is read when the last of these columns has been erased. -/
  behindEnd : List ColumnDef → Bool

/-- `doSyncPutAndUpdate` and `doSyncMultiRemoveAndUpdate`. -/
def writeAndUpdate (env : Env) (data : List WriteOp) : List WriteOp × ErrorCode :=
  if env.write then
    (data ++ (if env.update then [.put lastUpdateTimeKey (ofInt 8 env.now.toInt)] else []),
      if env.sync then .succeeded else .storeFailure)
  else ([], .storeFailure)

/-! ### Reading -/

section Reading

variable (codec : Codec) (e : Engine) (kind : Kind)

/-- `getTagId` and `getEdgeType`. -/
def getId (spaceId : Int32) (name : Name) : Option Int32 :=
  (e.lookup (nameKey kind spaceId name)).map (int32At · 0)

/-- The first version of a schema in the order of the keys. -/
def firstVersion (spaceId id : Int32) : Option (Int64 × Schema) :=
  (e.scan (schemaPrefix kind spaceId id)).head?.map fun row =>
    (parseVersion kind row.1, parseSchema codec row.2)

/-- `getLatestTagSchema` and `getLatestEdgeSchema`; nothing is read if there is none. -/
def getLatestSchema (spaceId id : Int32) : Option Schema :=
  (e.scan (schemaPrefix kind spaceId id)).head?.map fun row => parseSchema codec row.2

/-- `GetTagProcessor` and `GetEdgeProcessor`. -/
def getSchema (spaceId : Int32) (name : Name) (version : Int64) : Except ErrorCode Schema :=
  if spaceKey spaceId ∉ e then .error .notFound
  else
    match getId e kind spaceId name with
    | none => .error .notFound
    | some id =>
        let found :=
          if version < 0 then getLatestSchema codec e kind spaceId id
          else (e.lookup (schemaKey kind spaceId id version)).map (parseSchema codec)
        match found with
        | none => .error .notFound
        | some schema => .ok schema

def getIndexes (spaceId id : Int32) : List IndexItem :=
  ((e.scan (indexesPrefix spaceId)).map fun row => codec.parseIndex row.2).filter fun item =>
    item.schemaId = .tag id ∨ item.schemaId = .edge id

/-- The id that `autoIncrementId` gives. -/
def nextId : Int32 :=
  match e.lookup idKey with
  | none => 1
  | some value => int32At value 0 + 1

end Reading

/-! ### Creating -/

variable (codec : Codec)

/-- The text of the default value of a column, if its type is the one of the column. -/
def defaultText (unknownType : ErrorCode) (column : ColumnDef) : Except ErrorCode (Option Bytes) :=
  match column.defaultValue with
  | none => .ok none
  | some value =>
      match column.type, value with
      | .bool, .bool _ => .ok (some (codec.text value))
      | .int, .int _ => .ok (some (codec.text value))
      | .double, .double _ => .ok (some (codec.text value))
      | .string, .string _ => .ok (some (codec.text value))
      | .timestamp, .timestamp _ => .ok (some (codec.text value))
      | .bool, _ => .error .conflict
      | .int, _ => .error .conflict
      | .double, _ => .error .conflict
      | .string, _ => .error .conflict
      | .timestamp, _ => .error .conflict
      | _, _ => .error unknownType

def columnDefaults : List ColumnDef → Except ErrorCode (List (Name × Bytes))
  | [] => .ok []
  | column :: columns =>
      match defaultText codec .invalidParm column, columnDefaults columns with
      | .error code, _ => .error code
      | .ok _, .error code => .error code
      | .ok none, .ok texts => .ok texts
      | .ok (some text), .ok texts => .ok ((column.name, text) :: texts)

def putDefaults (spaceId id : Int32) (defaults : List (Name × Bytes)) : List WriteOp :=
  defaults.map fun x => .put (defaultKey spaceId id x.1) x.2

/-- `CreateTagReq` and `CreateEdgeReq`. -/
structure CreateReq where
  spaceId : Int32
  name : Name
  schema : Schema
  ifNotExists : Bool

/-- `CreateTagProcessor` and `CreateEdgeProcessor`. -/
def createSchema (kind : Kind) (codec : Codec) (e : Engine) (req : CreateReq) (env : Env) :
    List WriteOp × ErrorCode :=
  if spaceKey req.spaceId ∉ e then ([], .notFound)
  else if nameKey kind.other req.spaceId req.name ∈ e then ([], .conflict)
  else if nameKey kind req.spaceId req.name ∈ e then
    ([], if req.ifNotExists then .succeeded else .existed)
  else if env.putId = false then ([], .storeFailure)
  else
    let id := nextId e
    let putId := .put idKey (ofInt 4 id.toInt)
    match columnDefaults codec req.schema.columns with
    | .error code => ([putId], code)
    | .ok defaults =>
        let (written, code) := writeAndUpdate env
          (.put (nameKey kind req.spaceId req.name) (ofInt 4 id.toInt) ::
            .put (schemaKey kind req.spaceId id 0) (schemaVal codec req.name req.schema) ::
            putDefaults req.spaceId id defaults)
        (putId :: written, code)

/-! ### Altering -/

/-- `AlterSchemaOp`. -/
inductive AlterOp
  | add
  | change
  | drop
  | unknown
  deriving DecidableEq

/-- What an alteration has come to so far. -/
structure Edit where
  columns : List ColumnDef
  prop : SchemaProp
  defaults : List (Name × Bytes)
  removed : List Name

def alterColumnDefs (behindEnd : List ColumnDef → Bool) (edit : Edit) (op : AlterOp)
    (column : ColumnDef) : Except ErrorCode Edit :=
  match defaultText codec .conflict column with
  | .error code => .error code
  | .ok text =>
      let given := (text.map fun text => (column.name, text)).toList
      let found := edit.columns.findIdx? fun c => c.name = column.name
      match op, found with
      | .add, some _ => .error .existed
      | .add, none =>
          .ok { edit with columns := edit.columns ++ [column], defaults := edit.defaults ++ given }
      | .change, none => .error .notFound
      | .change, some i =>
          if edit.prop.ttlCol = some column.name then .error .unsupported
          else
            .ok { edit with
              columns := edit.columns.set i column
              defaults := edit.defaults ++ given
              removed := edit.removed ++ if text.isSome then [] else [column.name] }
      | .drop, none => .error .notFound
      | .drop, some i =>
          let columns := edit.columns.eraseIdx i
          -- the flag is read after the column has been erased: that of the column behind it
          let flag :=
            match columns[i]? with
            | some c => c.defaultValue.isSome
            | none => behindEnd edit.columns
          .ok { edit with
            columns := columns
            prop :=
              if edit.prop.ttlCol = some column.name then
                ⟨some 0, some ⟨[], by decide⟩⟩
              else edit.prop
            removed := edit.removed ++ if flag then [column.name] else [] }
      | .unknown, _ => .error .unsupported

def alterSchemaProp (columns : List ColumnDef) (prop alter : SchemaProp) (existIndex : Bool) :
    Except ErrorCode SchemaProp :=
  if existIndex ∧ (alter.ttlDuration.isSome ∨ alter.ttlCol.isSome) then .error .unsupported
  else
    let duration := alter.ttlDuration.or prop.ttlDuration
    -- a duration without a column is refused
    let checked (col : Option Name) : Except ErrorCode SchemaProp :=
      if (∃ d ∈ duration, d ≠ 0) ∧ ∀ c ∈ col, c.1 = [] then .error .unsupported
      else .ok ⟨duration, col⟩
    match alter.ttlCol with
    | none => checked prop.ttlCol
    | some ttlCol =>
        if ttlCol.1 = [] then .ok ⟨some 0, some ttlCol⟩
        else
          match columns.find? fun c => c.name = ttlCol with
          | none => .error .notFound
          | some c =>
              if c.type ≠ .int ∧ c.type ≠ .timestamp then .error .unsupported
              else checked (some ttlCol)

/-- `AlterSchemaItem`. -/
structure AlterItem where
  op : AlterOp
  columns : List ColumnDef

/-- `AlterTagReq` and `AlterEdgeReq`. -/
structure AlterReq where
  spaceId : Int32
  name : Name
  items : List AlterItem
  prop : SchemaProp

/-- The columns of the items, one after another. -/
def AlterReq.changes (req : AlterReq) : List (AlterOp × ColumnDef) :=
  req.items.flatMap fun item => item.columns.map (item.op, ·)

/-- `indexCheck`: no column of an index is changed or dropped. -/
def indexCheck (indexes : List IndexItem) (changes : List (AlterOp × ColumnDef)) : Bool :=
  indexes.all fun index => changes.all fun x =>
    decide ((x.1 = .change ∨ x.1 = .drop) → x.2.name ∉ index.fields)

structure AlterPlan where
  id : Int32
  version : Int64
  schema : Schema
  defaults : List (Name × Bytes)
  removed : List Name

/-- What an alteration makes of a schema. -/
def alterFrom (behindEnd : List ColumnDef → Bool) (indexes : List IndexItem)
    (req : AlterReq) (id : Int32) (version : Int64) (schema : Schema) :
    Except ErrorCode AlterPlan :=
  if indexCheck indexes req.changes = false then .error .conflict
  else
    match req.changes.foldlM (fun edit x => alterColumnDefs codec behindEnd edit x.1 x.2)
        ⟨schema.columns, schema.prop, [], []⟩ with
    | .error code => .error code
    | .ok edit =>
        match alterSchemaProp edit.columns edit.prop req.prop (indexes ≠ []) with
        | .error code => .error code
        | .ok prop =>
            .ok {
              id := id
              version := version + 1
              schema := ⟨edit.columns, if indexes = [] then prop else schema.prop⟩
              defaults := edit.defaults
              removed := edit.removed }

variable (kind : Kind) (codec : Codec) (e : Engine)

/-- What `AlterTagProcessor` and `AlterEdgeProcessor` do before they write. -/
def planAlter (req : AlterReq) (behindEnd : List ColumnDef → Bool) : Except ErrorCode AlterPlan :=
  if spaceKey req.spaceId ∉ e then .error .notFound
  else
    match getId e kind req.spaceId req.name with
    | none => .error .notFound
    | some id =>
        match firstVersion codec e kind req.spaceId id with
        | none => .error .notFound
        | some (version, schema) =>
            alterFrom codec behindEnd (getIndexes codec e req.spaceId id) req id version schema

/-- `AlterTagProcessor` and `AlterEdgeProcessor`. -/
def alterSchema (req : AlterReq) (env : Env) : List WriteOp × ErrorCode :=
  match planAlter kind codec e req env.behindEnd with
  | .error code => ([], code)
  | .ok plan =>
      let (written, code) := writeAndUpdate env
        (putDefaults req.spaceId plan.id plan.defaults ++
          [.put (schemaKey kind req.spaceId plan.id plan.version)
            (schemaVal codec req.name plan.schema)])
      if plan.removed = [] then (written, code)
      else if env.remove then
        ((plan.removed.map fun field => .remove (defaultKey req.spaceId plan.id field)) ++ written,
          code)
      else ([], .storeFailure)

/-! ### Dropping -/

/-- `DropTagReq` and `DropEdgeReq`. -/
structure DropReq where
  spaceId : Int32
  name : Name
  ifExists : Bool

/-- `DropTagProcessor` and `DropEdgeProcessor`. -/
def dropSchema (req : DropReq) (env : Env) : List WriteOp × ErrorCode :=
  if spaceKey req.spaceId ∉ e then ([], .notFound)
  else
    match getId e kind req.spaceId req.name with
    | none => ([], if req.ifExists then .succeeded else .notFound)
    | some id =>
        if getIndexes codec e req.spaceId id ≠ [] then ([], .conflict)
        else
          writeAndUpdate env
            (((e.scan (schemaPrefix kind req.spaceId id)).map fun row => .remove row.1) ++
              [.remove (nameKey kind req.spaceId req.name)])

/-! ### Requests -/

/-- A request about a tag or an edge. -/
inductive SchemaReq
  | create (kind : Kind) (req : CreateReq)
  | alter (kind : Kind) (req : AlterReq)
  | drop (kind : Kind) (req : DropReq)

/-- The writes of a request that take effect, and its answer. -/
def SchemaReq.process (env : Env) : SchemaReq → List WriteOp × ErrorCode
  | create kind req => createSchema kind codec e req env
  | alter kind req => alterSchema kind codec e req env
  | drop kind req => dropSchema kind codec e req env

/-- The store after a request. -/
def schemaStep (a : SchemaReq × Env) : Option Engine :=
  some (e.write (a.1.process codec e a.2).1)

/-! ### The processors of tags and of edges -/

/-- `CreateTagProcessor`. -/
def createTag := createSchema .tag

/-- `CreateEdgeProcessor`. -/
def createEdge := createSchema .edge

/-- `AlterTagProcessor`. -/
def alterTag := alterSchema .tag

/-- `AlterEdgeProcessor`. -/
def alterEdge := alterSchema .edge

/-- `DropTagProcessor`. -/
def dropTag := dropSchema .tag

/-- `DropEdgeProcessor`. -/
def dropEdge := dropSchema .edge

end K2Graph.Metad
