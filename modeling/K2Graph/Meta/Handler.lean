import K2Graph.Storage.K2

/-!
# `MetaServiceHandler`

The handlers that create spaces, tags and edge types, and those that list them.  The
service keeps four maps in memory, and K2 has a collection for every space, a schema for
every tag and edge type, and a record for the name of every tag.

The three handlers that create something look up the name first, and set the id to −1 if it
is there; then they go on as for a new name.  The maps are changed before K2 is called and
never changed back.

A call of K2 that does not succeed is taken to have no effect.  What makes the poller read
from an empty vector, and so ends the process, is `Reply.crashed`.
-/

namespace K2Graph.Meta

open Storage (FieldType SchemaField Outcome toInt32)

/-! ### Schemas -/

/-- `cpp2::Value`, floating-point numbers as their bits. -/
inductive Value where
  | int (i : ℤ)
  | bool (b : Bool)
  | double (bits : UInt64)
  | string (bytes : List UInt8)
  | timestamp (i : ℤ)

/-- `cpp2::ColumnDef`. -/
structure ColumnDef where
  name : String
  type : SupportedType
  defaultValue : Option Value

/-- `cpp2::Schema`, with the two fields of its `SchemaProp`. -/
structure Schema where
  columns : List ColumnDef
  ttlDuration : Option ℤ
  ttlCol : Option String

/-- `cpp2::TagItem` and `cpp2::EdgeItem`. -/
structure SchemaItem where
  id : ℤ
  name : String
  version : ℤ
  schema : Schema

/-- `k2::dto::Schema`; the name is the text of a number. -/
structure K2Schema where
  name : ℤ
  version : ℕ
  fields : List SchemaField
  partitionKeys : List String
  rangeKeys : List String

/-- The K2 type of a column; a column of any other type is skipped. -/
def k2Type : SupportedType → Option FieldType
  | .bool => some .bool
  | .int => some .int64t
  | .double => some .double
  | .string => some .string
  | _ => none

/-- The fields for the columns of a tag or an edge type. -/
def k2Fields (columns : List ColumnDef) : List SchemaField :=
  columns.filterMap fun column => (k2Type column.type).map fun type => ⟨column.name, type⟩

/-- The schema of the records that have the id of a tag by its name. -/
def tagNameSchema : K2Schema :=
  ⟨0, 1, [⟨"SpaceID", .int64t⟩, ⟨"TagName", .string⟩, ⟨"TagID", .int32t⟩], ["SpaceID"], ["TagName"]⟩

/-- `Vertex2Schema`. -/
def vertex2Schema : K2Schema :=
  ⟨1, 1, [⟨"VertexID", .int64t⟩, ⟨"TagID", .int32t⟩], ["VertexID"], ["TagID"]⟩

/-- `Vertex2Edge`. -/
def vertex2Edge : K2Schema :=
  ⟨2, 1, [⟨"VertexID", .int64t⟩, ⟨"EdgeType", .int32t⟩], ["VertexID"], ["EdgeType"]⟩

/-- `TagSchema` of `future_createTag`. -/
def tagSchema (id : ℤ) (columns : List ColumnDef) : K2Schema where
  name := id
  version := 1
  fields := [⟨"PartID", .int16t⟩, ⟨"VertexID", .int64t⟩, ⟨"TagID", .int32t⟩] ++ k2Fields columns
  partitionKeys := ["PartID"]
  rangeKeys := ["VertexID", "TagID"]

/-- `EdgeSchema` of `future_createEdge`. -/
def edgeSchema (id : ℤ) (columns : List ColumnDef) : K2Schema where
  name := id
  version := 1
  fields := [⟨"PartID", .int16t⟩, ⟨"FisrtVertexID", .int64t⟩, ⟨"EdgeTypeID", .int32t⟩,
    ⟨"Rank", .int64t⟩, ⟨"SecondVertexID", .int64t⟩] ++ k2Fields columns
  partitionKeys := ["PartID", "FisrtVertexID"]
  rangeKeys := ["EdgeTypeID", "Rank", "SecondVertexID"]

/-! ### The state -/

/-- What K2 has: the collections, the schemas of each, and the ids of the tags by space and
name. -/
structure Cluster where
  collections : List ℤ
  schemas : AList fun _ : ℤ × ℤ => K2Schema
  tagIds : AList fun _ : ℤ × String => ℤ

/-- The process-wide maps of the service, with K2. -/
structure Server where
  spaceIdNameMap : AList fun _ : ℤ => String
  spaceSchemaNameIDMap : AList fun _ : ℤ × String => ℤ
  spaceTagMap : AList fun _ : ℤ × ℤ => SchemaItem
  spaceEdgeTypeMap : AList fun _ : ℤ × ℤ => SchemaItem
  k2 : Cluster

def Server.empty : Server := ⟨∅, ∅, ∅, ∅, ⟨[], ∅, ∅⟩⟩

/-- `_client->createSchema`, if it succeeds. -/
def Cluster.createSchema (k : Cluster) (space : ℤ) (schema : K2Schema) : Cluster :=
  { k with schemas := k.schemas.insert (space, schema.name) schema }

/-- `cpp2::ErrorCode`, as far as the handlers set it.  A response has `SUCCEEDED` unless
another code is set. -/
inductive ErrorCode where
  | succeeded
  | existed
  | unknown
  deriving DecidableEq

/-- How a request ends; the id is only set at the end of a handler. -/
inductive Reply where
  | resp (code : ErrorCode) (id : Option ℤ)
  | threw
  | crashed
  deriving DecidableEq

/-! ### Creating a space -/

/-- `cpp2::CreateSpaceReq`; no handler reads `if_not_exists`. -/
structure CreateSpaceReq where
  spaceName : String
  ifNotExists : Bool

/-- How the calls of `future_createSpace` end. -/
structure SpaceOutcomes where
  collection : Outcome
  tagName : Outcome
  vertexTag : Outcome
  vertexEdge : Outcome

def name2Eps (name : String) : List String :=
  if name = "test1" then ["tcp+k2rpc://0.0.0.0:10000"]
  else if name = "test2" then ["tcp+k2rpc://0.0.0.0:10001"]
  else if name = "test3" then ["tcp+k2rpc://0.0.0.0:10002"]
  else []

variable (s : Server)

def Server.hasSpace (name : String) : Bool :=
  s.spaceIdNameMap.entries.any fun e => e.2 = name

variable (o : SpaceOutcomes)

/-- The schemas of a new collection and how their calls end, in order. -/
def SpaceOutcomes.schemas : List (K2Schema × Outcome) :=
  [(tagNameSchema, o.tagName), (vertex2Schema, o.vertexTag), (vertex2Edge, o.vertexEdge)]

section

variable (space : ℤ)

/-- The schemas are created one after the other: a status that is not OK ends the handler,
an exception is ignored. -/
def createSchemas :
    List (K2Schema × Outcome) → ErrorCode → Cluster → Except Cluster (ErrorCode × Cluster)
  | [], code, k => .ok (code, k)
  | (schema, .ok) :: rest, _, k => createSchemas rest .succeeded (k.createSchema space schema)
  | (_, .failed) :: _, _, k => .error k
  | (_, .threw) :: rest, code, k => createSchemas rest code k

/-- The part of `future_createSpace` behind the creation of the collection. -/
def createSystem (code : ErrorCode) (s : Server) : Server × Reply :=
  match createSchemas space o.schemas code s.k2 with
  | .ok (code, k) => ({ s with k2 := k }, .resp code (some space))
  | .error k => ({ s with k2 := k }, .resp .unknown none)

/-- `MetaServiceHandler::future_createSpace`. -/
def createSpace (req : CreateSpaceReq) (s : Server) : Server × Reply :=
  let id := if s.hasSpace req.spaceName then -1 else toInt32 (s.spaceIdNameMap.keys.length + 1)
  let code := if s.hasSpace req.spaceName then .existed else .succeeded
  let s := if s.hasSpace req.spaceName then s
    else { s with spaceIdNameMap := s.spaceIdNameMap.insert id req.spaceName }
  match name2Eps req.spaceName, o.collection with
  -- an exception is the only end that does not need the endpoints
  | _, .threw => (s, .resp .unknown none)
  | [], _ => (s, .crashed)
  | _ :: _, .failed => createSystem o id code s
  | _ :: _, .ok =>
    createSystem o id .succeeded
      { s with k2 := { s.k2 with collections := id :: s.k2.collections } }

/-! ### Creating a tag or an edge type -/

/-- `cpp2::CreateTagReq` and `cpp2::CreateEdgeReq`. -/
structure CreateSchemaReq where
  spaceId : ℤ
  name : String
  schema : Schema
  ifNotExists : Bool

variable (name : String)

/-- A tag or an edge type of the space has the name. -/
def Server.hasSchema : Bool :=
  (s.spaceSchemaNameIDMap.lookup (space, name)).isSome

/-- The id a name gets: one that is there already gets −1, any other the number of names in
all spaces, plus 3. -/
def Server.schemaId : ℤ :=
  if s.hasSchema space name then -1
  else toInt32 (toInt32 s.spaceSchemaNameIDMap.keys.length + 3)

/-- `SpaceSchemaNameIDMap` gets a new name. -/
def Server.bindName : Server :=
  if s.hasSchema space name then s
  else { s with
    spaceSchemaNameIDMap := s.spaceSchemaNameIDMap.insert (space, name) (s.schemaId space name) }

end

def CreateSchemaReq.item (req : CreateSchemaReq) (id : ℤ) :
    SchemaItem := ⟨id, req.name, 0, req.schema⟩

/-- How the calls of `future_createTag` end; only an exception keeps the transaction from
beginning. -/
structure TagOutcomes where
  schema : Outcome
  beginTxn : Bool
  write : Outcome
  endTxn : Outcome

/-- The record is written: without a transaction the poller refuses the write. -/
def TagOutcomes.written (o : TagOutcomes) : Bool := o.beginTxn && o.write = .ok

/-- The end of the transaction: without one the poller answers an abort with OK. -/
def TagOutcomes.ended (o : TagOutcomes) : Outcome :=
  if !o.beginTxn && o.endTxn = .failed then .ok else o.endTxn

/-- `MetaServiceHandler::future_createTag`.  The codes that are set on the way are all
overwritten at the end. -/
def createTag (o : TagOutcomes) (req : CreateSchemaReq) (s : Server) : Server × Reply :=
  let id := s.schemaId req.spaceId req.name
  let s := s.bindName req.spaceId req.name
  let s := { s with spaceTagMap := s.spaceTagMap.insert (req.spaceId, id) (req.item id) }
  let k := if o.schema = .ok then s.k2.createSchema req.spaceId (tagSchema id req.schema.columns)
    else s.k2
  match o.ended with
  | .threw => ({ s with k2 := k }, .threw)
  | .failed => ({ s with k2 := k }, .resp .unknown none)
  | .ok =>
    if o.written then
      ({ s with k2 := { k with tagIds := k.tagIds.insert (req.spaceId, req.name) id } },
        .resp .succeeded (some id))
    else ({ s with k2 := k }, .resp .unknown (some id))

/-- `MetaServiceHandler::future_createEdge`, which has one call and writes no record. -/
def createEdge (o : Outcome) (req : CreateSchemaReq) (s : Server) : Server × Reply :=
  let id := s.schemaId req.spaceId req.name
  let s := s.bindName req.spaceId req.name
  let s := { s with spaceEdgeTypeMap := s.spaceEdgeTypeMap.insert (req.spaceId, id) (req.item id) }
  let k := if o = .ok then s.k2.createSchema req.spaceId (edgeSchema id req.schema.columns)
    else s.k2
  ({ s with k2 := k }, .resp .succeeded (some id))

/-- A request that creates something, and how its calls end. -/
inductive Request where
  | space (o : SpaceOutcomes) (req : CreateSpaceReq)
  | tag (o : TagOutcomes) (req : CreateSchemaReq)
  | edge (o : Outcome) (req : CreateSchemaReq)

def Request.handle : Request → Server → Server × Reply
  | space o req => createSpace o req
  | tag o req => createTag o req
  | edge o req => createEdge o req

/-! ### The answers -/

/-- `MetaServiceHandler::future_listSpaces`, in the order of iteration. -/
def listSpaces : List (ℤ × String) :=
  s.spaceIdNameMap.entries.map fun e => (e.1, e.2)

def itemsOf (m : AList fun _ : ℤ × ℤ => SchemaItem) (space : ℤ) : List SchemaItem :=
  (m.entries.filter fun e => e.1.1 = space).map Sigma.snd

/-- `MetaServiceHandler::future_listTags`. -/
def listTags (space : ℤ) : List SchemaItem := itemsOf s.spaceTagMap space

/-- `MetaServiceHandler::future_listEdges`. -/
def listEdges (space : ℤ) : List SchemaItem := itemsOf s.spaceEdgeTypeMap space

/-! ### What a handler does -/

section Effects

variable {s : Server} {space : ℤ} {name : String}

structure Server.SameMaps (s s' : Server) : Prop where
  spaces : ∀ k, s'.spaceIdNameMap.lookup k = s.spaceIdNameMap.lookup k
  names : ∀ k, s'.spaceSchemaNameIDMap.lookup k = s.spaceSchemaNameIDMap.lookup k
  tags : ∀ k, s'.spaceTagMap.lookup k = s.spaceTagMap.lookup k
  edges : ∀ k, s'.spaceEdgeTypeMap.lookup k = s.spaceEdgeTypeMap.lookup k

theorem Server.hasSpace_iff : s.hasSpace name = true ↔ ∃ id, s.spaceIdNameMap.lookup id =
    some name := by
  rw [Server.hasSpace, List.any_eq_true]
  constructor
  · rintro ⟨⟨id, n⟩, hmem, hn⟩
    obtain rfl : n = name := of_decide_eq_true hn
    exact ⟨id, AList.mem_lookup_iff.mpr hmem⟩
  · rintro ⟨id, hid⟩
    exact ⟨⟨id, name⟩, AList.mem_lookup_iff.mp hid, by simp⟩

theorem createSchemas_failed (space : ℤ) (code : ErrorCode) (k : Cluster)
    (h : ∃ p ∈ l, p.2 = .failed) : ∃ k', createSchemas space l code k = .error k' := by
  induction l generalizing code k with
  | nil => simp at h
  | cons p l ih =>
    obtain ⟨schema, o⟩ := p
    cases o with
    | failed => exact ⟨k, rfl⟩
    | ok => exact ih .succeeded _ (by simpa using h)
    | threw => exact ih code k (by simpa using h)

theorem createSchemas_ok (space : ℤ) (code : ErrorCode) (k : Cluster) (h : ∀ p ∈ l, p.2 ≠ .failed) :
    ∃ k', k'.tagIds = k.tagIds ∧ createSchemas space l code k =
      .ok (if ∃ p ∈ l, p.2 = .ok then .succeeded else code, k') := by
  induction l generalizing code k with
  | nil => exact ⟨k, rfl, by simp [createSchemas]⟩
  | cons p l ih =>
    obtain ⟨schema, o⟩ := p
    have hl : ∀ p ∈ l, p.2 ≠ .failed := fun p hp => h p (List.mem_cons_of_mem _ hp)
    cases o with
    | failed => exact absurd rfl (h _ List.mem_cons_self)
    | ok =>
      obtain ⟨k', hk', heq⟩ := ih .succeeded (k.createSchema space schema) hl
      refine ⟨k', hk', ?_⟩
      rw [createSchemas, heq]
      simp
    | threw =>
      obtain ⟨k', hk', heq⟩ := ih code k hl
      have hiff : (∃ p ∈ l, p.2 = .ok) ↔ ∃ p ∈ (schema, Outcome.threw) :: l, p.2 = .ok := by simp
      exact ⟨k', hk', by rw [createSchemas, heq, if_congr hiff rfl rfl]⟩

theorem createSystem_maps (o : SpaceOutcomes) (id : ℤ) (code : ErrorCode) (s : Server) :
    ∃ k, (createSystem o id code s).1 = { s with k2 := k } := by
  rw [createSystem]
  split <;> exact ⟨_, rfl⟩

/-- What `future_createSpace` does to the maps: a new name gets an entry, whatever happens
afterwards. -/
theorem createSpace_maps (o : SpaceOutcomes) (req : CreateSpaceReq) (s : Server) :
    ∃ k, (createSpace o req s).1 = { s with
      k2 := k
      spaceIdNameMap := if s.hasSpace req.spaceName then s.spaceIdNameMap
        else s.spaceIdNameMap.insert (toInt32 (s.spaceIdNameMap.keys.length + 1)) req.spaceName
          } := by
  rw [createSpace]
  cases hrep : s.hasSpace req.spaceName with
  | true =>
    split
    · exact ⟨_, rfl⟩
    · exact ⟨_, rfl⟩
    · exact createSystem_maps _ _ _ _
    · exact createSystem_maps _ _ _ _
  | false =>
    simp only [Bool.false_eq_true, if_false]
    split
    · exact ⟨_, rfl⟩
    · exact ⟨_, rfl⟩
    · exact createSystem_maps _ _ _ _
    · exact createSystem_maps _ _ _ _

theorem createTag_maps (o : TagOutcomes) (req : CreateSchemaReq) (s : Server) :
    ∃ k, (createTag o req s).1 = { s.bindName req.spaceId req.name with
      k2 := k
      spaceTagMap := s.spaceTagMap.insert (req.spaceId, s.schemaId req.spaceId req.name)
        (req.item (s.schemaId req.spaceId req.name)) } := by
  have htags : (s.bindName req.spaceId req.name).spaceTagMap = s.spaceTagMap := by
    rw [Server.bindName]
    split <;> rfl
  rw [createTag, ← htags]
  split
  · exact ⟨_, rfl⟩
  · exact ⟨_, rfl⟩
  · split <;> exact ⟨_, rfl⟩

end Effects

end K2Graph.Meta
