import K2Graph.Kvstore.LogEncoder
import K2Graph.Kvstore.Scan
import K2Graph.Lib.Groups

/-!
# The keys of vertices and edges

`NebulaKeyUtils` lays keys out as the memory of their fields, one behind the other: a
vertex tag is its partition and type, the vertex, the tag and a version; an edge is its
partition and type, the source, the edge type, the rank, the destination and a version.
Vertices and edges begin with the same bytes; they differ in their lengths, and in a bit
of the tag or edge type that is cleared for a tag and set for an edge.

Integers are in the byte order of the machine, which is little endian.  A version is
converted to big endian before it is put into a key, so that a later version, which counts
down from the largest number, comes first.

## Main results

* `isVertex_vertexKey`, `isEdge_edgeKey` and the readings of the fields.
* `vertexPrefix_prefix_vertexKey`, `vertexPrefix_prefix_edgeKey`,
  `edgePrefix_prefix_edgeKey` — which keys a scan meets.
-/

namespace K2Graph.Storaged

open List hiding not_lt
open LittleEndian Kvstore

/-! ### The layout -/

/-- `kTagEdgeMask`. -/
def tagEdgeMask : Int32 := 0x40000000

/-- `kEdgeMaskSet`. -/
def edgeMaskSet : Int32 := tagEdgeMask

/-- `kTagMaskSet`. -/
def tagMaskSet : Int32 := ~~~tagEdgeMask

/-- `cpp2::EdgeKey`. -/
structure EdgeKey where
  src : Int64
  edgeType : Int32
  ranking : Int64
  dst : Int64
  deriving DecidableEq

variable (part : Int32) (vId : Int64)

/-- `vertexPrefix` of a vertex, which is also `edgePrefix` of a vertex. -/
def vertexPrefix : Bytes := keyItem part .data ++ ofInt 8 vId.toInt

/-- `vertexPrefix` of a vertex and a tag. -/
def tagPrefix (tagId : Int32) : Bytes :=
  vertexPrefix part vId ++ ofInt 4 (tagId &&& tagMaskSet).toInt

def vertexKey (tagId : Int32) (tv : Int64) : Bytes :=
  tagPrefix part vId tagId ++ ofInt 8 tv.toInt

/-- `edgePrefix` of a source and an edge type. -/
def typePrefix (srcId : Int64) (type : Int32) : Bytes :=
  vertexPrefix part srcId ++ ofInt 4 (type ||| edgeMaskSet).toInt

variable (edge : EdgeKey)

/-- `edgePrefix` of an edge, and `prefix`, which is the same. -/
def edgePrefix : Bytes :=
  typePrefix part edge.src edge.edgeType ++ (ofInt 8 edge.ranking.toInt ++ ofInt 8 edge.dst.toInt)

def edgeKey (ev : Int64) : Bytes :=
  edgePrefix part edge ++ ofInt 8 ev.toInt

/-! ### Reading -/

variable (key : Bytes)

/-- `readInt<int32_t>` at an offset. -/
def int32At (offset : ℕ) : Int32 := .ofInt (toInt ((key.drop offset).take 4))

/-- `readInt<int64_t>` at an offset. -/
def int64At (offset : ℕ) : Int64 := .ofInt (toInt ((key.drop offset).take 8))

/-- `kVertexLen`. -/
def vertexLen : ℕ := 4 + 8 + 4 + 8

/-- `kEdgeLen`. -/
def edgeLen : ℕ := 4 + 8 + 4 + 8 + 8 + 8

/-- The type of a key: the lowest byte of its first word. -/
def hasType (type : KeyType) : Bool := key.head? = some (UInt8.ofInt type.toInt)

def isVertex : Bool :=
  key.length = vertexLen ∧ hasType key .data ∧ int32At key 12 &&& tagEdgeMask = 0

def isEdge : Bool :=
  key.length = edgeLen ∧ hasType key .data ∧ int32At key 12 &&& tagEdgeMask ≠ 0

/-- A field of a key of the right length; any other length is fatal. -/
def field {α : Type} (len : ℕ) (key : Bytes) (x : α) : Option α :=
  if key.length = len then some x else none

def getTagId : Option Int32 := field vertexLen key (int32At key 12)

def getVertexId : Option Int64 := field vertexLen key (int64At key 4)

/-- What `getEdgeType` makes of the stored word. -/
def typeOfWord (type : Int32) : Int32 := if 0 < type then type &&& tagMaskSet else type

/-- `std::abs` of an edge type. -/
def absType (edgeType : Int32) : Int32 := if edgeType < 0 then -edgeType else edgeType

def getEdgeType : Option Int32 := field edgeLen key (typeOfWord (int32At key 12))

def getSrcId : Option Int64 := field edgeLen key (int64At key 4)

def getRank : Option Int64 := field edgeLen key (int64At key 16)

def getDstId : Option Int64 := field edgeLen key (int64At key 24)

def edgeOfKey : EdgeKey :=
  ⟨int64At key 4, typeOfWord (int32At key 12), int64At key 16, int64At key 24⟩

def keyWithNoVersion : Bytes := key.take (key.length - 8)

/-- An edge with its type as it is stored. -/
def EdgeKey.stored : EdgeKey :=
  { edge with edgeType := edge.edgeType ||| edgeMaskSet }

def IsVertexKey (key : Bytes) : Prop :=
  ∃ tagId tv, key = vertexKey part vId tagId tv

def IsEdgeKey (key : Bytes) : Prop := ∃ ev, key = edgeKey part edge ev

/-- The first of the rows whose keys agree but for the version. -/
def IsNewest (rows : List (Bytes × Bytes)) (row : Bytes × Bytes) : Prop :=
  rows.find? (fun x => keyWithNoVersion x.1 = keyWithNoVersion row.1) = some row

variable {key : Bytes} (part : Int32) (type : KeyType) (vId : Int64) (tagId : Int32) (tv : Int64)
  (edge : EdgeKey) (ev : Int64)

/-! ### Lengths and types -/

@[simp] theorem length_keyItem : (keyItem part type).length = 4 :=
  length_ofInt 4 _

@[simp] theorem length_vertexPrefix : (vertexPrefix part vId).length = 12 := by
  rw [vertexPrefix, length_append, length_keyItem, length_ofInt]

@[simp] theorem length_tagPrefix : (tagPrefix part vId tagId).length = 16 := by
  rw [tagPrefix, length_append, length_vertexPrefix, length_ofInt]

@[simp] theorem length_vertexKey : (vertexKey part vId tagId tv).length = vertexLen := by
  rfl

@[simp] theorem length_typePrefix (srcId : Int64) (type : Int32) :
    (typePrefix part srcId type).length = 16 := by
  rw [typePrefix, length_append, length_vertexPrefix, length_ofInt]

@[simp] theorem length_edgePrefix : (edgePrefix part edge).length = 32 := by
  simp [edgePrefix]

@[simp] theorem length_edgeKey : (edgeKey part edge ev).length = edgeLen := by
  rfl

theorem head?_keyItem (rest : Bytes) :
    (keyItem part type ++ rest).head? = some (UInt8.ofInt type.toInt) := by
  have hbyte : (keyItem part type).head? = some (UInt8.ofInt type.toInt) := by
    have hmod : ((part.toInt * 256 + type.toInt) % 256 ^ 4).toNat % 256 = type.toInt.toNat := by
      cases type <;> simp only [KeyType.toInt] <;> omega
    rw [keyItem, ofInt, ofNat, hmod]
    cases type <;> rfl
  rw [head?_append, hbyte]
  rfl

theorem hasType_keyItem (type' : KeyType) (rest : Bytes) :
    hasType (keyItem part type ++ rest) type' = decide (type = type') := by
  rw [hasType, head?_keyItem]
  cases type <;> cases type' <;> rfl

theorem prefix_append_of_length {a b t : Bytes} (h : a.length = b.length) :
    a <+: b ++ t ↔ a = b := by
  constructor
  · rintro ⟨r, hr⟩
    exact (append_inj hr h).1
  · rintro rfl
    exact prefix_append a t

theorem ofInt_inj (hx : Fits n x) (hy : Fits n y) : ofInt n x = ofInt n y ↔ x = y := by
  refine ⟨fun h => ?_, fun h => by rw [h]⟩
  rw [← toInt_ofInt hx, h, toInt_ofInt hy]

theorem ofInt_int64_inj {x : Int64} : ofInt 8 x.toInt = ofInt 8 y.toInt ↔ x = y := by
  rw [ofInt_inj (fits_int64 x) (fits_int64 y), Int64.toInt_inj]

theorem ofInt_int32_inj {x : Int32} : ofInt 4 x.toInt = ofInt 4 y.toInt ↔ x = y := by
  rw [ofInt_inj (fits_int32 x) (fits_int32 y), Int32.toInt_inj]

/-! ### What stands in a key -/

theorem int32At_of_eq (pre : Bytes) (x : Int32) (hkey : pre ++ ofInt 4 x.toInt <+: key)
    (hpre : pre.length = offset) : int32At key offset = x := by
  obtain ⟨post, rfl⟩ := hkey
  rw [int32At, ← hpre, append_assoc, drop_left, take_left' (length_ofInt 4 _),
    toInt_ofInt (fits_int32 x), Int32.ofInt_toInt]

theorem int64At_of_eq (pre : Bytes) (x : Int64) (hkey : pre ++ ofInt 8 x.toInt <+: key)
    (hpre : pre.length = offset) : int64At key offset = x := by
  obtain ⟨post, rfl⟩ := hkey
  rw [int64At, ← hpre, append_assoc, drop_left, take_left' (length_ofInt 8 _),
    toInt_ofInt (fits_int64 x), Int64.ofInt_toInt]

theorem hasType_vertexKey : hasType (vertexKey part vId tagId tv) .data = true := by
  rw [vertexKey, tagPrefix, vertexPrefix, append_assoc, append_assoc, hasType_keyItem]
  rfl

theorem hasType_edgeKey : hasType (edgeKey part edge ev) .data = true := by
  rw [edgeKey, edgePrefix, typePrefix, vertexPrefix, append_assoc, append_assoc,
    append_assoc, hasType_keyItem]
  rfl

theorem int32At_vertexKey : int32At (vertexKey part vId tagId tv) 12 = tagId &&& tagMaskSet :=
  int32At_of_eq (vertexPrefix part vId) _ (prefix_append _ _) (length_vertexPrefix part vId)

theorem typePrefix_prefix_edgeKey_self :
    typePrefix part edge.src edge.edgeType <+: edgeKey part edge ev :=
  (prefix_append (typePrefix part edge.src edge.edgeType) _).trans (prefix_append _ _)

theorem int32At_edgeKey : int32At (edgeKey part edge ev) 12 = edge.edgeType ||| edgeMaskSet :=
  int32At_of_eq (vertexPrefix part edge.src) _ (typePrefix_prefix_edgeKey_self part edge ev)
    (length_vertexPrefix part _)

theorem and_tagMaskSet_and (tagId : Int32) : tagId &&& tagMaskSet &&& tagEdgeMask = 0 := by
  rw [Int32.and_assoc]
  exact Int32.and_zero

theorem or_edgeMaskSet_and (type : Int32) :
    (type ||| edgeMaskSet) &&& tagEdgeMask = tagEdgeMask := by
  apply Int32.toBitVec_inj.mp
  rw [edgeMaskSet, Int32.toBitVec_and, Int32.toBitVec_or]
  ext i hi
  rw [BitVec.getElem_and, BitVec.getElem_or]
  cases type.toBitVec[i] <;> simp

@[simp] theorem getTagId_vertexKey :
    getTagId (vertexKey part vId tagId tv) = some (tagId &&& tagMaskSet) := by
  rw [getTagId, field, if_pos (length_vertexKey part vId tagId tv), int32At_vertexKey]

@[simp] theorem getVertexId_vertexKey : getVertexId (vertexKey part vId tagId tv) = some vId := by
  refine congrArg some (int64At_of_eq (keyItem part .data) vId ?_ (length_keyItem part _))
  exact (prefix_append (vertexPrefix part vId) _).trans (prefix_append _ _)

@[simp] theorem isVertex_vertexKey : isVertex (vertexKey part vId tagId tv) = true := by
  rw [isVertex, int32At_vertexKey, and_tagMaskSet_and, hasType_vertexKey]
  rfl

@[simp] theorem isEdge_edgeKey : isEdge (edgeKey part edge ev) = true := by
  rw [isEdge, int32At_edgeKey, or_edgeMaskSet_and, hasType_edgeKey, length_edgeKey]
  rfl

@[simp] theorem isVertex_edgeKey : isVertex (edgeKey part edge ev) = false := by
  simp [isVertex, edgeLen, vertexLen]

@[simp] theorem isEdge_vertexKey : isEdge (vertexKey part vId tagId tv) = false := by
  simp [isEdge, edgeLen, vertexLen]

/-- **The tag of an edge key is not read**: the process ends. -/
@[simp] theorem getTagId_edgeKey : getTagId (edgeKey part edge ev) = none := by
  simp [getTagId, field, edgeLen, vertexLen]

@[simp] theorem getSrcId_edgeKey : getSrcId (edgeKey part edge ev) = some edge.src := by
  rw [getSrcId, field, if_pos (length_edgeKey part edge ev)]
  refine congrArg some (int64At_of_eq (keyItem part .data) _ ?_ (length_keyItem part _))
  exact (prefix_append (vertexPrefix part edge.src) _).trans
    (typePrefix_prefix_edgeKey_self part edge ev)

@[simp] theorem getRank_edgeKey : getRank (edgeKey part edge ev) = some edge.ranking := by
  rw [getRank, field, if_pos (length_edgeKey part edge ev)]
  refine congrArg some (int64At_of_eq (typePrefix part edge.src edge.edgeType) _ ?_
    (length_typePrefix part _ _))
  rw [edgeKey, edgePrefix, ← append_assoc, append_assoc]
  exact prefix_append _ _

@[simp] theorem getDstId_edgeKey : getDstId (edgeKey part edge ev) = some edge.dst := by
  rw [getDstId, field, if_pos (length_edgeKey part edge ev)]
  refine congrArg some (int64At_of_eq
    (typePrefix part edge.src edge.edgeType ++ ofInt 8 edge.ranking.toInt) _ ?_ ?_)
  · rw [edgeKey, edgePrefix, ← append_assoc]
    exact prefix_append _ _
  · rw [length_append, length_typePrefix, length_ofInt]

/-! ### What a scan meets -/

variable {part vId tagId tv edge ev}

theorem vertexPrefix_inj : vertexPrefix part vId = vertexPrefix part vId' ↔ vId = vId' := by
  rw [vertexPrefix, vertexPrefix, append_cancel_left_eq, ofInt_int64_inj]

theorem tagPrefix_inj : tagPrefix part vId tagId = tagPrefix part vId' tagId' ↔
      vId = vId' ∧ tagId &&& tagMaskSet = tagId' &&& tagMaskSet := by
  rw [tagPrefix, tagPrefix, append_eq_append_iff_of_size_eq_left (by simp), vertexPrefix_inj,
    ofInt_int32_inj]

theorem typePrefix_inj {type : Int32} : typePrefix part src type = typePrefix part src' type' ↔
      src = src' ∧ type ||| edgeMaskSet = type' ||| edgeMaskSet := by
  rw [typePrefix, typePrefix, append_eq_append_iff_of_size_eq_left (by simp),
    vertexPrefix_inj, ofInt_int32_inj]

/-- **Two edges have the same keys** when they agree in what a key holds. -/
theorem edgePrefix_inj :
    edgePrefix part edge = edgePrefix part edge' ↔ edge.stored = edge'.stored := by
  rw [edgePrefix, edgePrefix, append_eq_append_iff_of_size_eq_left (by simp), typePrefix_inj,
    append_eq_append_iff_of_size_eq_left (by simp), ofInt_int64_inj, ofInt_int64_inj,
    EdgeKey.stored, EdgeKey.stored, EdgeKey.mk.injEq, and_assoc]

theorem vertexPrefix_prefix_vertexKey :
    vertexPrefix part vId <+: vertexKey part vId' tagId tv ↔ vId = vId' := by
  rw [vertexKey, tagPrefix, append_assoc, prefix_append_of_length (by simp), vertexPrefix_inj]

/-- **The prefix of a vertex is also the prefix of the edges that leave it.** -/
theorem vertexPrefix_prefix_edgeKey :
    vertexPrefix part vId <+: edgeKey part edge ev ↔ vId = edge.src := by
  rw [edgeKey, edgePrefix, typePrefix, append_assoc, append_assoc,
    prefix_append_of_length (by simp), vertexPrefix_inj]

theorem tagPrefix_prefix_vertexKey : tagPrefix part vId tagId <+: vertexKey part vId' tagId' tv ↔
      vId = vId' ∧ tagId &&& tagMaskSet = tagId' &&& tagMaskSet := by
  rw [vertexKey, prefix_append_of_length (by simp), tagPrefix_inj]

theorem edgePrefix_prefix_edgeKey :
    edgePrefix part edge <+: edgeKey part edge' ev ↔ edge.stored = edge'.stored := by
  rw [edgeKey, prefix_append_of_length (by simp), edgePrefix_inj]

/-- The prefix of a tag is not that of an edge, because of the bit. -/
theorem not_tagPrefix_prefix_edgeKey : ¬ tagPrefix part vId tagId <+: edgeKey part edge ev := by
  rw [edgeKey, edgePrefix, append_assoc, prefix_append_of_length (by simp), tagPrefix,
    typePrefix, append_eq_append_iff_of_size_eq_left (by simp), ofInt_int32_inj]
  rintro ⟨-, hword⟩
  have hbit := or_edgeMaskSet_and edge.edgeType
  rw [← hword, and_tagMaskSet_and] at hbit
  exact absurd hbit (by decide)

theorem not_edgePrefix_prefix_vertexKey :
    ¬ edgePrefix part edge <+: vertexKey part vId tagId tv := by
  intro h
  have hlen := h.length_le
  rw [length_edgePrefix, length_vertexKey] at hlen
  exact absurd hlen (by decide)

/-! ### Fields and bytes -/

variable (part)

theorem keyItem_prefix_edgePrefix (edge : EdgeKey) : keyItem part .data <+: edgePrefix part edge :=
  ((prefix_append _ _).trans (prefix_append _ _)).trans (prefix_append _ _)

theorem take_drop_of_int64At (h : offset + 8 ≤ key.length) (h' : offset + 8 ≤ key'.length)
    (heq : int64At key offset = int64At key' offset) :
    (key.drop offset).take 8 = (key'.drop offset).take 8 := by
  have hlen (k : Bytes) (hk : offset + 8 ≤ k.length) : ((k.drop offset).take 8).length = 8 := by
    rw [length_take, length_drop]
    omega
  have hint (k : Bytes) (hk : offset + 8 ≤ k.length) :
      (int64At k offset).toInt = toInt ((k.drop offset).take 8) := by
    have hfits := fits_toInt ((k.drop offset).take 8)
    rw [hlen k hk, Fits] at hfits
    rw [int64At, Int64.toInt_ofInt_of_le (by omega) (by omega)]
  refine toInt_inj ((hlen key h).trans (hlen key' h').symm) ?_
  rw [← hint key h, heq, hint key' h']

theorem take_drop_of_int32At (h : offset + 4 ≤ key.length) (h' : offset + 4 ≤ key'.length)
    (heq : int32At key offset = int32At key' offset) :
    (key.drop offset).take 4 = (key'.drop offset).take 4 := by
  have hlen (k : Bytes) (hk : offset + 4 ≤ k.length) : ((k.drop offset).take 4).length = 4 := by
    rw [length_take, length_drop]
    omega
  have hint (k : Bytes) (hk : offset + 4 ≤ k.length) :
      (int32At k offset).toInt = toInt ((k.drop offset).take 4) := by
    have hfits := fits_toInt ((k.drop offset).take 4)
    rw [hlen k hk, Fits] at hfits
    rw [int32At, Int32.toInt_ofInt_of_le (by omega) (by omega)]
  refine toInt_inj ((hlen key h).trans (hlen key' h').symm) ?_
  rw [← hint key h, heq, hint key' h']

theorem int64At_congr (hn : offset + 8 ≤ n) (h : key.take n = key'.take n) :
    int64At key offset = int64At key' offset := by
  have htake (k : Bytes) : (k.drop offset).take 8 = ((k.take n).drop offset).take 8 := by
    rw [drop_take, take_take, min_eq_left (by omega)]
  rw [int64At, int64At, htake key, htake key', h]

theorem and_not_or_and (word mask : Int32) : (word &&& ~~~mask) ||| (word &&& mask) = word := by
  apply Int32.toBitVec_inj.mp
  rw [Int32.toBitVec_or, Int32.toBitVec_and, Int32.toBitVec_and, Int32.toBitVec_not]
  ext i hi
  simp only [BitVec.getElem_or, BitVec.getElem_and, BitVec.getElem_not]
  cases word.toBitVec[i] <;> cases mask.toBitVec[i] <;> rfl

theorem and_tagEdgeMask_of_ne_zero (h : word &&& tagEdgeMask ≠ 0) :
    word &&& tagEdgeMask = tagEdgeMask := by
  have htwo : tagEdgeMask.toBitVec = BitVec.twoPow 32 30 := by decide
  have hand := BitVec.and_twoPow word.toBitVec 30
  rw [← htwo, ← Int32.toBitVec_and] at hand
  split at hand
  · exact Int32.toBitVec_inj.mp hand
  · exact absurd (Int32.toBitVec_inj.mp hand) h

theorem and_nonneg (mask : Int32) (h : 0 < word) : 0 ≤ word &&& mask := by
  have hsign : ∀ x : Int32, 0 ≤ x ↔ x.toBitVec.msb = false := by
    intro x
    rw [Int32.le_iff_toInt_le, BitVec.msb_eq_toInt, decide_eq_false_iff_not, not_lt]
    rfl
  have hword := (hsign word).mp (Int32.le_of_lt h)
  rw [hsign, Int32.toBitVec_and, BitVec.msb_and, hword, Bool.false_and]

theorem typeOfWord_inj (h : word &&& tagEdgeMask ≠ 0) (h' : word' &&& tagEdgeMask ≠ 0)
    (heq : typeOfWord word = typeOfWord word') : word = word' := by
  have hzero {w : Int32} (hw : w &&& tagEdgeMask ≠ 0) : w ≠ 0 := by
    rintro rfl
    exact hw Int32.zero_and
  -- a positive word and a negative one have types of different signs
  have hmixed {v w : Int32} (hv : 0 < v) (hw : ¬ 0 < w) (hbit : w &&& tagEdgeMask ≠ 0)
      (hvw : v &&& tagMaskSet = w) : False := by
    have hle : w ≤ 0 := Int32.not_lt.mp hw
    have hge : 0 ≤ w := hvw ▸ and_nonneg tagMaskSet hv
    exact hzero hbit (Int32.le_antisymm hle hge)
  rw [typeOfWord, typeOfWord] at heq
  split_ifs at heq with hpos hpos' hpos'
  · rw [← and_not_or_and word tagEdgeMask, ← and_not_or_and word' tagEdgeMask,
      and_tagEdgeMask_of_ne_zero h, and_tagEdgeMask_of_ne_zero h']
    exact congrArg (· ||| tagEdgeMask) heq
  · exact (hmixed hpos hpos' h' heq).elim
  · exact (hmixed hpos' hpos h heq.symm).elim
  · exact heq

theorem typeOfWord_or (h : word &&& tagEdgeMask ≠ 0) :
    typeOfWord word ||| edgeMaskSet = word := by
  have hword : (word &&& tagMaskSet) ||| edgeMaskSet = word := by
    have hsplit := and_not_or_and word tagEdgeMask
    rw [and_tagEdgeMask_of_ne_zero h] at hsplit
    exact hsplit
  rw [typeOfWord]
  split_ifs
  · exact hword
  · calc word ||| edgeMaskSet =
    (word &&& tagMaskSet) ||| edgeMaskSet ||| edgeMaskSet := by rw [hword]
      _ = word := by rw [Int32.or_assoc, Int32.or_self, hword]

theorem int32At_of_edgePrefix {part : Int32} (h : edgePrefix part edge <+: key) :
    int32At key 12 = edge.edgeType ||| edgeMaskSet := by
  refine int32At_of_eq (vertexPrefix part edge.src) _ ?_ (length_vertexPrefix part _)
  exact (prefix_append (typePrefix part edge.src edge.edgeType) _).trans h

theorem int64At_vertexKey (vId : Int64) (tagId : Int32) (tv : Int64) :
    int64At (vertexKey part vId tagId tv) 4 = vId := by
  have h := getVertexId_vertexKey part vId tagId tv
  rwa [getVertexId, field, if_pos (length_vertexKey part vId tagId tv), Option.some.injEq] at h

variable (edge : EdgeKey) (ev : Int64)

theorem edgeOfKey_edgeKey : edgeOfKey (edgeKey part edge ev) =
      { edge with edgeType := typeOfWord (edge.edgeType ||| edgeMaskSet) } := by
  have hsrc := getSrcId_edgeKey part edge ev
  have hrank := getRank_edgeKey part edge ev
  have hdst := getDstId_edgeKey part edge ev
  have hlen := length_edgeKey part edge ev
  rw [getSrcId, field, if_pos hlen, Option.some.injEq] at hsrc
  rw [getRank, field, if_pos hlen, Option.some.injEq] at hrank
  rw [getDstId, field, if_pos hlen, Option.some.injEq] at hdst
  rw [edgeOfKey, hsrc, hrank, hdst, int32At_edgeKey]

theorem edgePrefix_edgeOfKey :
    edgePrefix part (edgeOfKey (edgeKey part edge ev)) = edgePrefix part edge := by
  have hbit : (edge.edgeType ||| edgeMaskSet) &&& tagEdgeMask ≠ 0 := by
    rw [or_edgeMaskSet_and]
    decide
  rw [edgePrefix_inj, edgeOfKey_edgeKey, EdgeKey.mk.injEq]
  exact ⟨rfl, typeOfWord_or hbit, rfl, rfl⟩

theorem tagPrefix_and (vId : Int64) (tagId : Int32) :
    tagPrefix part vId (tagId &&& tagMaskSet) = tagPrefix part vId tagId := by
  rw [tagPrefix_inj, Int32.and_assoc]
  exact ⟨rfl, rfl⟩

theorem take_eq_of_word {part : Int32} (hpart : keyItem part .data <+: key)
    (hpart' : keyItem part .data <+: key') (hlen : 16 ≤ key.length) (hlen' : 16 ≤ key'.length)
    (hvertex : int64At key 4 = int64At key' 4) (hword : int32At key 12 = int32At key' 12) :
    key.take 16 = key'.take 16 := by
  have hitem (k : Bytes) (hk : keyItem part .data <+: k) : k.take 4 = keyItem part .data := by
    obtain ⟨rest, rfl⟩ := hk
    exact take_left' (length_keyItem part _)
  have h8 := take_drop_of_int64At (by omega) (by omega) hvertex
  have h4 := take_drop_of_int32At (by omega) (by omega) hword
  have htwelve : key.take (4 + 8) = key'.take (4 + 8) := by
    rw [take_add, take_add, hitem key hpart, hitem key' hpart', h8]
  show key.take (12 + 4) = key'.take (12 + 4)
  rw [take_add, take_add, h4]
  exact congrArg (· ++ _) htwelve

theorem take_eq_of_edge {part : Int32} (hpart : keyItem part .data <+: key)
    (hpart' : keyItem part .data <+: key') (hlen : key.length = edgeLen)
    (hlen' : key'.length = edgeLen) (hsrc : int64At key 4 = int64At key' 4)
    (htype : int32At key 12 = int32At key' 12) (hrank : int64At key 16 = int64At key' 16)
    (hdst : int64At key 24 = int64At key' 24) : key.take 32 = key'.take 32 := by
  rw [edgeLen] at hlen hlen'
  have hsixteen := take_eq_of_word hpart hpart' (by omega) (by omega) hsrc htype
  have hr := take_drop_of_int64At (by omega) (by omega) hrank
  have hd := take_drop_of_int64At (by omega) (by omega) hdst
  have hrankEnd : key.take (16 + 8) = key'.take (16 + 8) := by
    rw [take_add, take_add, hr, hsixteen]
  show key.take (24 + 8) = key'.take (24 + 8)
  rw [take_add, take_add, hd]
  exact congrArg (· ++ _) hrankEnd

/-! ### Versions -/

/-- In a scan the keys of one length that agree but for the version stand together. -/
theorem grouped_keyWithNoVersion (hsorted : rows.Pairwise fun x y => x.1 < y.1)
    (hlen : ∀ x ∈ rows, x.1.length = len) :
    Grouped (fun x : Bytes × Bytes => keyWithNoVersion x.1) rows := by
  intro a b c hsub heq
  simp only at heq ⊢
  have hpairs : [a, b, c].Pairwise fun x y => x.1 < y.1 := hsorted.sublist hsub
  have hab : a.1 < b.1 := rel_of_pairwise_cons hpairs (by simp)
  have hbc : b.1 < c.1 := rel_of_pairwise_cons hpairs.of_cons (by simp)
  have hlens : ∀ x ∈ [a, b, c], x.1.length = len := fun x hx => hlen x (hsub.subset hx)
  have hpa : keyWithNoVersion a.1 <+: a.1 := take_prefix _ _
  have hpc : keyWithNoVersion a.1 <+: c.1 := by
    have hpc := take_prefix (c.1.length - 8) c.1
    rw [← keyWithNoVersion, ← heq] at hpc
    exact hpc
  have hpb := prefix_of_between hpa hpc (List.le_of_lt hab) (List.le_of_lt hbc)
  have hsame : a.1.length = b.1.length := (hlens a (by simp)).trans (hlens b (by simp)).symm
  have htake := prefix_iff_eq_take.mp hpb
  rw [htake, keyWithNoVersion, keyWithNoVersion, length_take, ← hsame,
    min_eq_left (Nat.sub_le _ _)]

theorem keyWithNoVersion_of_vertex (h : key.length = vertexLen) :
    keyWithNoVersion key = key.take 16 := by
  rw [keyWithNoVersion, h]
  rfl

theorem keyWithNoVersion_of_edge (h : key.length = edgeLen) :
    keyWithNoVersion key = key.take 32 := by
  rw [keyWithNoVersion, h]
  rfl

@[simp] theorem keyWithNoVersion_vertexKey (vId : Int64) (tagId : Int32) (tv : Int64) :
    keyWithNoVersion (vertexKey part vId tagId tv) = tagPrefix part vId tagId := by
  exact take_left' (length_tagPrefix part vId tagId)

@[simp] theorem keyWithNoVersion_edgeKey :
    keyWithNoVersion (edgeKey part edge ev) = edgePrefix part edge := by
  exact take_left' (length_edgePrefix part edge)

end K2Graph.Storaged
