import K2Graph.Base.SupportedType
import K2Graph.Filter.Expression
import K2Graph.Storaged.Keys

/-!
# Rows and index keys

The value under the key of a vertex tag or of an edge is a row, which is read with the
schema of the version that the row names.  The reader is an argument here: opening a row
and reading a property each give a value, or fail, or end the process — `RowReader` logs
fatally on a header that is too short, and a number that is cut off throws inside a
function that is `noexcept`.

An index key holds the partition and type, the index, the values of the indexed columns,
the lengths of the strings among them, and the vertex or the ends and the rank of the edge.
-/

namespace K2Graph.Storaged

open List hiding lt_of_le_of_lt
open LittleEndian Kvstore
open Filter (VariantType Double)

/-! ### Reading rows -/

/-- How reading ends. -/
inductive Read (α : Type)
  /-- A fatal log, a failed check or an exception that nobody catches. -/
  | fatal
  /-- A null pointer or an error code. -/
  | null
  | ok (value : α)
  deriving DecidableEq

/-- An open row, given by `getPropByName`. -/
structure RowReader where
  getPropByName : Bytes → Read VariantType

/-- What the rows of tags and edges are read with. -/
structure SchemaManager where
  getTagPropReader : Int32 → Bytes → Read RowReader
  getEdgePropReader : Int32 → Bytes → Read RowReader

/-! ### Indexes -/

/-- `cpp2::ColumnDef`. -/
structure ColumnDef where
  name : Bytes
  type : SupportedType
  deriving DecidableEq

/-- `cpp2::IndexItem`, of a tag or of an edge type. -/
structure IndexItem where
  indexId : Int32
  schemaId : Int32
  fields : List ColumnDef

abbrev IndexValues := List (SupportedType × Bytes)

/-- The bytes of a number, most significant byte first. -/
def bigEndian (n x : ℕ) : Bytes := (ofNat n x).reverse

/-- `encodeInt64`: the sign bit is inverted, so that the order of the bytes is the order of
the numbers. -/
def encodeInt64 (v : Int64) : Bytes := bigEndian 8 (v ^^^ Int64.minValue).toUInt64.toNat

variable (v : Double)

/-- `v < 0`: neither zero nor NaN, with the sign bit set. -/
def isNegative : Bool := 0x8000000000000000 < v.bits ∧ v.bits ≤ 0xFFF0000000000000

/-- The bits that `encodeDouble` puts into a key. -/
def encodeBits : UInt64 :=
  if isNegative v then (-(Int64.maxValue + v.bits.toInt64)).toUInt64 else v.bits

def encodeDouble : Bytes := bigEndian 8 (encodeBits v ^^^ 0x8000000000000000).toNat

def encodeVariant : VariantType → Bytes
  | .int v => encodeInt64 v
  | .double v => encodeDouble v
  | .bool v => [if v then 1 else 0]
  | .string v => v

/-- `indexRaw`: the values, and then the lengths of the strings. -/
def indexRaw (values : IndexValues) : Bytes :=
  values.flatMap Prod.snd ++
    (values.filter fun value => value.1 = .string).flatMap fun value => ofInt 4 value.2.length

variable (part indexId : Int32)

def indexPrefix : Bytes := keyItem part .index ++ ofInt 4 indexId.toInt

def vertexIndexKey (vId : Int64) (values : IndexValues) : Bytes :=
  indexPrefix part indexId ++ (indexRaw values ++ ofInt 8 vId.toInt)

def edgeIndexKey (edge : EdgeKey) (values : IndexValues) : Bytes :=
  indexPrefix part indexId ++ (indexRaw values ++
    (ofInt 8 edge.src.toInt ++ ofInt 8 edge.ranking.toInt ++ ofInt 8 edge.dst.toInt))

def collectIndexValues (reader : RowReader) : List ColumnDef → Read IndexValues
  | [] => .ok []
  | col :: cols =>
      match reader.getPropByName col.name with
      | .fatal => .fatal
      | .null => .null
      | .ok v =>
          match collectIndexValues reader cols with
          | .fatal => .fatal
          | .null => .null
          | .ok values => .ok ((col.type, encodeVariant v) :: values)

/-! ### Index keys are no data keys -/

theorem hasType_vertexIndexKey (vId : Int64) (values : IndexValues) :
    hasType (vertexIndexKey part indexId vId values) .data = false := by
  rw [vertexIndexKey, indexPrefix, append_assoc, hasType_keyItem]
  rfl

theorem hasType_edgeIndexKey (edge : EdgeKey) (values : IndexValues) :
    hasType (edgeIndexKey part indexId edge values) .data = false := by
  rw [edgeIndexKey, indexPrefix, append_assoc, hasType_keyItem]
  rfl

/-! ### Order -/

theorem append_lt_append_of_lt {a : Bytes} (hlen : a.length = b.length) (h : a < b) :
    a ++ c < b ++ d := by
  induction a generalizing b with
  | nil =>
    rw [eq_nil_of_length_eq_zero hlen.symm] at h
    exact absurd h (List.lt_irrefl [])
  | cons x a ih =>
    cases b with
    | nil => cases hlen
    | cons y b =>
      rw [cons_lt_cons_iff] at h
      rw [cons_append, cons_append, cons_lt_cons_iff]
      refine h.imp_right fun h => ⟨h.1, ih (Nat.succ.inj hlen) h.2⟩

theorem bigEndian_le_bigEndian (h : x ≤ y) (hy : y < 256 ^ n) : bigEndian n x ≤ bigEndian n y := by
  induction n generalizing x y with
  | zero => exact List.le_refl _
  | succ n ih =>
    have hsplit (z : ℕ) : bigEndian (n + 1) z = bigEndian n (z / 256) ++
      [UInt8.ofNat (z % 256)] := by
      rw [bigEndian, ofNat, reverse_cons, bigEndian]
    have hdiv : y / 256 < 256 ^ n := Nat.div_lt_of_lt_mul (by rw [← pow_succ']; exact hy)
    have hle := ih (Nat.div_le_div_right h) hdiv
    rw [hsplit, hsplit]
    by_cases heq : x / 256 = y / 256
    · -- the last byte decides
      rw [heq, append_le_append_iff, cons_le_cons_iff]
      have hlast : x % 256 ≤ y % 256 := by omega
      rcases lt_or_eq_of_le hlast with hlt | heq'
      · rw [UInt8.lt_iff_toNat_lt, UInt8.toNat_ofNat', UInt8.toNat_ofNat']
        omega
      · exact .inr ⟨by rw [heq'], List.le_refl _⟩
    · have hne : bigEndian n (x / 256) ≠ bigEndian n (y / 256) := by
        intro hbytes
        have hnat := congrArg toNat (reverse_injective hbytes)
        rw [toNat_ofNat (lt_of_le_of_lt (Nat.div_le_div_right h) hdiv), toNat_ofNat hdiv] at hnat
        exact heq hnat
      have hlt : bigEndian n (x / 256) < bigEndian n (y / 256) :=
        (List.le_iff_lt_or_eq.mp hle).resolve_right hne
      refine List.le_of_lt (append_lt_append_of_lt ?_ hlt)
      rw [bigEndian, bigEndian, length_reverse, length_reverse, length_ofNat, length_ofNat]

/-! ### What an index key is of -/

variable {part indexId : Int32}

theorem vertexIndexKey_inj
    (h : vertexIndexKey part indexId vId values = vertexIndexKey part indexId vId' values') :
    vId = vId' := by
  rw [vertexIndexKey, vertexIndexKey, ← append_assoc, ← append_assoc] at h
  exact ofInt_int64_inj.mp (append_inj' h (by rw [length_ofInt, length_ofInt])).2

theorem edgeIndexKey_inj
    (h : edgeIndexKey part indexId edge values = edgeIndexKey part indexId edge' values') :
    edge.src = edge'.src ∧ edge.ranking = edge'.ranking ∧ edge.dst = edge'.dst := by
  rw [edgeIndexKey, edgeIndexKey, ← append_assoc (indexPrefix _ _),
    ← append_assoc (indexPrefix _ _)] at h
  have hends := (append_inj' h (by simp)).2
  obtain ⟨hfirst, hdst⟩ := append_inj' hends (by rw [length_ofInt, length_ofInt])
  obtain ⟨hsrc, hrank⟩ := append_inj' hfirst (by rw [length_ofInt, length_ofInt])
  exact ⟨ofInt_int64_inj.mp hsrc, ofInt_int64_inj.mp hrank, ofInt_int64_inj.mp hdst⟩

end K2Graph.Storaged
