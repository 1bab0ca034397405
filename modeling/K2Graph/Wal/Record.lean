import K2Graph.Lib.Bytes

/-!
# The records of a write-ahead log

`FileBasedWal::appendLogInternal` writes a log as one record: its id, its term, the
length of the message, the cluster, the message, and the length once more.  All
functions that read a file read these fields at fixed offsets.

## Main results

* `Stands.readId` and the like — reading the fields of a record.
-/

namespace K2Graph.Wal

open List LittleEndian

/-- A log of a write-ahead log. -/
structure Record where
  /-- The log id. -/
  id : ℤ
  /-- The term. -/
  term : ℤ
  /-- The cluster. -/
  cluster : ℤ
  /-- The message. -/
  msg : List UInt8
  deriving DecidableEq

/-- The most bytes one `write` takes. -/
def maxWrite : ℕ := 0x7ffff000

namespace Record

/-- `strBuf` of `appendLogInternal`. -/
def bytes (r : Record) : List UInt8 :=
  ofInt 8 r.id ++ (ofInt 8 r.term ++ (ofInt 4 r.msg.length ++ (ofInt 8 r.cluster ++
    (r.msg ++ ofInt 4 r.msg.length))))

@[simp] theorem length_bytes (r : Record) : r.bytes.length = 32 + r.msg.length := by
  simp only [bytes, length_append, length_ofInt]
  omega

/-- A record with the id of a log, which is positive and not the last number there
is, with fields of the width they have, and that one `write` takes. -/
structure Valid (r : Record) : Prop where
  pos : 0 < r.id
  lt : r.id < 2 ^ 63 - 1
  term : Fits 8 r.term
  cluster : Fits 8 r.cluster
  msg : 32 + r.msg.length ≤ maxWrite

instance (r : Record) : Decidable r.Valid :=
  decidable_of_iff
    (0 < r.id ∧ r.id < 2 ^ 63 - 1 ∧ Fits 8 r.term ∧ Fits 8 r.cluster ∧
      32 + r.msg.length ≤ maxWrite)
    ⟨fun ⟨h₁, h₂, h₃, h₄, h₅⟩ => ⟨h₁, h₂, h₃, h₄, h₅⟩,
      fun h => ⟨h.pos, h.lt, h.term, h.cluster, h.msg⟩⟩

variable {r : Record}

theorem Valid.fits_id (h : r.Valid) : Fits 8 r.id := by
  have hpos := h.pos
  have hlt := h.lt
  constructor <;> omega

theorem Valid.fits_length (h : r.Valid) : Fits 4 r.msg.length := by
  have hmsg := h.msg
  unfold maxWrite at hmsg
  constructor <;> omega

end Record

/-! ### Reading a record -/

/-- The record stands in the file at the offset. -/
def Stands (bytes : List UInt8) (pos : ℤ) (r : Record) : Prop :=
  ∃ pre post, bytes = pre ++ (r.bytes ++ post) ∧ pos = pre.length

section

variable (h : Stands bytes pos r)
include h

theorem Stands.readPart (a : List UInt8) (hbytes : r.bytes = a ++ (s ++ c)) :
    readAt bytes (pos + a.length) s.length = some s := by
  obtain ⟨pre, post, rfl, rfl⟩ := h
  exact readAt_of_eq (pre ++ a) ⟨c ++ post, by simp [hbytes]⟩ (by simp) rfl

theorem Stands.readNumber (hx : Fits n x) (a : List UInt8)
    (hbytes : r.bytes = a ++ (ofInt n x ++ c)) : readInt bytes (pos + a.length) n = some x := by
  have hread := h.readPart a hbytes
  rw [length_ofInt] at hread
  rw [readInt, hread, Option.map_some, toInt_ofInt hx]

theorem Stands.readId (hr : r.Valid) : readInt bytes pos 8 = some r.id := by
  simpa using h.readNumber hr.fits_id [] rfl

theorem Stands.readTerm (hr : r.Valid) :
    readInt bytes (pos + 8) 8 = some r.term := by
  simpa using h.readNumber hr.term (ofInt 8 r.id) rfl

theorem Stands.readLen (hr : r.Valid) :
    readInt bytes (pos + 16) 4 = some (r.msg.length : ℤ) := by
  simpa using h.readNumber hr.fits_length (ofInt 8 r.id ++ ofInt 8 r.term) rfl

theorem Stands.readCluster (hr : r.Valid) :
    readInt bytes (pos + 20) 8 = some r.cluster := by
  simpa using h.readNumber hr.cluster
    (ofInt 8 r.id ++ (ofInt 8 r.term ++ ofInt 4 r.msg.length)) rfl

theorem Stands.readMsg :
    readAt bytes (pos + 28) r.msg.length = some r.msg := by
  simpa using h.readPart (ofInt 8 r.id ++ (ofInt 8 r.term ++ (ofInt 4 r.msg.length ++
    ofInt 8 r.cluster))) rfl

theorem Stands.readFoot (hr : r.Valid) :
    readInt bytes (pos + 28 + r.msg.length) 4 = some (r.msg.length : ℤ) := by
  convert h.readNumber hr.fits_length (c := []) (ofInt 8 r.id ++ (ofInt 8 r.term ++
    (ofInt 4 r.msg.length ++ (ofInt 8 r.cluster ++ r.msg)))) (by simp [Record.bytes]) using 2
  simp only [length_append, length_ofInt]
  omega

theorem Stands.append (more : List UInt8) :
    Stands (bytes ++ more) pos r := by
  obtain ⟨pre, post, rfl, rfl⟩ := h
  exact ⟨pre, post ++ more, by simp only [append_assoc], rfl⟩

end

/-! ### The content of a file -/

def fileBytes (rs : List Record) : List UInt8 := rs.flatMap Record.bytes

@[simp] theorem fileBytes_nil : fileBytes [] = [] := rfl

@[simp] theorem fileBytes_cons (r : Record) (rs : List Record) :
    fileBytes (r :: rs) = r.bytes ++ fileBytes rs := rfl

@[simp] theorem fileBytes_append (rs rs' : List Record) :
    fileBytes (rs ++ rs') = fileBytes rs ++ fileBytes rs' := by
  simp [fileBytes]

theorem stands_fileBytes (rs : List Record) (r : Record) (rs' : List Record) :
    Stands (fileBytes (rs ++ r :: rs')) (fileBytes rs).length r :=
  ⟨fileBytes rs, fileBytes rs', by rw [fileBytes_append, fileBytes_cons], rfl⟩

end K2Graph.Wal
