import K2Graph.Filter.Expression
import K2Graph.Lib.Bytes
import K2Graph.Lib.Except

/-!
# Expressions as bytes

`Expression::encode` writes the kind of a node, its operator and its operands one after
the other; texts and argument lists have their length before them, in 16 bits.
`Expression::decode` reads the same, node by node.

A longer text or argument list is written in full behind a length that was cut off, and
`UUIDExpression` cannot be written at all: it throws in a `noexcept` function.  A build
with `DCHECK`s gives up on the arithmetic operator `^`, which the check in `decode` has
forgotten.

## Main results

* `roundTrips_iff` — the trees that survive.
* `not_roundTrips` — some that do not.
-/

namespace K2Graph.Filter

open List LittleEndian

/-! ### Bytes of enumerators -/

/-- `kindToInt(kind())`. -/
def PropertyKind.toByte : PropertyKind → UInt8
  | .sourceProp => 8
  | .edgeRank => 9
  | .edgeDstId => 10
  | .edgeSrcId => 11
  | .edgeType => 12
  | .aliasProp => 13
  | .variableProp => 14
  | .destProp => 15
  | .inputProp => 16

variable (b : UInt8)

/-- The kind of a property, as `makeExpr` finds it. -/
def PropertyKind.ofByte? : Option PropertyKind :=
  match b with
  | 8 => some .sourceProp
  | 9 => some .edgeRank
  | 10 => some .edgeDstId
  | 11 => some .edgeSrcId
  | 12 => some .edgeType
  | 13 => some .aliasProp
  | 14 => some .variableProp
  | 15 => some .destProp
  | 16 => some .inputProp
  | _ => none

def UnaryOp.toByte : UnaryOp → UInt8
  | .plus => 0
  | .negate => 1
  | .not => 2

def UnaryOp.ofByte? : Option UnaryOp :=
  match b with
  | 0 => some .plus
  | 1 => some .negate
  | 2 => some .not
  | _ => none

def ColumnType.toByte : ColumnType → UInt8
  | .int => 0
  | .string => 1
  | .double => 2
  | .bool => 3
  | .timestamp => 4

def ColumnType.ofByte? : Option ColumnType :=
  match b with
  | 0 => some .int
  | 1 => some .string
  | 2 => some .double
  | 3 => some .bool
  | 4 => some .timestamp
  | _ => none

def ArithmeticOp.toByte : ArithmeticOp → UInt8
  | .add => 0
  | .sub => 1
  | .mul => 2
  | .div => 3
  | .mod => 4
  | .xor => 5

def ArithmeticOp.ofByte? : Option ArithmeticOp :=
  match b with
  | 0 => some .add
  | 1 => some .sub
  | 2 => some .mul
  | 3 => some .div
  | 4 => some .mod
  | 5 => some .xor
  | _ => none

def RelationalOp.toByte : RelationalOp → UInt8
  | .lt => 0
  | .le => 1
  | .gt => 2
  | .ge => 3
  | .eq => 4
  | .ne => 5
  | .contains => 6

def RelationalOp.ofByte? : Option RelationalOp :=
  match b with
  | 0 => some .lt
  | 1 => some .le
  | 2 => some .gt
  | 3 => some .ge
  | 4 => some .eq
  | 5 => some .ne
  | 6 => some .contains
  | _ => none

def LogicalOp.toByte : LogicalOp → UInt8
  | .and => 0
  | .or => 1
  | .xor => 2

def LogicalOp.ofByte? : Option LogicalOp :=
  match b with
  | 0 => some .and
  | 1 => some .or
  | 2 => some .xor
  | _ => none

@[simp] theorem UnaryOp.ofByte?_toByte (op : UnaryOp) : ofByte? op.toByte = some op := by
  cases op <;> rfl

@[simp] theorem ColumnType.ofByte?_toByte (t : ColumnType) : ofByte? t.toByte = some t := by
  cases t <;> rfl

@[simp] theorem ArithmeticOp.ofByte?_toByte (op : ArithmeticOp) :
    ofByte? op.toByte = some op := by
  cases op <;> rfl

@[simp] theorem RelationalOp.ofByte?_toByte (op : RelationalOp) :
    ofByte? op.toByte = some op := by
  cases op <;> rfl

@[simp] theorem LogicalOp.ofByte?_toByte (op : LogicalOp) : ofByte? op.toByte = some op := by
  cases op <;> rfl

/-! ### Encoding -/

/-- A text behind its length, which is cut off after 16 bits. -/
def encodeText (s : Bytes) : Bytes := ofNat 2 s.length ++ s

/-- `PrimaryExpression::encode`, without the kind. -/
def encodeValue : VariantType → Bytes
  | .int v => 0 :: ofNat 8 v.toUInt64.toNat
  | .double d => 1 :: ofNat 8 d.bits.toNat
  | .bool b => [2, if b then 1 else 0]
  | .string s => 3 :: encodeText s

mutual

/-- `encode`; `none` when it throws, which ends the process. -/
def Expression.encode : Expression → Option Bytes
  | .primary operand => some (1 :: encodeValue operand)
  | .functionCall name args => do
      return 2 :: (encodeText name ++ ofNat 2 args.length ++ (← encodeArgs args))
  | .unary op operand => do return 3 :: op.toByte :: (← operand.encode)
  | .typeCasting type operand => do return 4 :: type.toByte :: (← operand.encode)
  | .arithmetic op left right => do
      return 5 :: op.toByte :: ((← left.encode) ++ (← right.encode))
  | .relational op left right => do
      return 6 :: op.toByte :: ((← left.encode) ++ (← right.encode))
  | .logical op left right => do
      return 7 :: op.toByte :: ((← left.encode) ++ (← right.encode))
  | .property kind ref alias_ prop =>
      some (kind.toByte :: (encodeText ref ++ encodeText alias_ ++ encodeText prop))
  | .uuid _ => none

/-- The arguments of a function, one after the other. -/
def encodeArgs : List Expression → Option Bytes
  | [] => some []
  | arg :: args => do return (← arg.encode) ++ (← encodeArgs args)

end

/-! ### Decoding -/

/-- How decoding fails. -/
inductive DecodeError
  /-- `"Not enough space left"`. -/
  | noSpace
  /-- `"Illegal expression kind"`. -/
  | illegalKind (kind : UInt8)
  /-- `"Unknown variant type"`. -/
  | unknownVariant
  /-- `"Not supported yet"`. -/
  | notSupported
  /-- `"Buffer not consumed up"`. -/
  | notConsumed
  /-- A `DCHECK` fails. -/
  | dcheck
  /-- A byte that is no enumerator becomes one. -/
  | noEnumerator
  /-- Bytes behind the buffer are read. -/
  | outOfBounds
  /-- The tree is deeper than the fuel. -/
  | fuel

/-- Takes `n` bytes, if there are so many.  Every decoder returns the rest of the
buffer. -/
def takeBytes (n : ℕ) (bs : Bytes) : Except DecodeError (Bytes × Bytes) :=
  if n ≤ bs.length then .ok (bs.take n, bs.drop n) else .error .noSpace

/-- Reads a text behind its length. -/
def decodeText (bs : Bytes) : Except DecodeError (Bytes × Bytes) := do
  let (size, bs) ← takeBytes 2 bs
  takeBytes (toNat size) bs

/-- `PrimaryExpression::decode`. -/
def decodeValue (bs : Bytes) : Except DecodeError (VariantType × Bytes) := do
  let (which, bs) ← takeBytes 1 bs
  match which with
  | [0] => do
      let (v, bs) ← takeBytes 8 bs
      return (.int (UInt64.ofNat (toNat v)).toInt64, bs)
  | [1] => do
      let (v, bs) ← takeBytes 8 bs
      return (.double ⟨UInt64.ofNat (toNat v)⟩, bs)
  | [2] => do
      let (v, bs) ← takeBytes 1 bs
      return (.bool (decide (toNat v ≠ 0)), bs)
  | [3] => do
      let (s, bs) ← decodeText bs
      return (.string s, bs)
  | _ => .error .unknownVariant

variable (dchecks : Bool)

/-- An operator: any byte is taken for one, and only a `DCHECK` looks at it. -/
def decodeOp {α : Type} (op : Option α) (checked : α → Bool) : Except DecodeError α :=
  match op with
  | some op => if dchecks && !checked op then .error .dcheck else .ok op
  | none => .error (if dchecks then .dcheck else .noEnumerator)

/-- The `DCHECK` of `ArithmeticExpression::decode` does not know `XOR`. -/
def ArithmeticOp.checked (op : ArithmeticOp) : Bool := op != .xor

/-- A node that starts with an operator and the kind of its first operand. -/
def withOperator {α : Type} (bs : Bytes) (decode : UInt8 → Except DecodeError α) :
    Except DecodeError (α × Bytes) :=
  match bs with
  | op :: kind :: bs => do return (← decode op, kind :: bs)
  | _ => .error .noSpace

/-- The arguments of a function, each with `decode`. -/
def decodeArgs (decode : Bytes → Except DecodeError (Expression × Bytes)) :
    ℕ → Bytes → Except DecodeError (List Expression × Bytes)
  | 0, bs => .ok ([], bs)
  | count + 1, bs => do
      let (arg, bs) ← decode bs
      let (args, bs) ← decodeArgs decode count bs
      return (arg :: args, bs)

section

variable (decode : Bytes → Except DecodeError (Expression × Bytes))

/-- `FunctionCallExpression::decode`; the number of arguments is read without a look at
what is left. -/
def decodeCall (bs : Bytes) : Except DecodeError (Expression × Bytes) := do
  let (name, bs) ← decodeText bs
  match bs with
  | c₀ :: c₁ :: bs => do
      let (args, bs) ← decodeArgs decode (toNat [c₀, c₁]) bs
      return (.functionCall name args, bs)
  | _ => .error .outOfBounds

/-- Two operands one after the other. -/
def decodePair (bs : Bytes) : Except DecodeError ((Expression × Expression) × Bytes) := do
  let (left, bs) ← decode bs
  let (right, bs) ← decode bs
  return ((left, right), bs)

/-- `AliasPropertyExpression::decode`. -/
def decodeProperty (kind : PropertyKind) (bs : Bytes) :
    Except DecodeError (Expression × Bytes) := do
  let (ref, bs) ← decodeText bs
  let (alias_, bs) ← decodeText bs
  let (prop, bs) ← decodeText bs
  return (.property kind ref alias_ prop, bs)

/-- The node of a kind, without the kind: `decode` of what `makeExpr` has made. -/
def decodeKind (kind : UInt8) (bs : Bytes) : Except DecodeError (Expression × Bytes) :=
  match kind with
  | 1 => do
      let (operand, bs) ← decodeValue bs
      return (.primary operand, bs)
  | 2 => decodeCall decode bs
  | 3 => do
      let (op, bs) ← withOperator bs fun b =>
        decodeOp dchecks (UnaryOp.ofByte? b) fun _ => true
      let (operand, bs) ← decode bs
      return (.unary op operand, bs)
  | 4 => do
      let (type, bs) ← withOperator bs fun b =>
        decodeOp false (ColumnType.ofByte? b) fun _ => true
      let (operand, bs) ← decode bs
      return (.typeCasting type operand, bs)
  | 5 => do
      let (op, bs) ← withOperator bs fun b =>
        decodeOp dchecks (ArithmeticOp.ofByte? b) ArithmeticOp.checked
      let ((left, right), bs) ← decodePair decode bs
      return (.arithmetic op left right, bs)
  | 6 => do
      let (op, bs) ← withOperator bs fun b =>
        decodeOp dchecks (RelationalOp.ofByte? b) fun _ => true
      let ((left, right), bs) ← decodePair decode bs
      return (.relational op left right, bs)
  | 7 => do
      let (op, bs) ← withOperator bs fun b =>
        decodeOp dchecks (LogicalOp.ofByte? b) fun _ => true
      let ((left, right), bs) ← decodePair decode bs
      return (.logical op left right, bs)
  | 17 => .error .notSupported
  | kind =>
      match PropertyKind.ofByte? kind with
      | some kind => decodeProperty kind bs
      | none => .error (.illegalKind kind)

end

/-- A node with its kind, for trees up to a depth. -/
def decodeNode : ℕ → Bytes → Except DecodeError (Expression × Bytes)
  | 0, _ => .error .fuel
  | _ + 1, [] => .error .noSpace
  | fuel + 1, kind :: bs => decodeKind dchecks (decodeNode fuel) kind bs

/-- `decode`: no tree is deeper than it has bytes. -/
def decode (buffer : Bytes) : Except DecodeError Expression := do
  let (expr, rest) ← decodeNode dchecks (buffer.length + 1) buffer
  if rest.isEmpty then .ok expr else .error .notConsumed

/-! ### The property and the condition -/

/-- What is decoded is what was encoded. -/
def RoundTrips (e : Expression) : Prop :=
  ∃ buffer, e.encode = some buffer ∧ decode dchecks buffer = .ok e

/-- A length that 16 bits hold. -/
def Short {α : Type} (s : List α) : Prop := s.length < 2 ^ 16

instance {α : Type} (s : List α) : Decidable (Short s) := inferInstanceAs (Decidable (_ < _))

/-- The literal has a text that is short, if it has one. -/
def VariantType.Representable : VariantType → Prop
  | .string s => Short s
  | _ => True

mutual

/-- Texts and argument lists are short, there is no `uuid`, and no `^` where a `DCHECK`
looks. -/
def Expression.Representable (dchecks : Bool) : Expression → Prop
  | .primary operand => operand.Representable
  | .functionCall name args => Short name ∧ Short args ∧ representableArgs dchecks args
  | .unary _ operand => operand.Representable dchecks
  | .typeCasting _ operand => operand.Representable dchecks
  | .arithmetic op left right =>
      (dchecks = true → op ≠ .xor) ∧ left.Representable dchecks ∧ right.Representable dchecks
  | .relational _ left right => left.Representable dchecks ∧ right.Representable dchecks
  | .logical _ left right => left.Representable dchecks ∧ right.Representable dchecks
  | .property _ ref alias_ prop => Short ref ∧ Short alias_ ∧ Short prop
  | .uuid _ => False

@[inherit_doc Expression.Representable]
def representableArgs (dchecks : Bool) : List Expression → Prop
  | [] => True
  | arg :: args => arg.Representable dchecks ∧ representableArgs dchecks args

end

/-! ### Decoding what was encoded -/

theorem takeBytes_append (s rest : Bytes) : takeBytes s.length (s ++ rest) = .ok (s, rest) := by
  rw [takeBytes, if_pos (by rw [length_append]; omega), take_left, drop_left]

theorem takeBytes_ofNat (n x : ℕ) (rest : Bytes) :
    takeBytes n (ofNat n x ++ rest) = .ok (ofNat n x, rest) := by
  have h := takeBytes_append (ofNat n x) rest
  rwa [length_ofNat] at h

variable {bs rest : Bytes}

theorem decodeText_encodeText (h : Short s) (rest : Bytes) :
    decodeText (encodeText s ++ rest) = .ok (s, rest) := by
  have hsize : toNat (ofNat 2 s.length) = s.length := toNat_ofNat h
  simp [decodeText, encodeText, takeBytes_ofNat, hsize,
    takeBytes_append]

theorem decodeValue_encodeValue (h : v.Representable) (rest : Bytes) :
    decodeValue (encodeValue v ++ rest) = .ok (v, rest) := by
  have hword : ∀ x : UInt64, UInt64.ofNat (toNat (ofNat 8 x.toNat)) = x := by
    intro x
    rw [toNat_ofNat (by have := x.toNat_lt; omega), UInt64.ofNat_toNat]
  have htag (tag : UInt8) (bs : Bytes) : takeBytes 1 (tag :: bs) = .ok ([tag], bs) := rfl
  cases v with
  | int v | double d =>
    simp only [encodeValue, cons_append, decodeValue, htag, ok_bind, takeBytes_ofNat, hword]
    rfl
  | bool b => cases b <;> rfl
  | string s =>
    simp only [encodeValue, cons_append, decodeValue, htag, ok_bind, decodeText_encodeText h]
    rfl

variable {α : Type}

theorem withOperator_cons (hne : bs ≠ []) {decode : UInt8 → Except DecodeError α}
    (h : decode op = .ok x) : withOperator (op :: bs) decode = .ok (x, bs) := by
  cases bs with
  | nil => exact absurd rfl hne
  | cons kind bs =>
    rw [withOperator, h]
    rfl

/-- What is written for a tree is read again by a decoder with enough fuel, and nothing
that follows. -/
def ReadsBack (dchecks : Bool) (e : Expression) (bs : Bytes) : Prop :=
  bs ≠ [] ∧ ∀ fuel rest, bs.length ≤ fuel → decodeNode dchecks fuel (bs ++ rest) = .ok (e, rest)

variable {dchecks : Bool}

theorem decodePair_append (hl : ReadsBack dchecks left bs) (hr : ReadsBack dchecks right cs)
    (hfuel : (bs ++ cs).length ≤ fuel) (rest : Bytes) :
    decodePair (decodeNode dchecks fuel) (bs ++ cs ++ rest) = .ok ((left, right), rest) := by
  rw [length_append] at hfuel
  simp only [decodePair, append_assoc, hl.2 fuel (cs ++ rest) (by omega),
    hr.2 fuel rest (by omega), ok_bind]
  rfl

theorem readsBack_cons
    (h : ∀ fuel rest, bs.length ≤ fuel →
      decodeKind dchecks (decodeNode dchecks fuel) kind (bs ++ rest) = .ok (e, rest)) :
    ReadsBack dchecks e (kind :: bs) := by
  refine ⟨cons_ne_nil _ _, fun fuel rest hfuel => ?_⟩
  cases fuel with
  | zero => simp at hfuel
  | succ fuel => exact h fuel rest (by simpa using hfuel)

section

variable {decode : UInt8 → Except DecodeError α}

/-- A node with an operator and two operands. -/
theorem readsBack_binary {node : α → Expression → Expression → Expression}
    (hkind : ∀ dec input, decodeKind dchecks dec kind input = (do
      let (op, bs) ← withOperator input decode let ((left, right), bs) ← decodePair dec bs
      return (node op left right, bs))) (hencode : (node x left right).encode =
      (do return kind :: op :: ((← left.encode) ++ (← right.encode)))) (hop : decode op = .ok x)
    (hl : ∃ bs, left.encode = some bs ∧ ReadsBack dchecks left bs)
    (hr : ∃ bs, right.encode = some bs ∧ ReadsBack dchecks right bs) :
    ∃ bs, (node x left right).encode = some bs ∧ ReadsBack dchecks (node x left right) bs := by
  obtain ⟨bs, hbs, hl⟩ := hl
  obtain ⟨cs, hcs, hr⟩ := hr
  refine ⟨kind :: op :: (bs ++ cs), by rw [hencode, hbs, hcs]; rfl,
    readsBack_cons fun fuel rest hfuel => ?_⟩
  have hne : bs ++ cs ++ rest ≠ [] := by
    intro h0
    exact hl.1 (append_eq_nil_iff.mp (append_eq_nil_iff.mp h0).1).1
  rw [length_cons] at hfuel
  simp only [hkind, cons_append, withOperator_cons hne hop, ok_bind,
    decodePair_append hl hr (show (bs ++ cs).length ≤ fuel by omega)]
  rfl

theorem readsBack_unary {node : α → Expression → Expression}
    (hkind : ∀ dec input, decodeKind dchecks dec kind input = (do
      let (op, bs) ← withOperator input decode
      let (operand, bs) ← dec bs
      return (node op operand, bs)))
    (hencode : (node x operand).encode = (do return kind :: op :: (← operand.encode)))
    (hop : decode op = .ok x) (h : ∃ bs, operand.encode = some bs ∧ ReadsBack dchecks operand bs) :
    ∃ bs, (node x operand).encode = some bs ∧ ReadsBack dchecks (node x operand) bs := by
  obtain ⟨bs, hbs, h⟩ := h
  refine ⟨kind :: op :: bs, by rw [hencode, hbs]; rfl, readsBack_cons fun fuel rest hfuel => ?_⟩
  have hne : bs ++ rest ≠ [] := fun h0 => h.1 (append_eq_nil_iff.mp h0).1
  rw [length_cons] at hfuel
  simp only [hkind, cons_append, withOperator_cons hne hop, ok_bind, h.2 fuel rest (by omega)]
  rfl

end

theorem decodeOp_of_some {op : α} (h : dchecks = true → checked op = true) :
    decodeOp dchecks (some op) checked = .ok op := by
  unfold decodeOp
  cases dchecks with
  | false => rfl
  | true => simp [h rfl]

mutual

/-- **What is written for a tree is read again.** -/
theorem Expression.readsBack_encode : ∀ {e : Expression},
    e.Representable dchecks → ∃ bs, e.encode = some bs ∧ ReadsBack dchecks e bs
  | .primary operand, h => by
    refine ⟨_, rfl, readsBack_cons fun fuel rest _ => ?_⟩
    simp only [decodeKind, decodeValue_encodeValue h, ok_bind]
    rfl
  | .functionCall name args, h => by
    obtain ⟨hname, hargs, hall⟩ := h
    obtain ⟨bs, hbs, hread⟩ := readsBack_encodeArgs hall
    refine ⟨2 :: (encodeText name ++ ofNat 2 args.length ++ bs),
      by rw [Expression.encode, hbs]; rfl,
      readsBack_cons fun fuel rest hfuel => ?_⟩
    change decodeCall (decodeNode dchecks fuel) _ = _
    have hlen : bs.length ≤ fuel := by
      simp only [length_append] at hfuel
      omega
    have hcount : toNat (ofNat 2 args.length) = args.length := toNat_ofNat hargs
    rw [decodeCall, append_assoc, append_assoc, decodeText_encodeText hname]
    change (do let (args, bs) ← decodeArgs (decodeNode dchecks fuel)
                 (toNat (ofNat 2 args.length)) (bs ++ rest)
               return (Expression.functionCall name args, bs)) = _
    rw [hcount, hread fuel rest hlen]
    rfl
  | .unary op operand, h => by
    refine readsBack_unary (fun _ _ => rfl) rfl ?_ (Expression.readsBack_encode (e := operand) h)
    rw [UnaryOp.ofByte?_toByte]
    exact decodeOp_of_some fun _ => rfl
  | .typeCasting type operand, h => by
    refine readsBack_unary (fun _ _ => rfl) rfl ?_ (Expression.readsBack_encode (e := operand) h)
    rw [ColumnType.ofByte?_toByte]
    rfl
  | .arithmetic op left right, h => by
    refine readsBack_binary (fun _ _ => rfl) rfl ?_ (Expression.readsBack_encode (e := left) h.2.1)
      (Expression.readsBack_encode (e := right) h.2.2)
    rw [ArithmeticOp.ofByte?_toByte]
    exact decodeOp_of_some fun hd => by simpa [ArithmeticOp.checked] using h.1 hd
  | .relational op left right, h => by
    refine readsBack_binary (fun _ _ => rfl) rfl ?_ (Expression.readsBack_encode (e := left) h.1)
      (Expression.readsBack_encode (e := right) h.2)
    rw [RelationalOp.ofByte?_toByte]
    exact decodeOp_of_some fun _ => rfl
  | .logical op left right, h => by
    refine readsBack_binary (fun _ _ => rfl) rfl ?_ (Expression.readsBack_encode (e := left) h.1)
      (Expression.readsBack_encode (e := right) h.2)
    rw [LogicalOp.ofByte?_toByte]
    exact decodeOp_of_some fun _ => rfl
  | .property kind ref alias_ prop, h => by
    obtain ⟨href, halias, hprop⟩ := h
    refine ⟨_, rfl, readsBack_cons fun fuel rest _ => ?_⟩
    have hkind : decodeKind dchecks (decodeNode dchecks fuel) kind.toByte =
        decodeProperty kind := by
      cases kind <;> rfl
    simp only [hkind, decodeProperty, append_assoc, decodeText_encodeText href,
      decodeText_encodeText halias, decodeText_encodeText hprop, ok_bind]
    rfl
  | .uuid field, h => h.elim

theorem readsBack_encodeArgs : ∀ {args : List Expression},
    representableArgs dchecks args → ∃ bs, encodeArgs args = some bs ∧
      ∀ fuel rest, bs.length ≤ fuel →
        decodeArgs (decodeNode dchecks fuel) args.length (bs ++ rest) = .ok (args, rest)
  | [], _ => ⟨[], rfl, fun _ _ _ => rfl⟩
  | arg :: args, h => by
    obtain ⟨harg, hargs⟩ := h
    obtain ⟨bs, hbs, hbread⟩ := Expression.readsBack_encode (e := arg) harg
    obtain ⟨cs, hcs, hcread⟩ := readsBack_encodeArgs hargs
    refine ⟨bs ++ cs, by rw [encodeArgs, hbs, hcs]; rfl, fun fuel rest hfuel => ?_⟩
    rw [length_append] at hfuel
    simp only [length_cons, decodeArgs, append_assoc, hbread.2 fuel (cs ++ rest) (by omega),
      hcread fuel rest (by omega), ok_bind]
    rfl

end

/-! ### What can be decoded -/

theorem length_of_takeBytes (h : takeBytes n bs = .ok (s, rest)) : s.length = n := by
  unfold takeBytes at h
  split at h
  · rename_i hle
    cases h
    exact length_take_of_le hle
  · cases h

theorem short_of_decodeText (h : decodeText bs = .ok (s, rest)) : Short s := by
  obtain ⟨⟨size, bs'⟩, hsize, h⟩ := exists_of_bind_eq_ok h
  have hlen := length_of_takeBytes hsize
  have hlt := toNat_lt size
  rw [hlen] at hlt
  rw [Short, length_of_takeBytes h]
  exact hlt

theorem representable_of_decodeValue (h : decodeValue bs = .ok (v, rest)) : v.Representable := by
  obtain ⟨⟨which, bs'⟩, -, h⟩ := exists_of_bind_eq_ok h
  dsimp only at h
  split at h
  iterate 3
    · obtain ⟨⟨x, bs''⟩, -, h⟩ := exists_of_bind_eq_ok h
      cases h
      trivial
  · obtain ⟨⟨x, bs''⟩, hx, h⟩ := exists_of_bind_eq_ok h
    cases h
    exact short_of_decodeText hx
  · cases h

/-- A decoder that returns only trees that are representable. -/
def Returns (dchecks : Bool) (decode : Bytes → Except DecodeError (Expression × Bytes)) : Prop :=
  ∀ bs e rest, decode bs = .ok (e, rest) → e.Representable dchecks

theorem representable_of_decodeArgs (hdec : Returns dchecks dec)
    (h : decodeArgs dec n bs = .ok (args, rest)) :
    args.length = n ∧ representableArgs dchecks args := by
  induction n generalizing bs rest args with
  | zero =>
    cases h
    exact ⟨rfl, trivial⟩
  | succ n ih =>
    obtain ⟨⟨arg, bs'⟩, harg, h⟩ := exists_of_bind_eq_ok h
    obtain ⟨⟨args', bs''⟩, hargs, h⟩ := exists_of_bind_eq_ok h
    cases h
    obtain ⟨hlen, hall⟩ := ih hargs
    exact ⟨by rw [length_cons, hlen], hdec _ _ _ harg, hall⟩

theorem representable_of_decodeCall (hdec : Returns dchecks dec) :
    Returns dchecks (decodeCall dec) := by
  intro bs e rest h
  obtain ⟨⟨name, bs'⟩, hname, h⟩ := exists_of_bind_eq_ok h
  dsimp only at h
  split at h
  · rename_i c₀ c₁ cs
    obtain ⟨⟨args, bs''⟩, hargs, h⟩ := exists_of_bind_eq_ok h
    cases h
    obtain ⟨hlen, hall⟩ := representable_of_decodeArgs hdec hargs
    refine ⟨short_of_decodeText hname, ?_, hall⟩
    have hlt := toNat_lt [c₀, c₁]
    rw [length_cons, length_singleton] at hlt
    rw [Short, hlen]
    exact hlt
  · cases h

theorem representable_of_decodePair (hdec : Returns dchecks dec)
    (h : decodePair dec bs = .ok ((left, right), rest)) :
    left.Representable dchecks ∧ right.Representable dchecks := by
  obtain ⟨⟨l, bs'⟩, hl, h⟩ := exists_of_bind_eq_ok h
  obtain ⟨⟨r, bs''⟩, hr, h⟩ := exists_of_bind_eq_ok h
  cases h
  exact ⟨hdec _ _ _ hl, hdec _ _ _ hr⟩

/-- An operator that is read has passed the `DCHECK`. -/
theorem checked_of_withOperator {op : α} {ofByte : UInt8 → Option α}
    (h : withOperator bs (fun b => decodeOp dchecks (ofByte b) checked) = .ok (op, rest)) :
    dchecks = true → checked op = true := by
  intro hd
  unfold withOperator at h
  split at h
  · obtain ⟨x, hx, h⟩ := exists_of_bind_eq_ok h
    cases h
    dsimp only [decodeOp] at hx
    split at hx
    · split at hx
      · cases hx
      · rename_i hc
        cases hx
        simpa [hd] using hc
    · cases hx
  · cases h

/-- **Every tree that is decoded is representable.** -/
theorem returns_decodeKind (hdec : Returns dchecks dec) (kind : UInt8) :
    Returns dchecks (decodeKind dchecks dec kind) := by
  intro bs e rest h
  unfold decodeKind at h
  split at h
  · obtain ⟨⟨operand, bs'⟩, hoperand, h⟩ := exists_of_bind_eq_ok h
    cases h
    exact representable_of_decodeValue hoperand
  · exact representable_of_decodeCall hdec _ _ _ h
  iterate 2
    · obtain ⟨⟨op, bs'⟩, -, h⟩ := exists_of_bind_eq_ok h
      obtain ⟨⟨operand, bs''⟩, hoperand, h⟩ := exists_of_bind_eq_ok h
      cases h
      have hrep := hdec _ _ _ hoperand
      exact hrep
  · obtain ⟨⟨op, bs'⟩, hop, h⟩ := exists_of_bind_eq_ok h
    obtain ⟨⟨⟨left, right⟩, bs''⟩, hpair, h⟩ := exists_of_bind_eq_ok h
    cases h
    refine ⟨fun hd => ?_, representable_of_decodePair hdec hpair⟩
    simpa [ArithmeticOp.checked] using checked_of_withOperator hop hd
  iterate 2
    · obtain ⟨⟨op, bs'⟩, -, h⟩ := exists_of_bind_eq_ok h
      obtain ⟨⟨⟨left, right⟩, bs''⟩, hpair, h⟩ := exists_of_bind_eq_ok h
      cases h
      exact representable_of_decodePair hdec hpair
  · cases h
  split at h
  · obtain ⟨⟨ref, bs₁⟩, href, h⟩ := exists_of_bind_eq_ok h
    obtain ⟨⟨alias_, bs₂⟩, halias, h⟩ := exists_of_bind_eq_ok h
    obtain ⟨⟨prop, bs₃⟩, hprop, h⟩ := exists_of_bind_eq_ok h
    cases h
    exact ⟨short_of_decodeText href, short_of_decodeText halias, short_of_decodeText hprop⟩
  · cases h

theorem returns_decodeNode (dchecks : Bool) (fuel : ℕ) :
    Returns dchecks (decodeNode dchecks fuel) := by
  induction fuel with
  | zero =>
    intro bs e rest h
    cases h
  | succ fuel ih =>
    intro bs e rest h
    cases bs with
    | nil => cases h
    | cons kind bs => exact returns_decodeKind ih kind bs e rest h

theorem representable_of_decode (h : decode dchecks buffer = .ok e) : e.Representable dchecks := by
  obtain ⟨⟨e', rest⟩, hnode, h⟩ := exists_of_bind_eq_ok h
  dsimp only at h
  split at h
  · cases h
    exact returns_decodeNode dchecks _ _ _ _ hnode
  · cases h

/-! ### The round trip -/

/-- **Which trees survive.**  A tree is decoded as it was encoded if and only if its texts
and argument lists are short, it has no `uuid`, and, in a build with `DCHECK`s, no `^`. -/
theorem roundTrips_iff (dchecks : Bool) (e : Expression) :
    RoundTrips dchecks e ↔ e.Representable dchecks := by
  constructor
  · rintro ⟨buffer, -, hdec⟩
    exact representable_of_decode hdec
  intro h
  obtain ⟨bs, hbs, -, hread⟩ := Expression.readsBack_encode h
  refine ⟨bs, hbs, ?_⟩
  have hnode := hread (bs.length + 1) [] (Nat.le_succ _)
  rw [append_nil] at hnode
  rw [decode, hnode]
  rfl

/-- **Not every tree survives**: neither a `uuid`, nor a text of 65536 bytes, nor a `^` where
a `DCHECK` looks. -/
theorem not_roundTrips :
    (∀ dchecks, ¬ RoundTrips dchecks (.uuid [120])) ∧
      (∀ dchecks, ¬ RoundTrips dchecks (.primary (.string (List.replicate 65536 97)))) ∧
      ¬ RoundTrips true (.arithmetic .xor (.primary (.int 1)) (.primary (.int 2))) := by
  refine ⟨fun dchecks h => ?_, fun dchecks h => ?_, fun h => ?_⟩
  · obtain ⟨buffer, hbuffer, -⟩ := h
    cases hbuffer
  · obtain ⟨buffer, -, hdec⟩ := h
    have hshort : Short (replicate 65536 (97 : UInt8)) := representable_of_decode hdec
    rw [Short, length_replicate] at hshort
    omega
  · obtain ⟨buffer, -, hdec⟩ := h
    exact (representable_of_decode hdec).1 rfl rfl

end K2Graph.Filter
