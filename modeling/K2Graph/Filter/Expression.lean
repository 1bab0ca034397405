import K2Graph.Lib.Checked

/-!
# Expressions

The trees the parser builds and their evaluation.  A value is an `int64_t`, a `double`,
a `bool` or a `std::string`; text is bytes.

The arithmetic of doubles, the conversions of the library between numbers and text, the
functions of `FunctionManager` and the storage client's `getUUID` are arguments.  A
double is its bit pattern, and nothing is assumed of what is done with it.

Evaluating returns a `Status` or a value, or it throws, or it does something the language
leaves undefined, such as an overflow of signed integers.
-/

namespace K2Graph.Filter

open Checked

/-! ### Values -/

/-- The bytes of a `std::string`. -/
abbrev Bytes := List UInt8

/-- A `double`, given by its bit pattern. -/
structure Double where
  /-- The bit pattern. -/
  bits : UInt64
  deriving DecidableEq

/-- `1.0`. -/
def Double.one : Double := ⟨0x3FF0000000000000⟩

/-- `0.0`. -/
def Double.zero : Double := ⟨0⟩

inductive VariantType
  | int (value : Int64)
  | double (value : Double)
  | bool (value : Bool)
  | string (value : Bytes)
  deriving DecidableEq

/-- `VARIANT_TYPE_NAME`. -/
def VariantType.typeName : VariantType → String
  | .int _ => "int"
  | .double _ => "double"
  | .bool _ => "bool"
  | .string _ => "string"

def VariantType.which : VariantType → ℕ
  | .int _ => 0
  | .double _ => 1
  | .bool _ => 2
  | .string _ => 3

/-- How an evaluation fails. -/
inductive Failure
  /-- It returns a `Status`. -/
  | status (msg : String)
  /-- It throws. -/
  | exception (what : String)
  /-- The language leaves it undefined. -/
  | undefined
  deriving DecidableEq

/-- `OptVariantType`, and what happens instead. -/
abbrev Outcome := Except Failure

/-- A result the language may leave undefined. -/
def defined {α : Type} : Option α → Outcome α
  | some x => .ok x
  | none => .error .undefined

/-- A value or a `Status` is returned. -/
def Returned {α : Type} : Outcome α → Prop
  | .ok _ | .error (.status _) => True
  | .error (.exception _) | .error .undefined => False

/-! ### Trees -/

inductive ColumnType
  | int
  | string
  | double
  | bool
  | timestamp

/-- `UnaryExpression::Operator`. -/
inductive UnaryOp
  | plus
  | negate
  | not

/-- `ArithmeticExpression::Operator`. -/
inductive ArithmeticOp
  | add
  | sub
  | mul
  | div
  | mod
  | xor
  deriving DecidableEq

/-- `RelationalExpression::Operator`. -/
inductive RelationalOp
  | lt
  | le
  | gt
  | ge
  | eq
  | ne
  | contains
  deriving DecidableEq

/-- `LogicalExpression::Operator`. -/
inductive LogicalOp
  | and
  | or
  | xor
  deriving DecidableEq

/-- The kinds of `AliasPropertyExpression` and of the classes derived from it. -/
inductive PropertyKind
  | sourceProp
  | edgeRank
  | edgeDstId
  | edgeSrcId
  | edgeType
  | aliasProp
  | variableProp
  | destProp
  | inputProp

inductive Expression
  | primary (operand : VariantType)
  | functionCall (name : Bytes) (args : List Expression)
  | unary (op : UnaryOp) (operand : Expression)
  | typeCasting (type : ColumnType) (operand : Expression)
  | arithmetic (op : ArithmeticOp) (left right : Expression)
  | relational (op : RelationalOp) (left right : Expression)
  | logical (op : LogicalOp) (left right : Expression)
  | property (kind : PropertyKind) (ref alias_ prop : Bytes)
  | uuid (field : Bytes)

/-! ### What evaluation reads -/

/-- Arithmetic of doubles and the conversions of the library. -/
structure DoubleOps where
  /-- `static_cast<double>`. -/
  ofInt : Int64 → Double
  /-- `static_cast<int64_t>`, which may be undefined. -/
  truncate : Double → Option Int64
  /-- `std::round`. -/
  round : Double → Double
  add : Double → Double → Double
  sub : Double → Double → Double
  mul : Double → Double → Double
  div : Double → Double → Double
  fmod : Double → Double → Double
  neg : Double → Double
  lt : Double → Double → Bool
  /-- `x == 0.0`. -/
  isZero : Double → Bool
  /-- `abs(x) < 1e-8`. -/
  nearZero : Double → Bool
  /-- `folly::to<std::string>`. -/
  toText : Double → Bytes
  /-- `folly::to<double>`, which throws. -/
  ofText : Bytes → Option Double

/-- `Getters`; a function that is not set is `none`. -/
structure Getters where
  getInputProp : Option (Bytes → Outcome VariantType) := none
  getVariableProp : Option (Bytes → Outcome VariantType) := none
  getSrcTagProp : Option (Bytes → Bytes → Outcome VariantType) := none
  getDstTagProp : Option (Bytes → Bytes → Outcome VariantType) := none
  getAliasProp : Option (Bytes → Bytes → Outcome VariantType) := none
  getEdgeDstId : Option (Bytes → Outcome VariantType) := none

/-- What the evaluation of a tree depends on. -/
structure Env where
  /-- The getters. -/
  getters : Getters
  /-- Arithmetic of doubles. -/
  ops : DoubleOps
  /-- `folly::to<int64_t>`, which throws. -/
  intOfText : Bytes → Option Int64
  /-- `folly::to<std::string>`. -/
  textOfInt : Int64 → Bytes
  /-- The functions of `FunctionManager`. -/
  function : Bytes → List VariantType → Outcome VariantType
  /-- `getUUID` of the storage client. -/
  getUUID : Bytes → Outcome Int64

/-! ### Conversions -/

namespace VariantType

variable (env : Env)

def isArithmetic : VariantType → Bool
  | .int _ | .double _ => true
  | .bool _ | .string _ => false

def isDouble : VariantType → Bool
  | .double _ => true
  | _ => false

/-- `asDouble`; another type makes `boost::get` throw. -/
def asDouble : VariantType → Outcome Double
  | .int v => .ok (env.ops.ofInt v)
  | .double d => .ok d
  | _ => .error (.exception "boost::bad_get")

def asInt : VariantType → Outcome Int64
  | .int v => .ok v
  | _ => .error (.exception "boost::bad_get")

/-- `asBool`: a text is true when it is empty. -/
def asBool : VariantType → Bool
  | .int v => decide (v ≠ 0)
  | .double d => !env.ops.isZero d
  | .bool b => b
  | .string s => s.isEmpty

def toDouble : VariantType → Outcome Double
  | .int v => .ok (env.ops.ofInt v)
  | .double d => .ok d
  | .bool b => .ok (if b then Double.one else Double.zero)
  | .string s =>
      match env.ops.ofText s with
      | some d => .ok d
      | none => .error (.exception "folly::ConversionError")

def toInt : VariantType → Outcome Int64
  | .int v => .ok v
  | .double d => defined (env.ops.truncate d)
  | .bool b => .ok (if b then 1 else 0)
  | .string s =>
      match env.intOfText s with
      | some v => .ok v
      | none => .error (.exception "folly::ConversionError")

/-- `toString`. -/
def toText : VariantType → Bytes
  | .int v => env.textOfInt v
  | .double d => env.ops.toText d
  | .bool b => (if b then "true" else "false").toUTF8.toList
  | .string s => s

end VariantType

/-! ### Overflow tests -/

def maxInt : Int64 := Int64.maxValue

def minInt : Int64 := Int64.minValue

variable (lv rv : Int64)

def isAddOverflow : Option Bool :=
  if 0 ≤ lv ∧ 0 ≤ rv then do return decide ((← sub maxInt lv) < rv)
  else if lv < 0 ∧ rv < 0 then do return decide ((← sub minInt lv) > rv)
  else some false

def isSubOverflow : Option Bool :=
  if lv > 0 ∧ rv < 0 then do
    return decide ((← sub maxInt lv) < (← neg rv))
  else if lv < 0 ∧ rv > 0 then do
    return decide ((← sub minInt lv) > (← neg rv))
  else some false

def isMulOverflow : Option Bool :=
  if lv > 0 ∧ rv > 0 then do return decide ((← div maxInt lv) < rv)
  else if lv < 0 ∧ rv < 0 then do return decide ((← div maxInt lv) > rv)
  else if lv > 0 ∧ rv < 0 then do return decide ((← div minInt lv) > rv)
  else if lv < 0 ∧ rv > 0 then do return decide ((← div minInt lv) < rv)
  else some false

/-! ### Operators -/

/-- `"Out of range %ld <op> %ld"`. -/
def outOfRange (sign : String) (lv rv : Int64) : Failure :=
  .status ("Out of range " ++ toString lv.toInt ++ " " ++ sign ++ " " ++ toString rv.toInt)

/-- An operator that is tested for overflow first. -/
def tested (isOverflow : Int64 → Int64 → Option Bool) (result : Int64 → Int64 → Option Int64)
    (sign : String) (lv rv : Int64) : Outcome VariantType := do
  if ← defined (isOverflow lv rv) then .error (outOfRange sign lv rv)
  else return .int (← defined (result lv rv))

/-- Division and remainder, which test the divisor for zero. -/
def divided (result : Int64 → Int64 → Option Int64) (lv rv : Int64) : Outcome VariantType := do
  if (← defined (abs rv)) = 0 then .error (.status "Division by zero")
  else return .int (← defined (result lv rv))

def evalInt : ArithmeticOp → Outcome VariantType
  | .add => tested isAddOverflow add "+" lv rv
  | .sub => tested isSubOverflow sub "-" lv rv
  | .mul => tested isMulOverflow mul "*" lv rv
  | .div => divided div lv rv
  | .mod => divided mod lv rv
  | .xor => .ok (.int (lv ^^^ rv))

def evalDouble (ops : DoubleOps) (lv rv : Double) : ArithmeticOp → Outcome VariantType
  | .add => .ok (.double (ops.add lv rv))
  | .sub => .ok (.double (ops.sub lv rv))
  | .mul => .ok (.double (ops.mul lv rv))
  | .div =>
      if ops.nearZero rv then .error (.status "Division by zero")
      else .ok (.double (ops.div lv rv))
  | .mod =>
      if ops.nearZero rv then .error (.status "Division by zero")
      else .ok (.double (ops.fmod lv rv))
  | .xor => do
      return .int ((← defined (ops.truncate (ops.round lv))) ^^^
        (← defined (ops.truncate (ops.round rv))))

variable (env : Env)

/-- `ArithmeticExpression::eval`, for operands that were evaluated. -/
def evalArithmetic (op : ArithmeticOp) (l r : VariantType) : Outcome VariantType :=
  if l.isArithmetic && r.isArithmetic then
    if l.isDouble || r.isDouble then do
      evalDouble env.ops (← l.asDouble env) (← r.asDouble env) op
    else do evalInt (← l.asInt) (← r.asInt) op
  else
    match op, l, r with
    | .add, .string s, .string t => .ok (.string (s ++ t))
    | _, _, _ =>
        .error (.status ("attempt to perform arithmetic on `" ++ l.typeName ++ "' with `" ++
          r.typeName ++ "'"))

/-- `implicitCasting`: a bool becomes an integer and an integer a double. -/
def implicitCasting (l r : VariantType) : Outcome (VariantType × VariantType) :=
  match l, r with
  | .string _, _ | _, .string _ =>
      .error (.status "A string type can not be compared with a non-string type.")
  | .double _, _ | _, .double _ => do
      return (.double (← l.toDouble env), .double (← r.toDouble env))
  | .int _, _ | _, .int _ => do return (.int (← l.toInt env), .int (← r.toInt env))
  | .bool _, .bool _ => .ok (l, r)

/-- `operator<` of variants, for two of one type. -/
def variantLt : VariantType → VariantType → Bool
  | .int a, .int b => decide (a < b)
  | .double a, .double b => env.ops.lt a b
  | .bool a, .bool b => !a && b
  | .string a, .string b => decide (a < b)
  | l, r => decide (l.which < r.which)

/-- `EQ`: doubles need only be almost equal. -/
def variantEq : VariantType → VariantType → Bool
  | .double a, .double b => env.ops.nearZero (env.ops.sub a b)
  | l, r => decide (l = r)

def contains (left right : Bytes) : Bool := left.tails.any fun s => right.isPrefixOf s

/-- The operators on two values of one type. -/
def compare (op : RelationalOp) (l r : VariantType) : Outcome VariantType :=
  match op with
  | .lt => .ok (.bool (variantLt env l r))
  | .le => .ok (.bool (!variantLt env r l))
  | .gt => .ok (.bool (variantLt env r l))
  | .ge => .ok (.bool (!variantLt env l r))
  | .eq => .ok (.bool (variantEq env l r))
  | .ne => .ok (.bool (!variantEq env l r))
  | .contains =>
      match l, r with
      | .string s, .string t => .ok (.bool (contains s t))
      | _, _ => .error (.status "Wrong operator")

/-- `RelationalExpression::eval`, for operands that were evaluated. -/
def evalRelational (op : RelationalOp) (l r : VariantType) : Outcome VariantType :=
  if l.which = r.which then compare env op l r
  else do
    let (l', r') ← implicitCasting env l r
    compare env op l' r'

/-- `LogicalExpression::eval`, for operands that were evaluated. -/
def evalLogical (op : LogicalOp) (l r : VariantType) : VariantType :=
  match op with
  | .and => .bool (if !l.asBool env then false else r.asBool env)
  | .or => .bool (if l.asBool env then true else r.asBool env)
  | .xor => .bool (if l.asBool env == r.asBool env then false else true)

/-- `UnaryExpression::eval`, for an operand that was evaluated. -/
def evalUnary (op : UnaryOp) (v : VariantType) : Outcome VariantType :=
  match op with
  | .plus => .ok v
  | .negate =>
      match v with
      | .int n => do return .int (← defined (neg n))
      | .double d => .ok (.double (env.ops.neg d))
      | _ => .error (.status ("attempt to perform unary arithmetic on a `" ++ v.typeName ++ "'"))
  | .not => .ok (.bool (!v.asBool env))

/-- `TypeCastingExpression::eval`, for an operand that was evaluated. -/
def evalTypeCasting (type : ColumnType) (v : VariantType) : Outcome VariantType :=
  match type with
  | .int | .timestamp => do return .int (← v.toInt env)
  | .string => .ok (.string (v.toText env))
  | .double => do return .double (← v.toDouble env)
  | .bool => .ok (.bool (v.asBool env))

def notImplemented (name : String) : Failure :=
  .status ("`" ++ name ++ "' function is not implemented")

def callGetter {α : Type} (getter : Option α) (name : String) (call : α → Outcome VariantType) :
    Outcome VariantType :=
  match getter with
  | some get => call get
  | none => .error (notImplemented name)

/-- `eval` of `AliasPropertyExpression` and of the classes derived from it. -/
def evalProperty (getters : Getters) (kind : PropertyKind) (alias_ prop : Bytes) :
    Outcome VariantType :=
  match kind with
  | .aliasProp | .edgeType | .edgeSrcId | .edgeRank =>
      callGetter getters.getAliasProp "getAliasProp" fun get => get alias_ prop
  | .inputProp => callGetter getters.getInputProp "getInputProp" fun get => get prop
  | .destProp => callGetter getters.getDstTagProp "getDstTagProp" fun get => get alias_ prop
  | .variableProp => callGetter getters.getVariableProp "getVariableProp" fun get => get prop
  | .edgeDstId => callGetter getters.getEdgeDstId "getEdgeDstId" fun get => get alias_
  | .sourceProp => callGetter getters.getSrcTagProp "getSrcTagProp" fun get => get alias_ prop

/-! ### Evaluation -/

/-- Both operands are evaluated, and the first `Status` is returned. -/
def bothOperands (left right : Outcome VariantType)
    (f : VariantType → VariantType → Outcome VariantType) : Outcome VariantType :=
  match left, right with
  -- what throws or is undefined happens before any `Status` is looked at
  | .error (.status msg), .error (.status _) => .error (.status msg)
  | .error (.status _), .error e => .error e
  | .error e, _ => .error e
  | .ok _, .error e => .error e
  | .ok l, .ok r => f l r

mutual

def Expression.eval (env : Env) : Expression → Outcome VariantType
  | .primary operand => .ok operand
  | .functionCall name args => do env.function name (← evalArgs env args)
  | .unary op operand =>
      match operand.eval env with
      | .ok v => evalUnary env op v
      -- `value()` of a `StatusOr` that has none
      | .error (.status _) => .error .undefined
      | .error e => .error e
  | .typeCasting type operand => do evalTypeCasting env type (← operand.eval env)
  | .arithmetic op left right =>
      bothOperands (left.eval env) (right.eval env) (evalArithmetic env op)
  | .relational op left right =>
      bothOperands (left.eval env) (right.eval env) (evalRelational env op)
  | .logical op left right =>
      bothOperands (left.eval env) (right.eval env) fun l r => .ok (evalLogical env op l r)
  | .property kind _ alias_ prop => evalProperty env.getters kind alias_ prop
  | .uuid field => do return .int (← env.getUUID field)

/-- The arguments of a function are evaluated until one fails. -/
def evalArgs (env : Env) : List Expression → Outcome (List VariantType)
  | [] => .ok []
  | arg :: args => do
      let v ← arg.eval env
      let vs ← evalArgs env args
      return v :: vs

end

end K2Graph.Filter
