/-
Arithmetic.

Integers have 64 bits and never wrap: an operation computes on the
mathematical integers and is an overflow if the result does not fit.
Mixed operands are promoted to floats. A float result that is not a number
is undefined and an infinite one an overflow; negation, absolute value and
sign pass their operand through unchecked.
-/
import LogicMachine.Machine

namespace LogicMachine.Arithmetic

-- ============================================================ results

def overflow : Failure := .evaluation "int_overflow"

def zeroDivisor : Failure := .evaluation "zero_divisor"

def undefined : Failure := .evaluation "undefined"

/-- An integer as a result, if it fits. -/
def fit (i : Int) : Except Failure Number :=
  if Database.minInteger.toInt ≤ i ∧ i ≤ Database.maxInteger.toInt then
    .ok (.int (Int64.ofInt i))
  else .error overflow

/-- Every integer of 64 bits fits. -/
@[simp] theorem fit_toInt (i : Int64) : fit i.toInt = .ok (.int i) := by
  have hl : Database.minInteger.toInt ≤ i.toInt := i.le_toInt
  have hh : i.toInt ≤ Database.maxInteger.toInt := by
    have := i.toInt_lt
    show i.toInt ≤ 9223372036854775807
    omega
  rw [fit, if_pos ⟨hl, hh⟩, Int64.ofInt_toInt]

/-- An operand that must be an integer. -/
def integer : Number → Except Failure Int64
  | .int i => .ok i
  | .float b => .error (.type "integer" (.number (.float b)))

/-- A float as a result, if it is finite. -/
def finite (x : Float) : Except Failure Number :=
  if x.isNaN then .error undefined
  else if x.isInf then .error (.evaluation "float_overflow")
  else .ok (.ofFloat x)

/-- A float without a fractional part as an integer, if it fits. -/
def toInteger (x : Float) : Except Failure Number :=
  if x.isFinite && -9223372036854775808.0 ≤ x && x < 9223372036854775808.0 then
    .ok (.int x.toInt64)
  else .error overflow

-- ============================================================ operations on two numbers

/-- An operation on integers if both operands are, else on floats. -/
def mixed (ints : Int → Int → Int) (floats : Float → Float → Float) (x y : Number) :
    Except Failure Number :=
  match x, y with
  | .int a, .int b => fit (ints a.toInt b.toInt)
  | x, y => finite (floats x.toFloat y.toFloat)

/-- The quotient: an integer if two integers divide without remainder. -/
def divide (x y : Number) : Except Failure Number :=
  match x, y with
  | _, .int 0 => .error zeroDivisor
  | .int a, .int b =>
    if a.toInt.tmod b.toInt = 0 then fit (a.toInt.tdiv b.toInt)
    else finite (a.toFloat / b.toFloat)
  | x, .float b =>
    if Binary64.toFloat b == 0 then .error zeroDivisor
    else finite (x.toFloat / Binary64.toFloat b)
  | x, y => finite (x.toFloat / y.toFloat)

/-- An operation of integer division, refused where the quotient itself
does not fit. -/
def dividing (op : Int → Int → Int) (x y : Number) : Except Failure Number := do
  let a ← integer x
  let b ← integer y
  if b = 0 then throw zeroDivisor
  let _ ← fit (a.toInt.tdiv b.toInt)
  fit (op a.toInt b.toInt)

/-- What is left by a division, with the sign of the divisor. -/
def modulo (x y : Int) : Int :=
  let r := x.tmod y
  if r != 0 && decide (r < 0) != decide (y < 0) then r + y else r

/-- The shift of `x` by `y` places, to the left or to the right; a
negative number of places turns the direction. No shift goes farther than
63 places. -/
def shift (left : Bool) (x y : Number) : Except Failure Number := do
  let a ← integer x
  let n ← integer y
  let places := min n.toInt.natAbs 63
  if left == decide (0 ≤ n.toInt) then fit (a.toInt * Int.pow 2 places)
  else fit (a.toInt / Int.pow 2 places)

/-- An operation on the bits of two integers. -/
def bitwise (op : Int64 → Int64 → Int64) (x y : Number) : Except Failure Number := do
  let a ← integer x
  let b ← integer y
  return .int (op a b)

/-- A power of an integer. A negative exponent has a meaning for 1 and
-1 alone, and none may exceed 32 bits. -/
def integerPower (b e : Int64) : Except Failure Number :=
  if e < 0 then
    if b = 1 || b = -1 then .ok (.int (if e.toInt % 2 = 0 then 1 else b))
    else .error (.type "float" (.int b))
  else if e.toInt > 4294967295 then .error overflow
  else if b = 0 || b = 1 || b = -1 then
    fit (if e = 0 then 1 else if e.toInt % 2 = 0 then b.toInt * b.toInt else b.toInt)
  else if e ≥ 64 then .error overflow
  else fit (Int.pow b.toInt e.toInt.toNat)

def floatPower (x y : Number) : Except Failure Number :=
  finite (Float.pow x.toFloat y.toFloat)

def power (x y : Number) : Except Failure Number :=
  match x, y with
  | .int b, .int e => integerPower b e
  | x, y => floatPower x y

/-- The operation that a name stands for between two operands. -/
def binary? (name : String) : Option (Number → Number → Except Failure Number) :=
  match name with
  | "+" => some (mixed (· + ·) (· + ·))
  | "-" => some (mixed (· - ·) (· - ·))
  | "*" => some (mixed (· * ·) (· * ·))
  | "/" => some divide
  | "//" => some (dividing Int.tdiv)
  | "rem" => some (dividing Int.tmod)
  | "mod" => some (dividing modulo)
  | "min" => some fun x y => .ok (if Number.compareValue x y == .gt then y else x)
  | "max" => some fun x y => .ok (if Number.compareValue x y == .lt then y else x)
  | "<<" => some (shift true)
  | ">>" => some (shift false)
  | "/\\" => some (bitwise (· &&& ·))
  | "\\/" => some (bitwise (· ||| ·))
  | "xor" => some (bitwise (· ^^^ ·))
  | "**" => some floatPower
  | "^" => some power
  | _ => none

-- ============================================================ operations on one number

def negate : Number → Except Failure Number
  | .int i => fit (-i.toInt)
  | .float b => .ok (.float (Binary64.negate b))

def magnitude : Number → Except Failure Number
  | .int i => fit i.toInt.natAbs
  | .float b => .ok (.float (Binary64.magnitude b))

def sign : Number → Except Failure Number
  | .int i => .ok (.int (Int64.ofInt i.toInt.sign))
  | .float b =>
    let x := Binary64.toFloat b
    .ok (.ofFloat (if x.isNaN then x else if x == 0 then 0 else if x < 0 then -1 else 1))

/-- Rounds a number to an integer. -/
def rounded (round : Float → Float) : Number → Except Failure Number
  | .int i => .ok (.int i)
  | .float b => toInteger (round (Binary64.toFloat b))

/-- The integer next to a float on the side of zero. -/
def truncate (x : Float) : Float := if x < 0 then x.ceil else x.floor

/-- A function of a float, undefined where `excluded` says so. -/
def function (excluded : Float → Bool) (f : Float → Float) (x : Number) : Except Failure Number :=
  if excluded x.toFloat then .error undefined else finite (f x.toFloat)

/-- The operation that a name stands for before one operand. -/
def unary? (name : String) : Option (Number → Except Failure Number) :=
  match name with
  | "-" => some negate
  | "+" => some .ok
  | "abs" => some magnitude
  | "sign" => some sign
  | "float" => some fun x => .ok (.float x.toBits)
  | "integer" | "round" => some (rounded Float.round)
  | "truncate" => some (rounded truncate)
  | "floor" => some (rounded Float.floor)
  | "ceiling" => some (rounded Float.ceil)
  | "\\" => some fun x => do return .int (~~~(← integer x))
  | "sqrt" => some (function (· < 0) Float.sqrt)
  | "log" => some (function (· ≤ 0) Float.log)
  | "exp" => some (function (fun _ => false) Float.exp)
  | "sin" => some (function (fun _ => false) Float.sin)
  | "cos" => some (function (fun _ => false) Float.cos)
  | _ => none

-- ============================================================ evaluation

/-- The number that an atom stands for, apart from `random`. -/
def constant? (name : String) : Option Number :=
  match name with
  | "pi" => some (.float 0x400921fb54442d18)
  | "e" => some (.float 0x4005bf0a8b145769)
  | "max_integer" => some (.int Database.maxInteger)
  | "min_integer" => some (.int Database.minInteger)
  | _ => none

/-- What is said of a functor that cannot be evaluated. -/
def notEvaluable (name : String) (arity : Nat) : Failure :=
  .type "evaluable" (Predicate.toTerm ⟨name, arity⟩)

/-- The value of an expression, operands from left to right. -/
def evalWithin : (steps : Nat) → Term → Act Number
  | 0, _ => throw .unfinished
  | steps + 1, t => do
    match ← Act.strip t with
    | .number n => return n
    | .var _ | .ref _ _ => throw .instantiation
    | t =>
      match t.functor?, t.args with
      | some (name, _), [] =>
        if name = "random" then Database.random
        else Act.checked ((constant? name).elim (.error (notEvaluable name 0)) .ok)
      | some (name, _), [x] => do
        let x ← evalWithin steps x
        match unary? name with
        | some op => Act.checked (op x)
        | none => throw (notEvaluable name 1)
      | some (name, _), [x, y] => do
        let x ← evalWithin steps x
        let y ← evalWithin steps y
        match binary? name with
        | some op => Act.checked (op x y)
        | none => throw (notEvaluable name 2)
      | some (name, arity), _ => throw (notEvaluable name arity)
      | none, _ => throw (.type "evaluable" t)

/-- The value of an expression. -/
def eval (t : Term) : Act Number := do evalWithin (← Act.steps) t

/-- `Result is Expression`. -/
def evaluate (result expression : Term) : Act Bool := do
  let value ← eval expression
  Act.unify result (.number value)

/-- How the values of two expressions compare. -/
def compareValues (x y : Term) : Act Ordering := do
  let a ← eval x
  let b ← eval y
  return Number.compareValue a b

/-- `random(X)`. -/
def random (result : Term) : Act Bool := do
  let value ← Database.random
  Act.unify result (.number value)

end LogicMachine.Arithmetic
