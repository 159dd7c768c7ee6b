/-
Numbers: 64-bit integers and floats.

A float is kept as its bit pattern, so that equality of numbers is plain
equality of data: `1` and `1.0` differ, `0.0` and `-0.0` differ, and
every number, a NaN included, equals itself. The standard order of
numbers is by value, and an integer comes right after the float of the
same value.
-/
import LogicMachine.Binary64

namespace LogicMachine

/-- A number of the language. -/
inductive Number where
  | int (value : Int64)
  | float (bits : UInt64)
deriving DecidableEq, Inhabited

namespace Number

def ofFloat (x : Float) : Number := .float (Binary64.ofFloat x)

/-- The number as a machine float, rounded to the nearest. -/
def toFloat : Number → Float
  | .int i => i.toFloat
  | .float b => Binary64.toFloat b

/-- The bits of the number as a float; those of a float are untouched. -/
def toBits : Number → UInt64
  | .int i => Binary64.ofInt64 i
  | .float b => b

/-- The place of numbers in the standard order of terms. -/
def order : Number → Number → Ordering
  | .int a, .int b => compare a.toInt b.toInt
  | .float a, .float b => Binary64.order a b
  | .int a, .float b => (Binary64.order (Number.int a).toBits b).then .gt
  | .float a, .int b => (Binary64.order a (Number.int b).toBits).then .lt

/-- Comparison by value, as the arithmetic comparisons see it. -/
def compareValue : Number → Number → Ordering
  | .int a, .int b => compare a.toInt b.toInt
  | a, b => Binary64.order a.toBits b.toBits

/-- The text of a number in a term. -/
def text : Number → String
  | .int i => toString i.toInt
  | .float b => Binary64.text b

end Number

end LogicMachine
