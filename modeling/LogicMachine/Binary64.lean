/-
Floating point numbers as their 64 bits: the fields of the format, the
total order on bit patterns, and the decimal texts.

A pattern stands for `(-1)^sign * significand * 2^power`. All decimal
work is exact arithmetic on `significand` and `power`; no rounding of
the machine takes part in it. The shortest text is found by asking, from
the coarsest grid of powers of ten downwards, whether one of the two
grid points next to the value reads back as the value.
-/
namespace LogicMachine.Binary64

-- ============================================================ the fields

def isNegative (bits : UInt64) : Bool :=
  bits ≥ 0x8000000000000000

/-- The biased exponent, from 0 (zeros and subnormals) to 2047
(infinities and NaNs). -/
def exponentField (bits : UInt64) : Nat :=
  ((bits >>> 52) &&& 0x7ff).toNat

def fraction (bits : UInt64) : Nat :=
  (bits &&& 0xfffffffffffff).toNat

def isFinite (bits : UInt64) : Bool :=
  exponentField bits < 2047

def isNaN (bits : UInt64) : Bool :=
  exponentField bits == 2047 && fraction bits != 0

/-- The bit of a significand that normal values do not store: two to the
power 52. -/
def hiddenBit : Nat := 4503599627370496

/-- The integer significand of a finite value. -/
def significand (bits : UInt64) : Nat :=
  if exponentField bits = 0 then fraction bits else fraction bits + hiddenBit

/-- The power of two that scales the significand. -/
def power (bits : UInt64) : Int :=
  (max 1 (exponentField bits) : Nat) - 1075

/-- The value as a quotient of two integers, without its sign. -/
def quotient (bits : UInt64) : Nat × Nat :=
  match power bits with
  | .ofNat k => (significand bits * Nat.pow 2 k, 1)
  | .negSucc k => (significand bits, Nat.pow 2 (k + 1))

/-- Finite and without a fractional part. -/
def isIntegral (bits : UInt64) : Bool :=
  isFinite bits && (quotient bits).1 % (quotient bits).2 == 0

/-- The place of a bit pattern in the total order: negative patterns
first, the larger in size the earlier, and `-0.0` just before `0.0`. -/
def rank (bits : UInt64) : Int :=
  if isNegative bits then 9223372036854775807 - (bits.toNat : Int) else bits.toNat

/-- The total order on bit patterns. -/
def order (a b : UInt64) : Ordering :=
  compare (rank a) (rank b)

-- ============================================================ integers

/-- The significand of the value nearest to a positive integer, of two
equally near the even one. It has 53 bits, unless it was rounded up to the
next power of two. -/
def nearest (n : Nat) : Nat :=
  if n.log2 ≤ 52 then n * Nat.pow 2 (52 - n.log2)
  else
    let unit := Nat.pow 2 (n.log2 - 52)
    let below := n / unit
    -- On a tie, twice the remainder is the unit and the parity decides.
    if unit < 2 * (n % unit) + below % 2 then below + 1 else below

/-- The bits of the value nearest to a natural number, as a number. A
significand rounded up to a power of two carries into the exponent. -/
def bitsOfNat (n : Nat) : Nat :=
  if n = 0 then 0 else (1022 + n.log2) * hiddenBit + nearest n

/-- The bits of the value nearest to an integer. -/
def ofInt64 (i : Int64) : UInt64 :=
  let size := bitsOfNat i.toInt.natAbs
  .ofNat (if i.toInt < 0 then 9223372036854775808 + size else size)

-- ============================================================ decimal digits

/-- The decimal number `digits * 10 ^ exponent`. -/
structure Decimal where
  digits : Nat
  exponent : Int
deriving Repr, Inhabited

/-- Whether `digits * 10 ^ exponent` rounds to the finite value of
`bits`: it lies between the midpoints to the two neighbouring values, and
a midpoint itself counts when the significand is even. -/
def readsBack (bits : UInt64) (d : Decimal) : Bool :=
  let m := significand bits
  let q := power bits - 2
  -- Everything is scaled by four so that the midpoints are integers.
  let low := if m = hiddenBit && exponentField bits > 1 then 4 * m - 1 else 4 * m - 2
  let high := 4 * m + 2
  let scale (n : Nat) (base : Nat) (e : Int) : Nat := n * Nat.pow base e.toNat
  let left (n : Nat) := scale (scale n 2 q) 10 (-d.exponent)
  let right := scale (scale d.digits 10 d.exponent) 2 (-q)
  if m % 2 = 0 then left low ≤ right && right ≤ left high
  else left low < right && right < left high

/-- The two points of the grid `10 ^ exponent` next to the value, and
whether the upper one is at least as near. -/
def gridPoints (bits : UInt64) (exponent : Int) : Nat × Nat × Bool :=
  let (num, den) := quotient bits
  let num := num * Nat.pow 10 (-exponent).toNat
  let den := den * Nat.pow 10 exponent.toNat
  (num / den, num / den + 1, 2 * (num % den) ≥ den)

/-- The nearest point of one grid that reads back, the upper one on a
tie. -/
def onGrid? (bits : UInt64) (exponent : Int) : Option Decimal :=
  let (below, above, upward) := gridPoints bits exponent
  let below : Decimal := ⟨below, exponent⟩
  let above : Decimal := ⟨above, exponent⟩
  match readsBack bits below, readsBack bits above with
  | true, true => some (if upward then above else below)
  | true, false => some below
  | false, true => some above
  | false, false => none

/-- The number of decimal digits before the point, or minus the number
of zeros right after it. -/
def leading (bits : UInt64) : Int :=
  let (num, den) := quotient bits
  if num / den > 0 then (Nat.toDigits 10 (num / den)).length
  else -(zeros 400 num den : Int)
where
  zeros : Nat → Nat → Nat → Nat
    | 0, _, _ => 0
    | fuel + 1, num, den => if num * 10 / den > 0 then 0 else zeros fuel (num * 10) den + 1

/-- The fewest digits that read back as a finite value other than zero.
Seventeen always do, so the last case is not reached. -/
def shortest (bits : UInt64) : Decimal :=
  go 18 (leading bits)
where
  go : Nat → Int → Decimal
    | 0, exponent => ⟨(gridPoints bits exponent).1, exponent⟩
    | fuel + 1, exponent => (onGrid? bits exponent).getD (go fuel (exponent - 1))

-- ============================================================ decimal texts

/-- A decimal number in positional notation, with a point only if there
are digits after it. -/
def Decimal.positional (d : Decimal) : String :=
  let text := toString d.digits
  match d.exponent with
  | .ofNat k => text ++ String.ofList (List.replicate k '0')
  | .negSucc k =>
    let places := k + 1
    if places < text.length then
      (text.take (text.length - places)).copy ++ "." ++ (text.drop (text.length - places)).copy
    else
      "0." ++ String.ofList (List.replicate (places - text.length) '0') ++ text

/-- A decimal number in scientific notation: one digit before the point,
and a point only if there are digits after it. -/
def Decimal.scientific (d : Decimal) : String :=
  let text := toString d.digits
  let fractional := (text.drop 1).copy
  let shift := d.exponent + ((text.length : Int) - 1)
  (text.take 1).copy ++ (if fractional.isEmpty then "" else "." ++ fractional)
    ++ "e" ++ toString shift

/-- The texts of the values that are not finite. -/
def nonFinite (bits : UInt64) : String :=
  if isNaN bits then "NaN" else if isNegative bits then "-inf" else "inf"

def sign (bits : UInt64) : String :=
  if isNegative bits then "-" else ""

/-- The text of a value in a term: an integral value is written out
exactly and ends in `.0`, any other has the fewest digits that read back;
there is never an exponent. -/
def text (bits : UInt64) : String :=
  if !isFinite bits then nonFinite bits
  else if isIntegral bits then
    sign bits ++ toString ((quotient bits).1 / (quotient bits).2) ++ ".0"
  else sign bits ++ (shortest bits).positional

/-- The text of a value in the dump of a term: the fewest digits that
read back, in scientific notation below `1e-4` and from `1e16` on. -/
def dump (bits : UInt64) : String :=
  if !isFinite bits then nonFinite bits
  else if significand bits = 0 then sign bits ++ "0.0"
  else
    let (num, den) := quotient bits
    if num * 10000 < den || num ≥ 10000000000000000 * den then sign bits ++ (shortest bits).scientific
    else if isIntegral bits then text bits
    else sign bits ++ (shortest bits).positional

-- ============================================================ floats

/-- The bits of a machine float. -/
def ofFloat (x : Float) : UInt64 := x.toBits

def toFloat (bits : UInt64) : Float := Float.ofBits bits

def negate (bits : UInt64) : UInt64 := bits ^^^ 0x8000000000000000

def magnitude (bits : UInt64) : UInt64 := bits &&& 0x7fffffffffffffff

end LogicMachine.Binary64
