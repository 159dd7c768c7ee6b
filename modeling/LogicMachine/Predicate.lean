/-
Predicates, named by a name and an arity, and their two written forms:
the text `name/arity` and the indicator term `Name/Arity`.
-/
import LogicMachine.Failure

namespace LogicMachine

structure Predicate where
  name : String
  arity : Nat
deriving DecidableEq, Hashable, Inhabited

namespace Predicate

def text (p : Predicate) : String := p.name ++ "/" ++ toString p.arity

/-- The indicator term. The arity is kept in 64 bits. -/
def toTerm (p : Predicate) : Term :=
  .compound .plain "/" [.atom p.name, .ofNat p.arity]

/-- The predicate that a callable term calls. -/
def ofTerm (t : Term) : Except Failure Predicate := do
  let (name, arity) ← t.asCallable
  return ⟨name, arity⟩

/-- Reads an indicator term. The parts are taken as they stand. -/
def ofIndicator (t : Term) : Except Failure Predicate := do
  match t.split "/" with
  | none => throw (.type "predicate_indicator" t)
  | some (name, arity) =>
    let name ← name.asAtom
    let arity ← arity.asInt
    if arity < 0 then throw (.domain "not_less_than_zero" (.int arity))
    return ⟨name, arity.toInt.toNat⟩

-- ============================================================ the text form

/-- The value of a run of decimal digits, which must not be empty. -/
def natOfDigits? (digits : List Char) : Option Nat :=
  if digits.isEmpty || !digits.all Char.isDigit then none
  else some (digits.foldl (fun n c => 10 * n + (c.toNat - '0'.toNat)) 0)

/-- Reads an arity: decimal digits, perhaps after a plus sign, of a value
below `2 ^ 64`. -/
def arity? (text : List Char) : Option Nat := do
  let digits := match text with
    | '+' :: rest => rest
    | other => other
  let n ← natOfDigits? digits
  if n < 18446744073709551616 then some n else none

/-- What comes before and after the last slash. -/
def splitLast? (text : List Char) : Option (List Char × List Char) :=
  let after := (text.reverse.takeWhile (· != '/')).reverse
  match text.reverse.dropWhile (· != '/') with
  | [] => none
  | _ :: before => some (before.reverse, after)

/-- Reads the text form. -/
def ofText (text : String) : Except Failure Predicate :=
  match splitLast? text.toList with
  | some (name, arity) =>
    match arity? arity, name with
    | some n, _ :: _ => .ok ⟨String.ofList name, n⟩
    | _, _ => .error (.domain "predicate_indicator" (.atom text))
  | none => .error (.domain "predicate_indicator" (.atom text))

end Predicate

end LogicMachine
