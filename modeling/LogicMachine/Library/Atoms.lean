/-
Atoms and their characters. Lengths and offsets count characters.
-/
import LogicMachine.Machine

namespace LogicMachine.Atoms

open Act

/-- A length or offset, or nothing for a variable. -/
def optionalLength (t : Term) : Act (Option Nat) := do
  let t ← strip t
  if t.isVar then return none
  let n ← checked t.asInt
  if n < 0 then throw (.domain "not_less_than_zero" t)
  return some n.toInt.toNat

def atomText (t : Term) : Act String := do
  checked (← strip t).asAtom

/-- `atom_length(A, N)`. -/
def atomLength (a n : Term) : Act Bool := do
  let length := (← atomText a).length
  match ← optionalLength n with
  | some expected => return expected == length
  | none => unify n (.ofNat length)

/-- Every way to divide a text in two, the shortest first part first. -/
def divisions : List Char → List (List Char × List Char)
  | [] => [([], [])]
  | c :: rest => ([], c :: rest) :: (divisions rest).map fun (a, b) => (c :: a, b)

/-- `atom_concat(X, Y, Whole)`. -/
def atomConcat (x y whole : Term) : Act Code := do
  let known ← strip whole
  if known.isVar then
    let first ← atomText x
    let second ← atomText y
    return .ofBool (← unify known (.atom (first ++ second)))
  else
    let text ← checked known.asAtom
    let splits := (divisions text.toList).map fun (a, b) =>
      Term.compound .plain "+" [.atom (String.ofList a), .atom (String.ofList b)]
    enumerate splits (← Database.term "+" [x, y])

/-- `sub_atom(A, Before, Length, After, Sub)`. Only parts of the right
length are tried when the part or its length is known. -/
def subAtom (a before length after sub : Term) : Act Code := do
  let text ← atomText a
  let _ ← optionalLength before
  let _ ← optionalLength after
  let known ← optionalLength length
  let part ← strip sub
  let known ← if part.isVar then pure known
    else pure (some (← checked part.asAtom).length)
  let target ← Database.term "sub" [before, length, after, part]
  let _ ← pushChoice
    (.substrings text.toList.toArray 0 (known.getD 0) known target)
  return .fail

/-- A character given as an atom. -/
def charOf (t : Term) : Act Char := do
  let t ← strip t
  match (← checked t.asAtom).toList with
  | [c] => return c
  | _ => throw (.type "character" t)

/-- A character given by its code. -/
def charOfCode (t : Term) : Act Char := do
  let code ← checked (← strip t).asInt
  let n := code.toInt.toNat
  if 0 ≤ code.toInt ∧ n.isValidChar then return Char.ofNat n
  else throw (.representation "character_code")

def charTerm (c : Char) : Term := .atom (String.singleton c)

def codeTerm (c : Char) : Term := .ofNat c.toNat

/-- Goes between an atom and the list of its characters in some form. -/
def textList (item : Char → Term) (read : Term → Act Char) (a l : Term) : Act Bool := do
  let known ← strip a
  if !known.isVar then
    let text ← checked known.asAtom
    unify l (← list (text.toList.map item))
  else
    let chars ← (← listItems l).mapM read
    unify known (.atom (String.ofList chars))

/-- `atom_chars(A, Chars)`. -/
def atomChars : Term → Term → Act Bool := textList charTerm charOf

/-- `atom_codes(A, Codes)`. -/
def atomCodes : Term → Term → Act Bool := textList codeTerm charOfCode

/-- `char_code(Char, Code)`. -/
def charCode (char code : Term) : Act Bool := do
  let known ← strip char
  if !known.isVar then
    let c ← charOf known
    unify code (codeTerm c)
  else
    let c ← charOfCode code
    unify char (charTerm c)

end LogicMachine.Atoms
