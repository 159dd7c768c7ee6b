/-
The built-in predicates, as data.

A `Direct` built-in runs on behalf of its caller and succeeds at most
once. A `Framed` one runs in a call frame of its own and answers with the
code to go on with. Both are closed lists; what each does is defined with
the library.
-/
namespace LogicMachine

/-- Where a clause joins the clauses of its predicate. -/
inductive Position where
  | front
  | back
deriving DecidableEq, Inhabited

/-- A test on the outcome of a comparison. -/
inductive Relation where
  | eq | ne | lt | gt | le | ge
deriving DecidableEq, Inhabited

def Relation.holds : Relation → Ordering → Bool
  | .eq, o => o == .eq
  | .ne, o => o != .eq
  | .lt, o => o == .lt
  | .gt, o => o == .gt
  | .le, o => o != .gt
  | .ge, o => o != .lt

/-- The classes of terms that a program can test for. -/
inductive TermClass where
  | var | nonvar | atom | number | integer | float | atomic | compound | callable
deriving DecidableEq, Inhabited

/-- Built-ins that run on behalf of their caller. -/
inductive Direct where
  /- Control. -/
  | succeed | fail | raise | defer
  /- Terms. -/
  | unify | notUnifiable | termOrder (relation : Relation) | compare
  | belongs (kind : TermClass) | isList | functor | argument | univ | copyTerm | termVariables
  /- Arithmetic. -/
  | evaluate | valueOrder (relation : Relation) | random
  /- The clause store. -/
  | assert (position : Position) | abolish
  /- Atoms. -/
  | atomLength | atomChars | atomCodes | charCode
  /- Flags and operators. -/
  | setFlag | defineOperator
  /- Output. -/
  | write (quoted : Bool) | newline
  /- Probes of the machine. -/
  | gauge | probe | fatal | freshVariables
deriving DecidableEq, Inhabited

/-- Built-ins that run in a frame of their own. -/
inductive Framed where
  /- Control. -/
  | guarded | findall | between
  /- The clause store. -/
  | retract | clause | currentPredicate
  /- Atoms. -/
  | atomConcat | subAtom
  /- Flags and operators. -/
  | currentFlag | currentOperator
  /- Probes of the machine. -/
  | uninvokable (name : String) | each | later | sampleCode
deriving DecidableEq, Inhabited

namespace Framed

/-- The number of slots in the frame of a built-in. -/
def locals : Framed → Nat
  | .guarded => 3
  | _ => 0

/-- Whether a built-in enters its frame for so many arguments. The frame
of a guarded goal is to hold a catcher, a handler and a barrier, so it is
not entered without the arguments that they come from. -/
def admits : Framed → Nat → Bool
  | .guarded, count => count == 3
  | _, _ => true

end Framed

end LogicMachine
