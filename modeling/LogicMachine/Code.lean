/-
Code, the continuations that the machine runs.

There is no program counter. A frame keeps the `Code` to go on with once
the frame above it succeeds, and code is shared by every activation of
the clause it was compiled from. Code, the procedures it calls and the
clauses that are procedures are defined together.
-/
import LogicMachine.Builtin
import LogicMachine.Predicate

namespace LogicMachine

mutual

/-- What to do next. A choice with a scope belongs to an if-then(-else)
and is what a cut with that scope stops at; a cut without a scope cuts
the clause. `noop` keeps the call before it from being a last call. -/
inductive Code where
  | succeed
  | fail
  | choice (scope : Option Nat) (branches : List Code)
  | cut (scope : Option Nat) (next : Code)
  | call (target : Target) (args : List Term) (next : Code)
  | noop (next : Code)

/-- What a goal calls: the table of a predicate, read when the goal runs,
or one procedure. -/
inductive Target where
  | table (index : Nat) (predicate : Predicate)
  | procedure (procedure : Procedure)

/-- Something that can be called. `call` runs its first argument, with
the further arguments appended to it; `collect` keeps a copy of a
template for the `findall/3` that made it; `shield` calls its argument by
another procedure and catches atoms. -/
inductive Procedure where
  | clause (clause : Clause)
  | direct (builtin : Direct)
  | framed (builtin : Framed)
  | call
  | collect (template : Term) (collector : Nat)
  | shield (target : Procedure)

/-- A compiled clause: a fact, a rule, or a goal without a head. Its
serial number tells it from every other clause ever compiled; the names
are those of its variables, by slot. -/
structure Clause where
  serial : Nat
  predicate : Option Predicate
  head : Term
  body : Term
  args : List Term
  code : Code
  names : List String

end

instance : Inhabited Code := ⟨.fail⟩

instance : Inhabited Target := ⟨.table 0 default⟩

instance : Inhabited Procedure := ⟨.call⟩

instance : Inhabited Clause := ⟨⟨0, none, default, default, [], default, []⟩⟩

/-- A procedure in the table of its predicate, with the identity of that
row. -/
structure Row where
  id : Nat
  procedure : Procedure
deriving Inhabited

namespace Code

/-- Success or failure. -/
def ofBool : Bool → Code
  | true => .succeed
  | false => .fail

def isSucceed : Code → Bool
  | .succeed => true
  | _ => false

/-- Calls one procedure. -/
def run (procedure : Procedure) (args : List Term) (next : Code) : Code :=
  .call (.procedure procedure) args next

/-- A choice between the given branches, or the only one of them. -/
def join : List Code → Code
  | [code] => code
  | branches => .choice none branches

end Code

namespace Procedure

def clause? : Procedure → Option Clause
  | .clause c => some c
  | _ => none

end Procedure

namespace Clause

/-- The number of slots in the frame of the clause. -/
def locals (c : Clause) : Nat := c.names.length

/-- The head that stands for none. -/
def goalHead : Term := .atom "$goal"

/-- The clause as a term: `Head :- Body`, or the head alone for a fact.
The serial number is for the compound that holds both. -/
def toTerm (serial : Nat) (c : Clause) : Term :=
  if c.body.hasFunctor "true" 0 then c.head
  else Term.build serial ":-" [c.head, c.body]

end Clause

end LogicMachine
