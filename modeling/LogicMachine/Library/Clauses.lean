/-
The clause store seen from a program: adding, removing and listing
clauses.

Going through the clauses of a predicate works on the rows that it had at
the call, whatever is added or removed meanwhile.
-/
import LogicMachine.Machine

namespace LogicMachine.Clauses

open Act

/-- `assertz(C)` and `asserta(C)`: adds a copy of the clause. -/
def assert (position : Position) (c : Term) : Act Bool := do
  let t ← strip c
  if t.isVar then throw .instantiation
  let copy ← detach t
  let _ ← (Database.addClause copy position : Store Clause)
  return true

/-- The head and body of a clause term. The head must be callable. -/
def headAndBody (t : Term) : Act (Term × Term) := do
  let t ← strip t
  let (head, body) := (t.split ":-").getD (t, .atom "true")
  let head ← strip head
  if head.isVar then throw .instantiation
  if !head.isCallable then throw (.type "callable" head)
  return (head, body)

/-- Leaves a choice point over the clauses of the predicate of `head`. -/
def matching (head body : Term) (remove : Bool) : Act Code := do
  let predicate ← checked (Predicate.ofTerm head)
  let rows := ((← get).db.table? predicate).elim #[] Table.rows
  if rows.isEmpty then return .fail
  let pattern ← Database.term ":-" [head, body]
  let _ ← pushChoice (.matching predicate rows 0 pattern remove)
  return .fail

/-- `retract(C)`. -/
def retract (c : Term) : Act Code := do
  let (head, body) ← headAndBody c
  matching head body true

/-- `clause(Head, Body)`. -/
def clause (head body : Term) : Act Code := do
  let (head, _) ← headAndBody head
  let body ← strip body
  if !body.isVar && !body.isCallable then throw (.type "callable" body)
  matching head body false

/-- `abolish(Name/Arity)`. -/
def abolish (indicator : Term) : Act Bool := do
  let predicate ← checked (Predicate.ofIndicator (← strip indicator))
  let _ ← (Database.abolish predicate : Store Bool)
  return true

/-- The predicates that have at least one clause. -/
def defined (db : Database) : List Predicate :=
  (db.tables.toList.filter fun t => t.rows.any (·.procedure.clause?.isSome)).map (·.predicate)

/-- Whether a term could be a name or an arity that is yet to be found. -/
def isPart (fits : Term → Bool) (t : Term) : Bool := t.isVar || fits t

/-- `current_predicate(Name/Arity)`. -/
def currentPredicate (indicator : Term) : Act Code := do
  let indicator ← strip indicator
  if !indicator.isVar then
    match indicator.split "/" with
    | none => throw (.type "predicate_indicator" indicator)
    | some (name, arity) =>
      let name ← strip name
      let arity ← strip arity
      if !(isPart Term.isAtom name) || !(isPart (fun t => t.asInt.isOk) arity) then
        throw (.type "predicate_indicator" indicator)
  enumerate ((defined (← get).db).map Predicate.toTerm) indicator

end LogicMachine.Clauses
