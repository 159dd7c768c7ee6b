/-
Dumps of code and clauses, and of whatever is kept in a database.
-/
import LogicMachine.Database
import LogicMachine.Term.Dump

namespace LogicMachine

namespace Code

def scopeDump : Option Nat → String
  | some s => "Some(" ++ toString s ++ ")"
  | none => "None"

mutual

/-- How code is put together. -/
def dump (forced : Nat → Option String) : Code → String
  | .succeed => "Succeed"
  | .fail => "Fail"
  | .noop next => "Noop(" ++ dump forced next ++ ")"
  | .cut scope next =>
    "Cut \x7b scope: " ++ scopeDump scope ++ ", next: " ++ dump forced next ++ " \x7d"
  | .choice scope branches =>
    "Choice \x7b scope: " ++ scopeDump scope ++ ", branches: "
      ++ dumpList (dumps forced branches) ++ " \x7d"
  | .call target args next =>
    let name := match target with
      | .table _ p => p.text
      | .procedure (.clause c) => (c.predicate.map Predicate.text).getD "<procedure>"
      | .procedure _ => "<procedure>"
    "Call \x7b target: " ++ name ++ ", args: " ++ dumpList (args.map (Term.dump forced))
      ++ ", next: " ++ dump forced next ++ " \x7d"

def dumps (forced : Nat → Option String) : List Code → List String
  | [] => []
  | c :: cs => dump forced c :: dumps forced cs

end

end Code

/-- How a clause is put together. -/
def Clause.dump (forced : Nat → Option String) (c : Clause) : String :=
  "Clause \x7b head: " ++ c.head.dump forced ++ ", body: " ++ c.body.dump forced
    ++ ", locals: " ++ toString c.locals ++ " \x7d"

namespace Database

/-- The dump of the value of a thunk that was forced, with so many thunks
one inside the other. -/
def dumpForced (db : Database) : (thunks : Nat) → Nat → Option String
  | 0, _ => none
  | thunks + 1, id => (db.forced id).map (Term.dump (db.dumpForced thunks))

/-- The dumps of thunks as the database has them. No thunk is inside
itself, so as many levels as there are thunks are enough. -/
def dumpThunk (db : Database) : Nat → Option String := db.dumpForced db.thunks.size

end Database

end LogicMachine
