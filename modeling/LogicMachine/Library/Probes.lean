/-
Procedures that show the machine at work: they note where it stands, fail
in every way there is, and use each way to offer alternatives.
-/
import LogicMachine.Machine

namespace LogicMachine.Probes

open Act

/-- `gauge`: notes the length of the chain of frames. -/
def gauge : Act Bool := do
  let q := (← get).query
  Database.note (.depth q.depth)
  return true

/-- `probe(Label)`: notes where the machine stands. -/
def probe (label : Term) : Act Bool := do
  let lens ← lens
  let q := (← get).query
  Database.note (.sighting
    { label := lens.text label
      depth := q.depth
      ancestry := q.ancestry
      frame := q.callee
      frames := q.frames.size
      more := q.canBacktrack })
  return true

/-- `fatal(Reason)`: fails for good. -/
def fatal (reason : Term) : Act Bool := do
  let lens ← lens
  throw (.fatal (lens.text reason))

/-- `fresh(N, Vars)`: makes a list of new variables. -/
def freshVariables (n vars : Term) : Act Bool := do
  let count ← checked (← strip n).asInt
  let fresh ← freshVars count.toInt.toNat
  unify vars (← list fresh)

/-- `each(X, Items)`: leaves a choice point over the items. -/
def each (x items : Term) : Act Code := do
  let items ← listItems items
  let _ ← pushChoice (.candidates items x)
  return .fail

/-- `later(X, Y)`: succeeds, and unifies its arguments when all that comes
after has failed. -/
def later (x y : Term) : Act Code := do
  let _ ← pushChoice (.once x y)
  return .succeed

/-- Code of every shape, by name. -/
def sample (name : String) : Code :=
  match name with
  | "empty" => .choice none []
  | "single" => .choice none [.succeed]
  | "twice" => .choice none [.succeed, .noop .succeed]
  | "local" => .choice (some 7) [.cut (some 7) .succeed, .succeed]
  | "other" => .choice (some 7) [.cut (some 8) .succeed, .succeed]
  | "cut" => .choice none [.cut none .succeed, .succeed]
  | "noop" => .noop (.noop .succeed)
  | _ => .fail

/-- `code(Name)`: goes on with a sample of code. -/
def sampleCode (name : Term) : Act Code := do
  return sample (← checked (← strip name).asAtom)

/-- `shield(Goal)` catches atoms, without undoing anything, and notes
every ball it is offered. -/
def shieldBall (ball : Term) : Act (Option Code) := do
  let db := (← get).db
  Database.note (.text ("shield " ++ db.lens.text ball))
  match ball with
  | .atom _ => return some .succeed
  | _ => return none

end LogicMachine.Probes
