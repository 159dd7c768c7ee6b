/-
Writing terms to the sink of the database.
-/
import LogicMachine.Machine

namespace LogicMachine.Output

/-- `write(T)`, or `writeq(T)` with atoms quoted. -/
def write (quoted : Bool) (t : Term) : Act Bool := do
  let lens ← Act.lens
  Database.write (if quoted then lens.text t else lens.bareText t)
  return true

/-- `nl`. -/
def newline : Act Bool := do
  Database.write "\n"
  return true

end LogicMachine.Output
