/-
Slots for the variables of a clause.

Variables are numbered by their first appearance, from left to right. A
variable without a slot is known by its name, one with a slot by that
slot. Compounds that hold variables are made anew; references and closures
are none of the clause's variables and stay.
-/
import LogicMachine.Database

namespace LogicMachine

/-- The variables of a clause met so far, in order, and the serial number
of the next compound. -/
structure Indexing where
  vars : List Var := []
  serial : Nat
deriving Inhabited

/-- Whether two template variables of a term are the same variable. -/
def Var.isSameVariable : Var → Var → Bool
  | .named a, .named b => a == b
  | .slot i _, .slot j _ => i == j
  | _, _ => false

namespace Indexing

/-- The slot of a variable, the next free one for a new variable. -/
def slotFor (v : Var) (s : Indexing) : Nat × Indexing :=
  match s.vars.findIdx? v.isSameVariable with
  | some i => (i, s)
  | none => (s.vars.length, { s with vars := s.vars ++ [v] })

end Indexing

namespace Term

mutual

/-- The term with a slot for each of its variables. -/
def index : Term → Indexing → Term × Indexing
  | .var .wildcard, s => (.var .wildcard, s)
  | .var v, s =>
    let (i, s) := s.slotFor v
    (.var (.slot i v.name), s)
  | .compound (.template _) name args, s =>
    let (args, s) := indexAll args s
    (build s.serial name args, { s with serial := s.serial + 1 })
  | t, s => (t, s)

def indexAll : List Term → Indexing → List Term × Indexing
  | [], s => ([], s)
  | t :: ts, s =>
    let (t, s) := index t s
    let (ts, s) := indexAll ts s
    (t :: ts, s)

end

end Term

namespace Database

/-- Gives the variables of a term slots, and answers their names by
slot. -/
def indexTerm (t : Term) : Store (Term × List String) :=
  modifyGet fun db =>
    let (t, s) := t.index { serial := db.nextTerm }
    ((t, s.vars.map Var.name), { db with nextTerm := s.serial })

end Database

end LogicMachine
