/-
The operator table.

A name may be an operator once in each position: before, between or after
its operands. A definition before its operand stands beside any other; a
definition between and one after exclude each other. The table keeps its
names in the order of their first definition, and a name stays in its
place when its last definition is taken away.
-/
import LogicMachine.Failure

namespace LogicMachine

/-- Where an operator stands. -/
inductive Fixity where
  | before
  | between
  | after
deriving DecidableEq, Inhabited

namespace Fixity

def number : Fixity → Nat
  | .before => 0
  | .between => 1
  | .after => 2

def ofNumber? : Nat → Option Fixity
  | 0 => some .before
  | 1 => some .between
  | 2 => some .after
  | _ => none

end Fixity

/-- The type of an operator: where it stands and on which sides it takes
an operand of its own priority. -/
inductive OperatorType where
  | xfx | xfy | yfx | fy | fx | xf | yf
deriving DecidableEq, Inhabited

namespace OperatorType

def name : OperatorType → String
  | .xfx => "xfx"
  | .xfy => "xfy"
  | .yfx => "yfx"
  | .fy => "fy"
  | .fx => "fx"
  | .xf => "xf"
  | .yf => "yf"

def fixity : OperatorType → Fixity
  | .xfx | .xfy | .yfx => .between
  | .fy | .fx => .before
  | .xf | .yf => .after

def ofName (name : String) : Except Failure OperatorType :=
  match [xfx, xfy, yfx, fy, fx, xf, yf].find? (·.name == name) with
  | some kind => .ok kind
  | none => .error (.domain "operator_specifier" (.atom name))

end OperatorType

/-- One definition of the table. -/
structure Operator where
  priority : Int64
  kind : OperatorType
  name : String
deriving Inhabited

/-- The definitions of one name, at most one for each position. -/
structure Operator.Entry where
  before : Option (Int64 × OperatorType) := none
  between : Option (Int64 × OperatorType) := none
  after : Option (Int64 × OperatorType) := none
deriving Inhabited

namespace Operator.Entry

def get (e : Entry) : Fixity → Option (Int64 × OperatorType)
  | .before => e.before
  | .between => e.between
  | .after => e.after

def set (e : Entry) (fixity : Fixity) (d : Option (Int64 × OperatorType)) : Entry :=
  match fixity with
  | .before => { e with before := d }
  | .between => { e with between := d }
  | .after => { e with after := d }

theorem get_set (e : Entry) (fixity other : Fixity) (d : Option (Int64 × OperatorType)) :
    (e.set fixity d).get other = if other = fixity then d else e.get other := by
  cases fixity <;> cases other <;> rfl

end Operator.Entry

/-- The operator table, in the order of first definition. -/
structure Operators where
  entries : List (String × Operator.Entry) := []
deriving Inhabited

namespace Operators

def lowest : Int64 := 0

def highest : Int64 := 1200

def isPriority (p : Int64) : Bool := lowest ≤ p && p ≤ highest

def entry (ops : Operators) (name : String) : Operator.Entry :=
  (ops.entries.lookup name).getD {}

/-- Replaces the entry of a name, at the end for a new name. -/
def put (ops : Operators) (name : String) (e : Operator.Entry) : Operators :=
  if ops.entries.any (·.1 == name) then
    ⟨ops.entries.map fun (n, old) => if n == name then (n, e) else (n, old)⟩
  else ⟨ops.entries ++ [(name, e)]⟩

def get? (ops : Operators) (name : String) (fixity : Fixity) : Option (Int64 × OperatorType) :=
  (ops.entry name).get fixity

/-- The position that a definition at `fixity` excludes. -/
def rival : Fixity → Option Fixity
  | .before => none
  | .between => some .after
  | .after => some .between

/-- Defines an operator, or with priority 0 takes its definition away.
Either way the name has its place in the table from then on. -/
def define (ops : Operators) (priority : Int64) (kind : OperatorType) (name : String) :
    Except Failure Operators :=
  if !isPriority priority then .error (.domain "operator_priority" (.int priority))
  else if name = "," then .error (.permission "modify" "operator" (.atom name))
  else
    let e := ops.entry name
    let taken := (rival kind.fixity).any fun fixity => (e.get fixity).isSome
    if priority > 0 && taken then .error (.permission "create" "operator" (.atom name))
    else
      .ok (ops.put name (e.set kind.fixity (if priority > 0 then some (priority, kind) else none)))

/-- Every definition, name by name. -/
def definitions (ops : Operators) : List Operator :=
  ops.entries.flatMap fun (name, e) =>
    [e.before, e.between, e.after].filterMap fun d =>
      d.map fun (priority, kind) => ⟨priority, kind, name⟩

/-- The operators that every table starts with. -/
def standardDefinitions : List (Int64 × OperatorType × List String) := [
  (1200, .xfx, [":-", "-->"]),
  (1200, .fx, [":-", "?-"]),
  (1100, .xfy, [";", "|"]),
  (1050, .xfy, ["->"]),
  (1000, .xfy, [","]),
  (900, .fy, ["\\+"]),
  (700, .xfx, ["=", "\\=", "==", "\\==", "@<", "@>", "@=<", "@>=", "=..", "is", "=:=", "=\\=",
    "<", ">", "=<", ">="]),
  (500, .yfx, ["+", "-", "/\\", "\\/"]),
  (400, .yfx, ["*", "/", "//", "rem", "mod", "<<", ">>"]),
  (200, .xfx, ["**"]),
  (200, .xfy, ["^"]),
  (200, .fy, ["-", "+", "\\"])]

/-- The standard operator table. -/
def standard : Operators :=
  standardDefinitions.foldl (fun ops (priority, kind, names) =>
    names.foldl (fun ops name =>
      ops.put name ((ops.entry name).set kind.fixity (some (priority, kind)))) ops) {}

end Operators

end LogicMachine
