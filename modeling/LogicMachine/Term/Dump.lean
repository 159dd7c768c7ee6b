/-
Dumps of terms, which show how a term is put together.

A dump names the constructor of every part, writes atoms between double
quotes and follows no reference. What a thunk shows is told from outside,
since its value is in the database.
-/
import LogicMachine.Failure
import LogicMachine.Text.Escape

namespace LogicMachine

/-- Items between square brackets. -/
def dumpList (items : List String) : String := "[" ++ ", ".intercalate items ++ "]"

namespace Term

mutual

/-- How a term is put together. -/
def dump (forced : Nat → Option String) : Term → String
  | .atom name => "Atom(" ++ Text.Escape.quote name ++ ")"
  | .number (.int i) => "Int(" ++ toString i.toInt ++ ")"
  | .number (.float bits) => "Float(" ++ Binary64.dump bits ++ ")"
  | .host _ => "Opaque()"
  | .thunk id => "Thunk(" ++ (forced id).getD "<pending>" ++ ")"
  | .var v => "Var(" ++ Text.Escape.quote v.name ++ ", " ++ toString v.number ++ ")"
  | .ref cell name =>
    "Ref(" ++ Text.Escape.quote name ++ ", " ++ toString cell.slot ++ ", FrameId("
      ++ toString cell.frame ++ "))"
  | .compound _ name args =>
    "Compound(" ++ Text.Escape.quote name ++ ", " ++ dumpList (dumps forced args) ++ ")"
  | .closure _ name args frame =>
    "CompoundRef(" ++ Text.Escape.quote name ++ ", " ++ dumpList (dumps forced args)
      ++ ", FrameId(" ++ toString frame ++ "))"

def dumps (forced : Nat → Option String) : List Term → List String
  | [] => []
  | t :: ts => dump forced t :: dumps forced ts

end

/-- How a term looks to a program: its top level, with the arguments as
dumps. -/
def viewDump (forced : Nat → Option String) : Term → String
  | .var v => "Var(" ++ Text.Escape.quote v.name ++ ")"
  | .ref _ name => "Var(" ++ Text.Escape.quote name ++ ")"
  | t@(.compound _ name _) | t@(.closure _ name _ _) =>
    "Func(" ++ Text.Escape.quote name ++ ", " ++ dumpList (t.args.map (dump forced)) ++ ")"
  | t => t.dump forced

end Term

/-- How a failure is put together. -/
def Failure.dump (forced : Nat → Option String) : Failure → String
  | .thrown ball => "Thrown(" ++ ball.dump forced ++ ")"
  | .fatal reason => "Fatal(" ++ Text.Escape.quote reason ++ ")"
  | .unfinished => "Unfinished"

end LogicMachine
