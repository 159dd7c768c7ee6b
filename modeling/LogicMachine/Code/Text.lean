/-
The text of code: one line that reads from left to right as the code runs.
-/
import LogicMachine.Code

namespace LogicMachine

namespace Code

def scopeText : Option Nat → String
  | some s => toString s
  | none => "-"

mutual

/-- Code as text, terms seen through a lens. -/
def text (lens : Lens) : Code → String
  | .succeed => "succeed"
  | .fail => "fail"
  | .noop next => "noop; " ++ text lens next
  | .cut scope next => "cut[" ++ scopeText scope ++ "]; " ++ text lens next
  | .choice scope branches =>
    "choice[" ++ scopeText scope ++ "]\x7b" ++ " | ".intercalate (texts lens branches) ++ "\x7d"
  | .call target args next =>
    let name := match target with
      | .table _ p => p.text
      | .procedure _ => "procedure"
    "call " ++ name ++ "(" ++ ", ".intercalate (args.map lens.text) ++ "); " ++ text lens next

def texts (lens : Lens) : List Code → List String
  | [] => []
  | c :: cs => text lens c :: texts lens cs

end

end Code

end LogicMachine
