/-
Flags and operators seen from a program.
-/
import LogicMachine.Machine

namespace LogicMachine.Settings

open Act

/-- What an argument stands for that must be an atom if it is known. -/
def atomOrVar (t : Term) : Act Term := do
  let t ← strip t
  if !t.isVar then
    let _ ← checked t.asAtom
  return t

/-- The values that the flag `unknown` may have. -/
def unknownValues : List String := ["error", "fail", "warning"]

/-- Whether a term may become the value of a flag. -/
def isValueFor (name : String) (value : Term) : Bool :=
  if name = "unknown" then
    match value with
    | .atom a => unknownValues.contains a
    | _ => false
  else true

/-- `set_prolog_flag(Name, Value)`: keeps a copy of the value. -/
def setFlag (name value : Term) : Act Bool := do
  let name ← checked (← strip name).asAtom
  let value ← strip value
  if value.isVar then throw .instantiation
  if !isValueFor name value then
    throw (.domain "flag_value" (← Database.term "+" [.atom name, value]))
  let copy ← detach value
  Database.setFlag name copy
  return true

/-- `current_prolog_flag(Name, Value)`. -/
def currentFlag (name value : Term) : Act Code := do
  let _ ← atomOrVar name
  let flags ← (← get).db.flags.mapM fun (n, v) =>
    (Database.term "flag" [.atom n, v] : Act Term)
  enumerate flags (← Database.term "flag" [name, value])

/-- The names given to `op/3`: an atom, or a list of atoms. -/
def operatorNames (names : Term) : Act (List Term) := do
  match ← strip names with
  | .atom "[]" => return []
  | .atom name => return [.atom name]
  | other => listItems other

/-- Defines the operators one after the other. -/
def defineAll (priority : Int64) (kind : OperatorType) : List Term → Act Unit
  | [] => return ()
  | name :: names => do
    let name ← checked (← strip name).asAtom
    Database.defineOperator priority kind name
    defineAll priority kind names

/-- `op(Priority, Type, Names)`. -/
def defineOperator (priority kind names : Term) : Act Bool := do
  let priority ← checked (← strip priority).asInt
  let kind ← checked (← strip kind).asAtom
  let kind ← checked (OperatorType.ofName kind)
  defineAll priority kind (← operatorNames names)
  return true

/-- `current_op(Priority, Type, Name)`. -/
def currentOperator (priority kind name : Term) : Act Code := do
  let p ← strip priority
  if !p.isVar then
    let value ← checked p.asInt
    if !Operators.isPriority value then throw (.domain "operator_priority" p)
  let k ← atomOrVar kind
  if !k.isVar then
    let k ← checked k.asAtom
    let _ ← checked (OperatorType.ofName k)
  let _ ← atomOrVar name
  let found := (← get).db.operators.definitions.map fun d =>
    Term.compound .plain "op" [.int d.priority, .atom d.kind.name, .atom d.name]
  enumerate found (← Database.term "op" [priority, kind, name])

end LogicMachine.Settings
