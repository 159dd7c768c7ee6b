/-
The library: what each built-in does, and under which predicate it is
registered.
-/
import LogicMachine.Library.Arithmetic
import LogicMachine.Library.Atoms
import LogicMachine.Library.Clauses
import LogicMachine.Library.Control
import LogicMachine.Library.Output
import LogicMachine.Library.Probes
import LogicMachine.Library.Settings
import LogicMachine.Library.Terms

namespace LogicMachine

/-- What is said when a built-in has not as many arguments as it needs. -/
def wrongArguments : Failure := .fatal "wrong number of arguments"

/-- Runs a built-in on behalf of its caller and tells whether it
succeeded. -/
def Direct.run : Direct → List Term → Act Bool
  | .succeed, _ => return true
  | .fail, _ => return false
  | .raise, [ball] => Control.raise ball
  | .defer, [t, template, goal] => Control.defer t template goal
  | .unify, [x, y] => Act.unify x y
  | .notUnifiable, [x, y] => return !(← Act.unifiable x y)
  | .termOrder relation, [x, y] => return relation.holds (← Act.compareTerms x y)
  | .compare, [order, x, y] => Terms.compare order x y
  | .belongs kind, [t] => return Terms.isOf kind (← Act.strip t)
  | .isList, [t] => Terms.isList t
  | .functor, [t, name, arity] => Terms.functor t name arity
  | .argument, [n, t, a] => Terms.argument n t a
  | .univ, [t, list] => Terms.univ t list
  | .copyTerm, [t, copy] => Terms.copyTerm t copy
  | .termVariables, [t, vars] => Terms.termVariables t vars
  | .evaluate, [result, expression] => Arithmetic.evaluate result expression
  | .valueOrder relation, [x, y] => return relation.holds (← Arithmetic.compareValues x y)
  | .random, [result] => Arithmetic.random result
  | .assert position, [c] => Clauses.assert position c
  | .abolish, [indicator] => Clauses.abolish indicator
  | .atomLength, [atom, length] => Atoms.atomLength atom length
  | .atomChars, [atom, chars] => Atoms.atomChars atom chars
  | .atomCodes, [atom, codes] => Atoms.atomCodes atom codes
  | .charCode, [char, code] => Atoms.charCode char code
  | .setFlag, [name, value] => Settings.setFlag name value
  | .defineOperator, [priority, kind, names] => Settings.defineOperator priority kind names
  | .write quoted, [t] => Output.write quoted t
  | .newline, _ => Output.newline
  | .gauge, _ => Probes.gauge
  | .probe, [label] => Probes.probe label
  | .fatal, [reason] => Probes.fatal reason
  | .freshVariables, [n, vars] => Probes.freshVariables n vars
  | _, _ => throw wrongArguments

/-- Runs a built-in in its frame and answers the code to go on with. -/
def Framed.run : Framed → List Term → Act Code
  | .guarded, [goal, catcher, handler] => Control.guarded goal catcher handler
  | .findall, [template, goal, target] => Control.findall template goal target
  | .between, [low, high, x] => Control.between low high x
  | .retract, [c] => Clauses.retract c
  | .clause, [head, body] => Clauses.clause head body
  | .currentPredicate, [indicator] => Clauses.currentPredicate indicator
  | .atomConcat, [x, y, whole] => Atoms.atomConcat x y whole
  | .subAtom, [atom, before, length, after, sub] => Atoms.subAtom atom before length after sub
  | .currentFlag, [name, value] => Settings.currentFlag name value
  | .currentOperator, [priority, kind, name] => Settings.currentOperator priority kind name
  | .uninvokable name, _ => throw (.fatal (name ++ " cannot be invoked directly"))
  | .each, [x, items] => Probes.each x items
  | .later, [x, y] => Probes.later x y
  | .sampleCode, [name] => Probes.sampleCode name
  | _, _ => throw wrongArguments

namespace Library

-- ============================================================ registration

def direct (name : String) (arity : Nat) (builtin : Direct) : Predicate × Procedure :=
  (⟨name, arity⟩, .direct builtin)

def framed (name : String) (arity : Nat) (builtin : Framed) : Predicate × Procedure :=
  (⟨name, arity⟩, .framed builtin)

/-- The built-ins in the order of their registration. -/
def builtins : List (Predicate × Procedure) := [
  direct "true" 0 .succeed,
  direct "fail" 0 .fail,
  direct "false" 0 .fail,
  direct "throw" 1 .raise,
  (⟨"call", 1⟩, .call), (⟨"call", 2⟩, .call), (⟨"call", 3⟩, .call), (⟨"call", 4⟩, .call),
  (⟨"call", 5⟩, .call), (⟨"call", 6⟩, .call), (⟨"call", 7⟩, .call), (⟨"call", 8⟩, .call),
  framed "catch" 3 .guarded,
  framed "findall" 3 .findall,
  framed "between" 3 .between,
  direct "thunk" 3 .defer,
  direct "=" 2 .unify,
  direct "\\=" 2 .notUnifiable,
  direct "==" 2 (.termOrder .eq),
  direct "\\==" 2 (.termOrder .ne),
  direct "@<" 2 (.termOrder .lt),
  direct "@>" 2 (.termOrder .gt),
  direct "@=<" 2 (.termOrder .le),
  direct "@>=" 2 (.termOrder .ge),
  direct "compare" 3 .compare,
  direct "var" 1 (.belongs .var),
  direct "nonvar" 1 (.belongs .nonvar),
  direct "atom" 1 (.belongs .atom),
  direct "number" 1 (.belongs .number),
  direct "integer" 1 (.belongs .integer),
  direct "float" 1 (.belongs .float),
  direct "atomic" 1 (.belongs .atomic),
  direct "compound" 1 (.belongs .compound),
  direct "callable" 1 (.belongs .callable),
  direct "is_list" 1 .isList,
  direct "functor" 3 .functor,
  direct "arg" 3 .argument,
  direct "=.." 2 .univ,
  direct "copy_term" 2 .copyTerm,
  direct "term_variables" 2 .termVariables,
  direct "is" 2 .evaluate,
  direct "=:=" 2 (.valueOrder .eq),
  direct "=\\=" 2 (.valueOrder .ne),
  direct "<" 2 (.valueOrder .lt),
  direct ">" 2 (.valueOrder .gt),
  direct "=<" 2 (.valueOrder .le),
  direct ">=" 2 (.valueOrder .ge),
  direct "random" 1 .random,
  direct "assert" 1 (.assert .back),
  direct "assertz" 1 (.assert .back),
  direct "asserta" 1 (.assert .front),
  framed "retract" 1 .retract,
  framed "clause" 2 .clause,
  direct "abolish" 1 .abolish,
  framed "current_predicate" 1 .currentPredicate,
  direct "atom_length" 2 .atomLength,
  framed "atom_concat" 3 .atomConcat,
  framed "sub_atom" 5 .subAtom,
  direct "atom_chars" 2 .atomChars,
  direct "atom_codes" 2 .atomCodes,
  direct "char_code" 2 .charCode,
  direct "set_prolog_flag" 2 .setFlag,
  framed "current_prolog_flag" 2 .currentFlag,
  direct "op" 3 .defineOperator,
  framed "current_op" 3 .currentOperator,
  direct "write" 1 (.write false),
  direct "print" 1 (.write true),
  direct "writeq" 1 (.write true),
  direct "nl" 0 .newline]

-- ============================================================ library clauses

/-- A clause `Head :- Body` of the library, before its variables have
slots. -/
def rule (head body : Term) : Term := .compound (.template 0) ":-" [head, body]

/-- `name(args...)` with variables in it. -/
def pattern (name : String) (args : List Term) : Term := .compound (.template 0) name args

def named (name : String) : Term := .var (.named name)

/-- The predicates that are defined by clauses. -/
def clauses : List Term :=
  let g := named "G"
  [rule (pattern "\\+" [g]) (pattern ";" [pattern "->" [g, .atom "fail"], .atom "true"]),
   rule (pattern "not" [g]) (pattern "\\+" [g]),
   rule (pattern "once" [g]) (pattern "->" [g, .atom "true"]),
   rule (pattern "ignore" [g]) (pattern ";" [pattern "->" [g, .atom "true"], .atom "true"]),
   rule (pattern "forall" [named "C", named "A"])
     (pattern "\\+" [pattern "," [named "C", pattern "\\+" [named "A"]]])]

/-- Registers the whole library. -/
def install : Store Unit := do
  for (predicate, procedure) in builtins do
    Database.insert predicate procedure .back
  for clause in clauses do
    let _ ← Database.addClause clause .back

end Library

/-- A database, with the library if `builtins` says so. -/
def Database.make (builtins : Bool) (capacity : Nat) : Database :=
  let db := Database.empty capacity
  if builtins then
    match Library.install db with
    | .ok _ db => db
    | .error _ db => db
  else db

end LogicMachine
