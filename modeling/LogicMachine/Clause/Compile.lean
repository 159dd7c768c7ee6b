/-
Compiling bodies to code, and terms to clauses.

Conjunctions chain their continuations, disjunctions become choices, and
an if-then(-else) is a choice with a scope of its own, to which a cut
after the condition commits. A cut inside a condition is local to the
condition: it has a second scope, of a choice around the condition that
is there only if the condition has a cut. The tables of the predicates
that are called are made as their goals are compiled, last goal first,
and stay if a later part does not compile.
-/
import LogicMachine.Clause.Body
import LogicMachine.Clause.Index

namespace LogicMachine

/-- Compiling, with the number of scopes given out so far. -/
abbrev Compile := StateT Nat Store

namespace Body

/-- A new scope. -/
def newScope : Compile Nat :=
  modifyGet fun scopes => (scopes, scopes + 1)

/-- Calls the predicate `name/arity` of a goal. -/
def compileGoal (name : String) (args : List Term) (next : Code) : Compile Code := do
  let predicate : Predicate := ⟨name, args.length⟩
  let index ← Database.tableFor predicate
  return .call (.table index predicate) args next

/-- The choice of an if-then(-else): its condition, which a cut commits to
the consequent, and the alternative if there is one. -/
def chooseCode (scope inner : Nat) (hasCut : Bool) (condition : Code)
    (alternative : Option Code) : Code :=
  let condition := if hasCut then .choice (some inner) [condition] else condition
  .choice (some scope) (condition :: alternative.toList)

/-- The branches of a body: those of a disjunction, in order, or the body
itself. `condition` is the scope that a cut is local to. -/
def branches (condition : Option Nat) : Body → Code → Compile (List Code)
  | .succeed, next => return [next]
  | .cut, next => return [.cut condition next]
  | .later t, next => return [← compileGoal "call" [t] next]
  | .goal name args, next => return [← compileGoal name args next]
  | .uncallable t, _ => throw (.type "callable" t)
  | .both first rest, next => do
    let rest := Code.join (← branches condition rest next)
    return [Code.join (← branches condition first rest)]
  | .either left right, next => do
    let left := Code.join (← branches condition left next)
    return left :: (← branches condition right next)
  | .ifThen test consequent, next => do
    let scope ← newScope
    let commit := Code.cut (some scope) (Code.join (← branches condition consequent next))
    let inner ← newScope
    let code := Code.join (← branches (some inner) test commit)
    return [chooseCode scope inner test.hasCut code none]
  | .ifThenElse test consequent alternative, next => do
    let scope ← newScope
    let commit := Code.cut (some scope) (Code.join (← branches condition consequent next))
    let inner ← newScope
    let code := Code.join (← branches (some inner) test commit)
    let alternative := Code.join (← branches condition alternative next)
    return [chooseCode scope inner test.hasCut code (some alternative)]

/-- The code of a body, followed by `next`. -/
def compile (body : Body) (next : Code) : Store Code := do
  let (codes, _) ← (branches none body next).run 0
  return Code.join codes

end Body

namespace Clause

/-- Compiles the body of a clause whose variables have slots. -/
def assemble (head : Option Term) (body : Term) (names : List String) : Store Clause := do
  let predicate ← match head with
    | some head =>
      match Predicate.ofTerm head with
      | .ok p => pure (some p)
      | .error e => throw e
    | none => pure none
  let code ← (Body.ofTerm none body).compile .succeed
  let head := head.getD goalHead
  return ⟨← Database.freshClause, predicate, head, body, head.args, code, names⟩

/-- Compiles a clause of a program: `Head :- Body`, or a fact. `:- Body`
and `?- Body` have no head. -/
def compile (t : Term) : Store Clause := do
  let (t, names) ← Database.indexTerm t
  match t.split ":-" with
  | some (head, body) => assemble (some head) body names
  | none =>
    if t.hasFunctor ":-" 1 || t.hasFunctor "?-" 1 then
      assemble none ((t.arg? 0).getD (.atom "true")) names
    else assemble (some t) (.atom "true") names

/-- Compiles a goal. The variables of a template already have the slots
of the frame that it will run in. -/
def ofGoal (goal : Term) (template : Bool) : Store Clause := do
  if template then assemble none goal []
  else
    let (goal, names) ← Database.indexTerm goal
    assemble none goal names

end Clause

namespace Database

/-- Compiles a term as a clause and adds it to its predicate. -/
def addClause (t : Term) (position : Position) : Store Clause := do
  let clause ← Clause.compile t
  match clause.predicate with
  | none => throw (.type "callable" t)
  | some p =>
    insert p (.clause clause) position
    return clause

/-- The code of a goal, from the cache when possible. A goal that mentions
frames by reference, outside a template, is compiled each time. -/
def compileGoal (goal : Term) (template : Bool) : Store Clause := do
  if template || goal.isPlain then
    match cached? goal (← get).cache with
    | some (clause, cache) =>
      modify fun db => { db with cache := cache }
      return clause
    | none =>
      let clause ← Clause.ofGoal goal template
      modify fun db => { db with cache := cacheWith db.capacity goal clause db.cache }
      return clause
  else Clause.ofGoal goal template

end Database

end LogicMachine
