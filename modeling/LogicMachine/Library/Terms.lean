/-
Comparing, testing, taking apart and building terms.
-/
import LogicMachine.Machine

namespace LogicMachine.Terms

open Act

/-- The atoms that name an order. -/
def orderSymbols : List String := ["<", "=", ">"]

/-- `compare(Order, X, Y)`. The order is compared first and the argument
that receives it is checked afterwards. -/
def compare (order x y : Term) : Act Bool := do
  let o ← compareTerms x y
  let expected ← strip order
  if !expected.isVar then
    let name ← checked expected.asAtom
    if !(orderSymbols.contains name) then
      throw (.domain "order" expected)
  let symbol := match o with
    | .lt => "<"
    | .eq => "="
    | .gt => ">"
  unify order (.atom symbol)

/-- Whether a term that stands for itself belongs to a class. -/
def isOf : TermClass → Term → Bool
  | .var, t => t.isVar
  | .nonvar, t => !t.isVar
  | .atom, t => t.isAtom
  | .number, t => t.isNumber
  | .integer, .number (.int _) => true
  | .float, .number (.float _) => true
  | .atomic, t => t.isAtomic
  | .compound, t => t.isCompound
  | .callable, t => t.isCallable
  | _, _ => false

/-- `is_list(T)`. Whatever goes wrong while the list is read, a thunk that
fails included, makes it no list. -/
def isList (t : Term) : Act Bool := do
  match ← attempt (listItems t) with
  | .ok _ => return true
  | .error .unfinished => throw .unfinished
  | .error _ => return false

/-- `functor(T, Name, Arity)`. -/
def functor (t name arity : Term) : Act Bool := do
  let term ← strip t
  if !term.isVar then
    let (n, a) := match term.functor? with
      | some (n, a) => (Term.atom n, a)
      | none => (term, 0)
    if ← unify name n then unify arity (.ofNat a) else return false
  else
    let n ← strip name
    let a ← strip arity
    if n.isVar || a.isVar then throw .instantiation
    let count ← checked a.asInt
    if count < 0 then throw (.domain "not_less_than_zero" a)
    if n.isCompound then throw (.type "atomic" n)
    if count = 0 then unify t n
    else
      let n ← checked n.asAtom
      let vars ← freshVars count.toInt.toNat
      unify t (← Database.term n vars)

/-- `arg(N, T, A)`, arguments numbered from one. -/
def argument (n t a : Term) : Act Bool := do
  let n ← checked (← strip n).asInt
  let term ← strip t
  if term.isVar then throw .instantiation
  if !term.isCompound then throw (.type "compound" term)
  if n < 0 then throw (.domain "not_less_than_zero" (.int n))
  match n.toInt.toNat with
  | 0 => return false
  | i + 1 =>
    match term.arg? i with
    | some value => unify a value
    | none => return false

/-- `T =.. List`. -/
def univ (t l : Term) : Act Bool := do
  let term ← strip t
  if !term.isVar then
    let items := match term.functor? with
      | some (name, _ + 1) => .atom name :: term.args
      | _ => [term]
    unify l (← list items)
  else
    match ← listItems l with
    | [] => throw (.domain "non_empty_list" .nil)
    | head :: rest =>
      let head ← strip head
      if head.isVar then throw .instantiation
      if rest.isEmpty then
        if !head.isAtomic then throw (.type "atomic" head)
        unify t head
      else
        let name ← checked head.asAtom
        unify t (← Database.term name rest)

/-- `copy_term(T, Copy)`. -/
def copyTerm (t copy : Term) : Act Bool := do
  unify copy (← rebind t)

/-- `term_variables(T, Vars)`. -/
def termVariables (t vars : Term) : Act Bool := do
  let found := (← frames).freeVars t
  unify vars (← list found)

end LogicMachine.Terms
