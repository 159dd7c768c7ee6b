/-
The state of a running query and the operations on it.

A machine is a query together with the database that it shares with
others. An `Act` is a step of work on a machine: it may fail, and what it
changed before it failed stays changed. Loops whose length no measure of
the terms bounds (unification and comparison of terms that may contain
themselves, forcing thunks whose value is a thunk) are allowed a number
of steps each, and are `unfinished` when these are used up; how many, and
how a thunk is forced, is told by the `Env`.
-/
import LogicMachine.Clause.Compile
import LogicMachine.Frames.Copy
import LogicMachine.Frames.Unify

namespace LogicMachine

-- ============================================================ the state

/-- A running query. The root frame, which holds the query variables, is
frame 0. -/
structure Query where
  entry : Clause
  frames : Frames
  choices : ChoiceStack := {}
  /-- The cells bound tentatively, the last one first. -/
  pending : List Cell := []
  callee : FrameId := 0
  next : Code
  ancestry : Nat := 1
  done : Bool := false
  /-- What each `findall/3` of this query has collected, the last item
  first. -/
  collectors : Array (List Term) := #[]
deriving Inhabited

structure Machine where
  db : Database
  query : Query
deriving Inhabited

/-- What an `Act` may rely on: the steps that each of its loops may take,
and how to force a thunk. -/
structure Env where
  steps : Nat
  force : Nat → EStateM Failure Machine Term

abbrev Act := ReaderT Env (EStateM Failure Machine)

/-- One answer: the query variables by name, each with its value unless
it is unbound. -/
structure Solution where
  values : List (String × Option Term)
deriving Inhabited

namespace Solution

/-- The value of a query variable. -/
def value? (s : Solution) (name : String) : Option Term :=
  (s.values.lookup name).bind id

/-- The bindings of a solution as text. Variables whose names start with
an underscore are not shown. -/
def text (lens : Lens) (s : Solution) : String :=
  let shown := s.values.filterMap fun (name, value) =>
    match value with
    | some t => if name.startsWith "_" then none else some (name ++ " = " ++ lens.text t)
    | none => none
  if shown.isEmpty then "true" else ", ".intercalate shown

end Solution

namespace Query

def root : FrameId := 0

/-- Prepares a clause for execution. Its variables are the query
variables. -/
def start (entry : Clause) : Query :=
  let (frames, _) := Frames.push {} 1 none .succeed (some (.clause entry)) entry.locals none
  { entry := entry, frames := frames, next := entry.code }

/-- A query without any frame, in which detached terms are read. -/
def blank : Query := { entry := default, frames := {}, next := .fail, done := true }

/-- Whether a further answer may be found. -/
def canBacktrack (q : Query) : Bool := !q.done && q.choices.canBacktrack

/-- The length of the current chain of frames. -/
def depth (q : Query) : Nat := q.frames.depth q.callee

end Query

-- ============================================================ acts

namespace Act

/-- Does work on the database. -/
@[inline] def store (work : Store α) : Act α := fun _ m =>
  let ⟨db, query⟩ := m
  match work db with
  | .ok a db => .ok a ⟨db, query⟩
  | .error e db => .error e ⟨db, query⟩

instance : MonadLiftT Store Act := ⟨store⟩

/-- Does work and answers how it ended. -/
@[inline] def attempt (work : Act α) : Act (Except Failure α) := fun env m =>
  match work env m with
  | .ok a m => .ok (.ok a) m
  | .error e m => .ok (.error e) m

@[inline] def checked : Except Failure α → Act α
  | .ok a => pure a
  | .error e => throw e

@[inline] def modifyQuery (change : Query → Query) : Act Unit :=
  modify fun m => { m with query := change m.query }

@[inline] def frames : Act Frames := return (← get).query.frames

/-- The steps that a loop may take. -/
@[inline] def steps : Act Nat := return (← read).steps

/-- The frame that is running. -/
@[inline] def callee : Act FrameId := return (← get).query.callee

/-- The view of terms through the frames of the query. -/
def lens : Act Lens := do
  let m ← get
  return m.query.frames.lens m.db.forced

-- ============================================================ reading terms

def resolve (t : Term) : Act Term := return (← frames).resolve t

/-- Forces thunks, one inside the other, until a term appears. -/
def stripWithin : (steps : Nat) → Term → Act Term
  | 0, _ => throw .unfinished
  | steps + 1, t =>
    match t with
    | .thunk id => do
      let value ← (← read).force id
      stripWithin steps (← resolve value)
    | t => return t

/-- What a term stands for, with thunks forced. -/
def strip (t : Term) : Act Term := do
  stripWithin (← steps) (← resolve t)

/-- Goes along a list whose first cell is `rest`, with the items met so
far, the last one first. -/
def listItemsWithin (list : Term) : (steps : Nat) → Term → List Term → Act (List Term)
  | 0, _, _ => throw .unfinished
  | steps + 1, rest, items =>
    match rest with
    | .atom name => if name = "[]" then return items.reverse else throw (.type "list" list)
    | .var _ | .ref _ _ => throw .instantiation
    | rest =>
      match rest.split Term.dot with
      | some (head, tail) => do
        listItemsWithin list steps (← strip tail) (head :: items)
      | none => throw (.type "list" list)

/-- The items of a proper list, as they stand. -/
def listItems (list : Term) : Act (List Term) := do
  listItemsWithin list (← steps) (← strip list) []

-- ============================================================ the standard order

/-- The place of the kinds of terms in the standard order; compounds come
last, by arity. -/
def kindRank : Term → Nat
  | .var _ | .ref _ _ => 0
  | .number _ => 1
  | .atom _ => 2
  | .host _ => 3
  | .thunk _ => 4
  | .compound _ _ args | .closure _ _ args _ => 5 + args.length

/-- The place of variables: the older frame first, then the slot. -/
def variableRank (fs : Frames) : Term → Nat × Nat
  | .ref cell _ => (fs.ordinal cell.frame, cell.slot)
  | .var v => (0, v.number)
  | _ => (0, 0)

/-- The order of two terms by their tops, and the arguments that decide if
the tops are equal. -/
def compareTops (fs : Frames) (x y : Term) : Ordering × List (Term × Term) :=
  match compare (kindRank x) (kindRank y) with
  | .eq =>
    match x, y with
    | .number a, .number b => (a.order b, [])
    | .atom a, .atom b => (compare a b, [])
    | .host a, .host b => (compare a b, [])
    | x, y =>
      if x.isVar then
        let a := variableRank fs x
        let b := variableRank fs y
        ((compare a.1 b.1).then (compare a.2 b.2), [])
      else
        match x.functor?, y.functor? with
        | some (f, _), some (g, _) => (compare f g, x.args.zip y.args)
        | _, _ => (.eq, [])
  | o => (o, [])

/-- Compares pairs of terms until one pair decides. -/
def compareWithin : (steps : Nat) → List (Term × Term) → Act Ordering
  | 0, _ => throw .unfinished
  | _ + 1, [] => return .eq
  | steps + 1, (a, b) :: rest => do
    let x ← strip a
    let y ← strip b
    match compareTops (← frames) x y with
    | (.eq, arguments) => compareWithin steps (arguments ++ rest)
    | (o, _) => return o

/-- The standard order of two terms: variables, numbers, atoms, host
values, then compounds by arity, name and arguments. -/
def compareTerms (a b : Term) : Act Ordering := do
  compareWithin (← steps) [(a, b)]

-- ============================================================ unification

/-- Binds a cell tentatively. -/
def bindTentatively (cell : Cell) (name : String) (value : Term) : Act Unit := do
  if ((← frames).slot? cell).isNone then
    throw (Frames.lostCell cell name)
  modifyQuery fun q =>
    { q with
      frames := q.frames.modifySlot cell fun s => { s with scratch := some value }
      pending := cell :: q.pending }

/-- Solves equations from the left, and tells whether they have a
solution. The bindings made stay tentative. -/
def solveWithin : (steps : Nat) → List Equation → Act Bool
  | 0, _ => throw .unfinished
  | _ + 1, [] => return true
  | steps + 1, e :: rest => do
    match e.decide (← frames) with
    | .solved => solveWithin steps rest
    | .clash => return false
    | .bind cell name value =>
      bindTentatively cell name value
      solveWithin steps rest
    | .split equations => solveWithin steps (equations ++ rest)
    | .forceLeft thunk right =>
      let left ← (← read).force thunk
      solveWithin steps (⟨left, none, right, none⟩ :: rest)
    | .forceRight left thunk =>
      let right ← (← read).force thunk
      solveWithin steps (⟨left, none, right, none⟩ :: rest)

/-- Takes all tentative bindings back. -/
def rollback : Act Unit :=
  modifyQuery fun q => { q with frames := q.frames.rollback q.pending, pending := [] }

/-- Makes all tentative bindings permanent and trails them. -/
def commit : Act Unit :=
  modifyQuery fun q =>
    let frames := q.frames.commit q.pending
    { q with
      choices := q.choices.recordAll frames q.pending
      frames := frames
      pending := [] }

/-- Solves equations tentatively; nothing stays bound unless they have a
solution. -/
def solve (equations : List Equation) : Act Bool := do
  match ← attempt (solveWithin (← steps) equations) with
  | .ok true => return true
  | .ok false =>
    rollback
    return false
  | .error e =>
    rollback
    throw e

/-- Unifies two terms that need no frame. -/
def unify (x y : Term) : Act Bool := do
  if ← solve [⟨x, none, y, none⟩] then
    commit
    return true
  else return false

/-- Whether two terms unify. Nothing stays bound. -/
def unifiable (x y : Term) : Act Bool := do
  let ok ← solve [⟨x, none, y, none⟩]
  rollback
  return ok

/-- Unifies two lists of arguments, each read in a frame, as a whole. -/
def unifyArgs (xs : List Term) (fx : FrameId) (ys : List Term) (fy : FrameId) : Act Bool := do
  if xs.length != ys.length then return false
  if ← solve (Equation.between xs (some fx) ys (some fy)) then
    commit
    return true
  else return false

-- ============================================================ making terms

/-- Makes a list. -/
def list (items : List Term) : Act Term := Database.listOf items .nil

/-- Unbound variables in new slots of the running frame. -/
def freshVars (count : Nat) : Act (List Term) :=
  modifyGet fun m =>
    let q := m.query
    let owner := q.frames.owner q.callee
    let (frames, first) := q.frames.expand owner count
    ((List.range count).map fun i =>
        .ref ⟨owner, first + i⟩ ("_G" ++ toString (first + i)),
      { m with query := { q with frames := frames } })

/-- A copy of a term with fresh variables of the running frame. -/
def rebind (t : Term) : Act Term :=
  modifyGet fun m =>
    let ⟨db, q⟩ := m
    let (copy, serial, frames) := q.frames.rebind t q.callee db.nextTerm
    (copy, ⟨{ db with nextTerm := serial }, { q with frames := frames }⟩)

/-- Copies of terms that depend on no frame and share their fresh
variables. -/
def detachAll (ts : List Term) : Act (List Term) :=
  modifyGet fun m =>
    let ⟨db, q⟩ := m
    let (copies, c) := q.frames.copyAll ts { next := 0, serial := db.nextTerm }
    (copies, ⟨{ db with nextTerm := c.serial }, q⟩)

/-- A copy of a term that depends on no frame. -/
def detach (t : Term) : Act Term :=
  modifyGet fun m =>
    let ⟨db, q⟩ := m
    let (copy, c) := q.frames.copy t { next := 0, serial := db.nextTerm }
    (copy, ⟨{ db with nextTerm := c.serial }, q⟩)

-- ============================================================ choice points

/-- Pushes a choice point whose alternatives resume in the running frame,
and tells its number. -/
def pushChoice (alternatives : Alternatives) : Act Nat :=
  modifyGet fun m =>
    let q := m.query
    let choices := q.choices.push q.callee q.ancestry q.frames.size none alternatives
    (choices.serial, { m with query := { q with choices := choices } })

/-- Leaves a choice point over the items, or none if there are none, and
fails into it. -/
def enumerate (items : List Term) (target : Term) : Act Code := do
  if !items.isEmpty then
    let _ ← pushChoice (.candidates items target)
  return .fail

/-- Undoes and removes choice points down to the one named, and tells
whether it was there. -/
def unwindTo (id : Nat) : Act Bool :=
  modifyGet fun m =>
    let q := m.query
    match q.choices.unwindTo q.frames id with
    | some (choices, frames) => (true, { m with query := { q with choices, frames } })
    | none => (false, m)

end Act

end LogicMachine
