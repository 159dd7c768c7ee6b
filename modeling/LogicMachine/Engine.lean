/-
The engine: running code.

A query walks code with a current continuation and a current frame.
Success returns to the caller, failure resumes the most recent choice
point, and program errors are offered to the procedures on the chain of
frames before they leave the query. A call whose continuation is plain
success runs on behalf of the caller of the current frame, so that chains
of last calls do not grow the chain of frames.
-/
import LogicMachine.Library

namespace LogicMachine

open Act

-- ============================================================ calls

/-- A call about to be made: the procedure, its arguments and the frame
they are read in, the ancestry of the new activation, and where to go on.
-/
structure CallSite where
  procedure : Procedure
  args : List Term
  ancestry : Nat
  caller : FrameId
  next : Code

namespace CallSite

/-- The arguments, paired with the frame of the caller. -/
def boundArgs (site : CallSite) : Act (List Term) := do
  let owner := (← frames).owner site.caller
  return site.args.map (Term.bindTo owner)

end CallSite

/-- Enters a frame for a call and makes it the running one. With a base,
the frame reads its variables in the slots of the base. -/
def enter (site : CallSite) (locals : Nat) (base : Option FrameId) : Act Unit :=
  modifyQuery fun q =>
    let callee := q.callee
    let (frames, id) :=
      q.frames.push site.ancestry (some callee) site.next (some site.procedure) locals base
    { q with frames := frames, callee := id }

/-- Compiles a goal and runs it in a new frame, which makes it opaque to
cut. A closure is compiled as a template and runs on the slots of its own
frame. -/
def runGoal (site : CallSite) (goal : Term) : Act Code := do
  match ← strip goal with
  | .var _ | .ref _ _ => throw .instantiation
  | .closure serial name args frame => do
    let clause ← Database.compileGoal (.compound (.template serial) name args) true
    enter site 0 (some frame)
    return clause.code
  | .atom name => do
    let clause ← Database.compileGoal (.atom name) false
    enter site clause.locals none
    return clause.code
  | .compound form name args => do
    let clause ← Database.compileGoal (.compound form name args) false
    enter site clause.locals none
    return clause.code
  | other => throw (.type "callable" other)

/-- A goal with further arguments. -/
def extendGoal (goal : Term) (extra : List Term) : Act Term := do
  match ← strip goal with
  | .var _ | .ref _ _ => throw .instantiation
  | .atom name => Database.term name extra
  | t@(.compound _ name _) | t@(.closure _ name _ _) => Database.term name (t.args ++ extra)
  | other => throw (.type "callable" other)

/-- Calls the first argument with the others appended to it. -/
def callGoal (site : CallSite) : Act Code := do
  match ← site.boundArgs with
  | [] => throw wrongArguments
  | [goal] => runGoal site goal
  | goal :: extra => do
    let goal ← extendGoal goal extra
    runGoal site goal

/-- Makes a call: the code to go on with in the frame that is then
running. -/
def CallSite.invoke (site : CallSite) : Act Code := do
  match site.procedure with
  | .clause c => do
    enter site c.locals none
    let callee ← callee
    if ← unifyArgs site.args site.caller c.args callee then return c.code else return .fail
  | .direct builtin => do
    let args ← site.boundArgs
    if ← builtin.run args then return site.next else return .fail
  | .framed builtin => do
    if !builtin.admits site.args.length then throw wrongArguments
    enter site builtin.locals none
    let args ← site.boundArgs
    builtin.run args
  | .call => callGoal site
  | .collect template collector => do
    Control.collect template collector
    return .fail
  | .shield target => do
    enter site 0 none
    let args ← site.boundArgs
    return .run target args (.noop .succeed)

/-- Offers a ball to a procedure whose frame is running. -/
def Procedure.catchBall (procedure : Procedure) (ball : Term) : Act (Option Code) :=
  match procedure with
  | .framed .guarded => Control.catchBall ball
  | .shield _ => Probes.shieldBall ball
  | _ => return none

/-- Calls a procedure with arguments read in `caller`. A last call runs on
behalf of the caller of the current frame. -/
def callProcedure (procedure : Procedure) (args : List Term) (caller : FrameId) (next : Code)
    (revision : Nat) : Act Code := do
  let next ← modifyGet fun m =>
    let q := { m.query with ancestry := revision + 1 }
    if next.isSucceed then
      match q.frames.get? q.callee with
      | some frame =>
        match frame.caller with
        | some parent => (frame.next, { m with query := { q with callee := parent } })
        | none => (next, { m with query := q })
      | none => (next, { m with query := q })
    else (next, { m with query := q })
  CallSite.invoke ⟨procedure, args, revision + 1, caller, next⟩

/-- What becomes of calling a predicate without rows, as the flag
`unknown` says. -/
def undefinedPredicate (p : Predicate) : Act Code := do
  match (← get).db.flag? "unknown" with
  | some (.atom "fail") | some (.atom "warning") => return .fail
  | _ => throw (.existence "procedure" p.toTerm)

/-- Calls the first row of a table, leaving a choice point over the rest
if there is more than one. -/
def selectRow (table : Nat) (predicate : Predicate) (args : List Term) (next : Code) :
    Act Code := do
  let m ← get
  let rows := m.db.rowsAt table
  let caller := m.query.callee
  let revision := m.query.ancestry
  match rows[0]? with
  | none => undefinedPredicate predicate
  | some first => do
    if rows.size > 1 then
      modifyQuery fun q =>
        { q with
          choices := q.choices.push caller (revision + 1) q.frames.size none
            (.rows rows 1 args next caller revision) }
    callProcedure first.procedure args caller next revision

-- ============================================================ alternatives

/-- One thing to try at a choice point. -/
inductive Trial where
  | code (code : Code)
  | row (procedure : Procedure) (args : List Term) (caller : FrameId) (next : Code)
      (revision : Nat)
  | deliver (collector : Nat) (target : Term)
  | unify (left right : Term)
  /-- One of many: if it does not unify, the next one is tried at once. -/
  | candidate (left right : Term)
  | clause (predicate : Predicate) (row : Row) (pattern : Term) (remove : Bool)
deriving Inhabited

namespace Alternatives

/-- A part of a text and where it lies, as a term. -/
def part (text : Array Char) (start stop : Nat) : Term :=
  .compound .plain "sub" [.ofNat start, .ofNat (stop - start), .ofNat (text.size - stop),
    .atom (String.ofList (text.extract start stop).toList)]

/-- The start and the end of the part of a text to try next. -/
def advance (size start stop : Nat) (length : Option Nat) : Nat × Nat :=
  match length with
  | some length => (start + 1, start + 1 + length)
  | none => if stop < size then (start, stop + 1) else (start + 1, start + 1)

/-- What to try next, and what is left then. -/
def next? : Alternatives → Option (Trial × Alternatives)
  | .branches [] => none
  | .branches (code :: rest) => some (.code code, .branches rest)
  | .rows snapshot index args next caller revision =>
    match snapshot[index]? with
    | some row =>
      some (.row row.procedure args caller next revision,
        .rows snapshot (index + 1) args next caller revision)
    | none => none
  | .collected collector target => some (.deliver collector target, .barrier)
  | .once left right => some (.unify left right, .barrier)
  | .barrier => none
  | .candidates [] _ => none
  | .candidates (item :: items) target => some (.candidate target item, .candidates items target)
  | .range none _ _ => none
  | .range (some n) high target =>
    if n ≤ high then
      let after := if n = Database.maxInteger then none else some (n + 1)
      some (.unify target (.int n), .range after high target)
    else none
  | .substrings text start stop length target =>
    if stop ≤ text.size then
      let (start', stop') := advance text.size start stop length
      some (.candidate target (part text start stop), .substrings text start' stop' length target)
    else none
  | .matching predicate snapshot index pattern remove =>
    match snapshot[index]? with
    | some row =>
      some (.clause predicate row pattern remove,
        .matching predicate snapshot (index + 1) pattern remove)
    | none => none

end Alternatives

namespace Trial

/-- Tries a clause of a snapshot: its renamed head and body must unify
with the pattern and, if it is to be removed, it must still be there. -/
def runClause (predicate : Predicate) (candidate : Row) (pattern : Term) (remove : Bool) :
    Act (Option Code) := do
  match candidate.procedure.clause? with
  | none => return none
  | some c => do
    let stored ← rebind (← Database.term ":-" [c.head, c.body])
    if !(← unifiable pattern stored) then return none
    if remove then
      if !(← (Database.remove predicate candidate.id : Store Bool)) then return none
    if ← Act.unify pattern stored then return some .succeed else return none

/-- Tries; `none` means to go on with the next trial at once. -/
def run : Trial → Act (Option Code)
  | .code c => return some c
  | .row procedure args caller next revision => do
    return some (← callProcedure procedure args caller next revision)
  | .deliver collector target => do
    return some (.ofBool (← Control.deliver collector target))
  | .unify left right => do
    return some (.ofBool (← Act.unify left right))
  | .candidate left right => do
    if ← Act.unify left right then return some .succeed else return none
  | .clause predicate stored pattern remove => runClause predicate stored pattern remove

end Trial

namespace Alternatives

/-- Tries one alternative after the other until one gives code; when none
is left, that is failure. Answers how it ended and what is left. -/
def start : (steps : Nat) → Alternatives → Act (Except Failure Code × Alternatives)
  | 0, alternatives => return (.error .unfinished, alternatives)
  | steps + 1, alternatives =>
    match alternatives.next? with
    | none => return (.ok .fail, alternatives)
    | some (trial, rest) => do
      match ← attempt trial.run with
      | .ok (some code) => return (.ok code, rest)
      | .ok none => start steps rest
      | .error e => return (.error e, rest)

end Alternatives

-- ============================================================ backtracking

/-- The most recent choice point that has something left to try. -/
structure Resumption where
  id : Nat
  alternatives : Alternatives
deriving Inhabited

namespace Query

/-- Undoes and drops choice points down to the most recent one that has
something left to try, and goes back to the state it was made in. Its
alternatives are taken out of it. -/
def retreat (q : Query) : Option Resumption × Query :=
  go q.choices.points q.frames
where
  go : List ChoicePoint → Frames → Option Resumption × Query
    | [], frames => (none, { q with choices := { q.choices with points := [] }, frames := frames })
    | p :: rest, frames =>
      let frames := frames.undo p.trail
      match p.alternatives with
      | some alternatives =>
        if alternatives.hasNext then
          (some ⟨p.id, alternatives⟩,
            { q with
              choices :=
                { q.choices with points := { p with alternatives := none, trail := [] } :: rest }
              frames := frames.truncate p.mark
              callee := p.frame
              ancestry := p.ancestry })
        else go rest frames
      | none => go rest frames

/-- Puts back what is left of the alternatives of a choice point, and
drops the point if that is nothing and it is the topmost one. -/
def settle (q : Query) (id : Nat) (rest : Alternatives) : Query :=
  let choices := q.choices.restore id rest
  let choices := if rest.hasNext then choices else choices.dropTop q.frames id
  { q with choices := choices }

end Query

/-- Resumes the most recent choice point with something left to try, and
tells whether there was one. -/
def backtrack : Act Bool := do
  match ← modifyGet fun m => let (r, q) := m.query.retreat; (r, { m with query := q }) with
  | none => return false
  | some ⟨id, alternatives⟩ => do
    let (ended, rest) ← alternatives.start (← steps)
    modifyQuery fun q => q.settle id rest
    match ended with
    | .ok code =>
      modifyQuery fun q => { q with next := code }
      return true
    | .error e => throw e

-- ============================================================ running

/-- Runs one piece of code: the code to go on with. -/
def execute (code : Code) : Act Code :=
  match code with
  | .succeed => return .succeed
  | .fail => return .fail
  | .noop next => return next
  | .choice scope branches =>
    match branches with
    | [] => return .fail
    | first :: rest => do
      if !rest.isEmpty || scope.isSome then
        modifyQuery fun q =>
          { q with
            choices := q.choices.push q.callee q.ancestry q.frames.size scope (.branches rest) }
      return first
  | .cut scope next => do
    modifyQuery fun q =>
      let ancestry := q.frames.ancestry q.callee
      { q with choices := q.choices.cut q.frames ancestry (scope.map (·, q.callee)) }
    return next
  | .call (.procedure procedure) args next => do
    let q := (← get).query
    let caller := q.callee
    let revision := q.ancestry
    callProcedure procedure args caller next revision
  | .call (.table index predicate) args next => selectRow index predicate args next

/-- The query variables with their names, as references to the root
frame. -/
def Query.answerVars (q : Query) : List (String × Term) :=
  q.entry.names.zipIdx.map fun (name, i) => (name, .ref ⟨Query.root, i⟩ name)

/-- Reads off a solution: the values of the query variables, free of
frames. Thunks at the top are forced. -/
def solution : Act Solution := do
  let vars := (← get).query.answerVars
  let values ← vars.mapM fun (_, v) => strip v
  let copies ← detachAll values
  return ⟨List.zipWith (fun (name, value) copy =>
    (name, if Term.isVar value then none else some copy))
    (List.zipWith (fun (name, _) value => (name, value)) vars values) copies⟩

/-- How one step of a query ended. -/
inductive Progress where
  | running
  | found (solution : Solution)
  | exhausted

/-- Takes the code to run next; should running it fail, the query goes on
by failing. -/
def takeNext : Act Code :=
  modifyGet fun m => (m.query.next, { m with query := { m.query with next := .fail } })

/-- One step: fail, return to the caller, or run a piece of code. -/
def step : Act Progress := do
  match ← takeNext with
  | .fail => return if ← backtrack then .running else .exhausted
  | .succeed => do
    let q := (← get).query
    match q.frames.get? q.callee with
    | some frame =>
      match frame.caller with
      | some caller =>
        modifyQuery fun q => { q with next := frame.next, callee := caller }
        return .running
      | none => return .found (← solution)
    | none => return .found (← solution)
  | code => do
    let next ← execute code
    modifyQuery fun q => { q with next := next }
    return .running

/-- Offers a ball to each frame of the chain, the innermost first, through
at most so many frames. -/
def offer (ball : Term) : (frames : Nat) → FrameId → Act (Option Code)
  | 0, _ => return none
  | left + 1, id => do
    match (← frames).get? id with
    | none => return none
    | some frame =>
      modifyQuery fun q => { q with callee := id }
      let caught ← match frame.procedure with
        | some procedure => procedure.catchBall ball
        | none => pure none
      match caught, frame.caller with
      | some code, _ => return some code
      | none, some caller => offer ball left caller
      | none, none => return none

/-- Gives the query up: no alternative is left. -/
def abandon : Act Unit :=
  modifyQuery fun q =>
    { q with choices := { q.choices with points := [] }, next := .fail, done := true }

/-- Deals with a failure: goes on in the frame that catches it, or gives
the query up and fails. -/
def recover : Failure → Act Unit
  | .thrown raw => do
    let ball ← detach raw
    let q := (← get).query
    let chain := q.frames.size
    let callee := q.callee
    match ← attempt (offer ball chain callee) with
    | .ok (some code) => modifyQuery fun q => { q with next := code }
    | .ok none =>
      abandon
      throw (.thrown ball)
    | .error e =>
      abandon
      throw e
  | e => do
    abandon
    throw e

/-- Runs until a solution is found or the search is exhausted. -/
def search : (steps : Nat) → Act (Option Solution)
  | 0 => do
    abandon
    throw .unfinished
  | steps + 1 => do
    match ← attempt step with
    | .ok .running => search steps
    | .ok (.found s) => return some s
    | .ok .exhausted =>
      modifyQuery fun q => { q with done := true }
      return none
    | .error e =>
      recover e
      search steps

/-- The next solution. After an error or the last solution there are no
more. -/
def answer : Act (Option Solution) := do
  if (← get).query.done then return none
  search (← steps)

-- ============================================================ forcing thunks

/-- Runs a goal in a query of its own, in the environment given. -/
def solveApart (env : Env) (goal : Term) : EStateM Failure Machine (Option Solution) := fun m =>
  let ⟨db, outer⟩ := m
  match Clause.ofGoal goal false db with
  | .error e db => .error e ⟨db, outer⟩
  | .ok entry db =>
    match answer env ⟨db, Query.start entry⟩ with
    | .ok s m => .ok s ⟨m.db, outer⟩
    | .error e m => .error e ⟨m.db, outer⟩

/-- The value that a producer gives. -/
def produce (env : Env) : Producer → EStateM Failure Machine Term
  | .given value => (do Database.note (.text "force"); return value : Act Term) env
  | .failing failure => throw failure
  | .solving goal => do return Control.resultOf (← solveApart env goal)

/-- The value of a thunk. It is produced once and kept, unless producing
it fails. -/
def forceThunk (env : Env) (id : Nat) : EStateM Failure Machine Term := do
  match (← get).db.thunks[id]? with
  | none => throw (.fatal "no such thunk")
  | some thunk =>
    match thunk.value with
    | some value => return value
    | none => do
      let value ← produce env thunk.producer
      (Act.store (Database.settleThunk id value)) env

/-- The environment in which loops take so many steps and forcing a thunk
may lead to so many further thunks, one inside the other. -/
def Env.nested (steps : Nat) : (thunks : Nat) → Env
  | 0 => ⟨steps, fun _ => throw .unfinished⟩
  | thunks + 1 => ⟨steps, fun id => forceThunk (Env.nested steps thunks) id⟩

/-- The environment with one number for everything it allows. -/
def Env.ofFuel (fuel : Nat) : Env := Env.nested fuel fuel

end LogicMachine
