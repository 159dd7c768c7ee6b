/-
Raising and catching errors, collecting solutions, counting, and deferred
terms.

A guarded goal (`catch/3`) runs in a frame that keeps the catcher, the
handler and the number of a barrier on the choice stack. Catching unwinds
to the barrier, which undoes all that the goal did.
-/
import LogicMachine.Machine

namespace LogicMachine.Control

open Act

/-- `throw(Ball)`. -/
def raise (t : Term) : Act Bool := do
  let ball ← strip t
  if ball.isVar then throw .instantiation
  throw (.thrown (← detach ball))

-- ============================================================ catch/3

/-- The slots of the frame of a guarded goal. -/
def catcherSlot : Nat := 0

def handlerSlot : Nat := 1

def barrierSlot : Nat := 2

/-- Keeps a value in a slot of the running frame. -/
def keep (slot : Nat) (value : Term) : Act Unit :=
  modifyQuery fun q => { q with frames := q.frames.setValue q.callee slot value }

/-- `catch(Goal, Catcher, Handler)`. The call of the goal is no last call,
so the frame stays while the goal runs. -/
def guarded (goal catcher handler : Term) : Act Code := do
  keep catcherSlot catcher
  keep handlerSlot handler
  let barrier ← pushChoice .barrier
  keep barrierSlot (.ofNat barrier)
  return .run .call [goal] (.noop .succeed)

/-- Offers a ball to the guarded goal whose frame is running: the code
that calls the handler if the catcher takes the ball. What the goal did
is undone either way. -/
def catchBall (ball : Term) : Act (Option Code) := do
  let fs ← frames
  let id ← callee
  match fs.value? id barrierSlot with
  | some (.number (.int barrier)) =>
    if !(← unwindTo barrier.toUInt64.toNat) then return none
    let fs ← frames
    match fs.value? id catcherSlot, fs.value? id handlerSlot with
    | some catcher, some handler =>
      let ball ← rebind ball
      if ← unify catcher ball then return some (.run .call [handler] .succeed)
      else return none
    | _, _ => return none
  | _ => return none

-- ============================================================ findall/3

/-- A collector of its own. -/
def newCollector : Act Nat :=
  modifyGet fun m =>
    (m.query.collectors.size,
      { m with query := { m.query with collectors := m.query.collectors.push [] } })

/-- Adds a copy of a template to a collector. -/
def collect (template : Term) (collector : Nat) : Act Unit := do
  let copy ← detach template
  modifyQuery fun q => { q with collectors := q.collectors.modify collector (copy :: ·) }

/-- What was collected, in order. -/
def takeCollected (collector : Nat) : Act (List Term) :=
  modifyGet fun m =>
    ((m.query.collectors.getD collector []).reverse,
      { m with query :=
        { m.query with collectors := m.query.collectors.modify collector fun _ => [] } })

/-- Unifies the target with the list of what was collected, each item with
fresh variables of its own. -/
def deliver (collector : Nat) (target : Term) : Act Bool := do
  let items ← (← takeCollected collector).mapM rebind
  unify (← list items) target

/-- `findall(Template, Goal, List)`. The goal is followed by a collector
that fails; when it is exhausted, the choice point beneath builds the
list. -/
def findall (template goal target : Term) : Act Code := do
  let collector ← newCollector
  let _ ← pushChoice (.collected collector target)
  return .run .call [goal] (.run (.collect template collector) [] .fail)

-- ============================================================ between/3

/-- The upper end of a range. -/
def upperEnd (t : Term) : Act Int64 := do
  match ← strip t with
  | .atom "inf" | .atom "infinite" => return Database.maxInteger
  | t => checked t.asInt

/-- `between(Low, High, X)`. -/
def between (low high x : Term) : Act Code := do
  let low ← checked (← strip low).asInt
  let high ← upperEnd high
  let x ← strip x
  if !x.isVar then
    let v ← checked x.asInt
    return .ofBool (low ≤ v && v ≤ high)
  else
    let _ ← pushChoice (.range (some low) high x)
    return .fail

-- ============================================================ deferred terms

/-- The variable that receives the value of a deferred term. -/
def resultName : String := "$Result"

/-- `thunk(T, Template, Goal)`: a term that, when it is needed, is the
template after the first solution of a copy of the goal. -/
def defer (t template goal : Term) : Act Bool := do
  match ← detachAll [template, goal] with
  | [template, goal] =>
    let result ← Database.term "=" [.var (.named resultName), template]
    let goal ← Database.term "," [goal, result]
    unify t (← Database.newThunk (.solving goal))
  | _ => return false

/-- The value of a deferred term, given the first solution of its goal.
Variables left in it are wildcards; without a solution it is the empty
list. -/
def resultOf : Option Solution → Term
  | none => .nil
  | some s =>
    match s.value? resultName with
    | some value => value.anonymize
    | none => .var .wildcard

end LogicMachine.Control
