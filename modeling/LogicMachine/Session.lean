/-
Working with a database from outside: loading programs, opening queries
and asking them for answers.

The number of steps that a loop may take is given with each request. With
enough of them the number does not show in an answer; with too few the
request is unfinished.
-/
import LogicMachine.Engine

namespace LogicMachine

/-- More steps than any run can use. -/
def generousFuel : Nat := 1000000000000000000

/-- Runs work on the machine of a query that is not being answered, and
gives back the query and the database it leaves. -/
def Act.runOn (fuel : Nat) (work : Act α) (q : Query) (db : Database) :
    Except Failure α × Query × Database :=
  match work (Env.ofFuel fuel) ⟨db, q⟩ with
  | .ok a m => (.ok a, m.query, m.db)
  | .error e m => (.error e, m.query, m.db)

/-- Runs work on detached terms, which needs no query. -/
def Act.runApart (fuel : Nat) (work : Act α) : Store α := fun db =>
  match work (Env.ofFuel fuel) ⟨db, .blank⟩ with
  | .ok a m => .ok a m.db
  | .error e m => .error e m.db

namespace Query

/-- Prepares a goal for execution. -/
def ofGoal (goal : Term) : Store Query := do
  return .start (← Clause.ofGoal goal false)

/-- The next solution of a query. -/
def ask (fuel : Nat) (q : Query) (db : Database) :
    Except Failure (Option Solution) × Query × Database :=
  Act.runOn fuel answer q db

/-- Collects solutions until there are no more, the last one first. -/
def collectWithin (fuel : Nat) : (steps : Nat) → Query → Database → List Solution →
    Except Failure (List Solution) × Query × Database
  | 0, q, db, _ => (.error .unfinished, q, db)
  | steps + 1, q, db, found =>
    match q.ask fuel db with
    | (.ok (some s), q, db) => collectWithin fuel steps q db (s :: found)
    | (.ok none, q, db) => (.ok found.reverse, q, db)
    | (.error e, q, db) => (.error e, q, db)

/-- Every solution of a query, in order. -/
def solutions (fuel : Nat) (q : Query) (db : Database) :
    Except Failure (List Solution) × Query × Database :=
  collectWithin fuel fuel q db []

end Query

namespace Database

/-- Runs a directive: its goal is asked for one solution, and it does not
matter whether there is one. -/
def direct (fuel : Nat) (goal : Term) : Store Unit := do
  let q ← Query.ofGoal goal
  fun db =>
    match q.ask fuel db with
    | (.ok _, _, db) => .ok () db
    | (.error e, _, db) => .error e db

/-- Loads a program: its clauses are added in order, and a directive
`:- Goal` is run when it is reached. -/
def consult (fuel : Nat) : List Term → Store Unit
  | [] => return ()
  | t :: ts => do
    if t.hasFunctor ":-" 1 then direct fuel ((t.arg? 0).getD (.atom "true"))
    else
      let _ ← addClause t .back
    consult fuel ts

end Database

-- ============================================================ probes

namespace Probes

/-- The first row of `call/1`, whatever that is. -/
def firstCall : Store Procedure := do
  match ((← get).table? ⟨"call", 1⟩).bind (·.rows[0]?) with
  | some row => return row.procedure
  | none => throw (.fatal "no call/1")

/-- Registers one of the procedures that show the machine at work. -/
def register (kind : String) : Store Unit := do
  match kind with
  | "gauge" => Database.insert ⟨"gauge", 0⟩ (.direct .gauge) .back
  | "probe" => Database.insert ⟨"probe", 1⟩ (.direct .probe) .back
  | "raw" => Database.insert ⟨"raw", 1⟩ (.framed (.uninvokable "raw/1")) .back
  | "nameless" => Database.register none (.framed (.uninvokable "procedure"))
  | "shield" => Database.insert ⟨"shield", 1⟩ (.shield (← firstCall)) .back
  | "fatal" => Database.insert ⟨"fatal", 1⟩ (.direct .fatal) .back
  | "each" => Database.insert ⟨"each", 2⟩ (.framed .each) .back
  | "later" => Database.insert ⟨"later", 2⟩ (.framed .later) .back
  | "fresh" => Database.insert ⟨"fresh", 2⟩ (.direct .freshVariables) .back
  | "code" => Database.insert ⟨"code", 1⟩ (.framed .sampleCode) .back
  | _ => throw (.fatal "bad host procedure")

end Probes

end LogicMachine
