/-
The database, which all queries of a session share.

It holds the tables of the predicates in the order of their making, the
cache of compiled goals, the flags, the operators, the sink for output,
and the thunks. It also hands out the serial numbers of compounds, clauses
and rows. A table, once made, stays; abolishing a predicate only empties
it, so that code compiled against the table sees the change.

Everything that reads or changes the database is a `Store` computation,
which keeps the changes made before a failure.
-/
import LogicMachine.Choice
import LogicMachine.Operators
import Std.Data.HashMap

namespace LogicMachine

-- ============================================================ what a database holds

/-- The rows of one predicate, in order. -/
structure Table where
  predicate : Predicate
  rows : Array Row := #[]
deriving Inhabited

/-- A change of the tables, as listeners are told of it. -/
inductive Change where
  | created (predicate : Predicate)
  | added (predicate : Predicate) (position : Position)
  | removed (predicate : Predicate)
  | cleared (predicate : Predicate)
deriving Inhabited

/-- How a thunk comes by its value: it is given one, it fails, or it is
the `$Result` of the first solution of a goal. -/
inductive Producer where
  | given (value : Term)
  | failing (failure : Failure)
  | solving (goal : Term)
deriving Inhabited

/-- A deferred term and, once it was forced, its value. -/
structure Thunk where
  producer : Producer
  value : Option Term := none
deriving Inhabited

/-- What a probe sees of the machine. -/
structure Sighting where
  label : String
  depth : Nat
  ancestry : Nat
  frame : FrameId
  frames : Nat
  more : Bool
deriving Inhabited

/-- An entry of the journal. -/
inductive Note where
  | text (message : String)
  | depth (depth : Nat)
  | sighting (seen : Sighting)
deriving Inhabited

/-- The state that queries share. -/
structure Database where
  /-- How many compiled goals the cache keeps. -/
  capacity : Nat := 256
  tables : Array Table := #[]
  /-- The place of the table of each predicate. -/
  index : Std.HashMap Predicate Nat := ∅
  /-- Compiled goals, the one used last first. -/
  cache : List (Term × Clause) := []
  /-- Flags in the order of their definition. -/
  flags : List (String × Term) := []
  operators : Operators := .standard
  /-- How many listeners are told of changes. -/
  listeners : Nat := 0
  /-- What the listeners were told. -/
  changes : Array Change := #[]
  /-- Whether the sink is broken. -/
  broken : Bool := false
  /-- What was written. -/
  output : String := ""
  /-- What procedures and thunks noted. -/
  journal : Array Note := #[]
  thunks : Array Thunk := #[]
  /-- The state of the random numbers. -/
  seed : UInt64 := 0x9e3779b97f4a7c15
  /-- The serial number of the next compound; 0 is kept for balls. -/
  nextTerm : Nat := 1
  nextClause : Nat := 0
  nextRow : Nat := 0
deriving Inhabited

/-- Computations on a database. -/
abbrev Store := EStateM Failure Database

namespace Database

/-- The largest integer, as a flag and as a bound. -/
def maxInteger : Int64 := 9223372036854775807

def minInteger : Int64 := -9223372036854775808

/-- The flags that every database starts with. -/
def initialFlags : List (String × Term) := [
  ("bounded", .atom "true"),
  ("max_integer", .int maxInteger),
  ("min_integer", .int minInteger),
  ("unknown", .atom "error")]

/-- A database without predicates. -/
def empty (capacity : Nat) : Database := { capacity := capacity, flags := initialFlags }

-- ============================================================ serial numbers

/-- A serial number for a compound. -/
def freshTerm : Store Nat :=
  modifyGet fun db => (db.nextTerm, { db with nextTerm := db.nextTerm + 1 })

def freshClause : Store Nat :=
  modifyGet fun db => (db.nextClause, { db with nextClause := db.nextClause + 1 })

def freshRow : Store Nat :=
  modifyGet fun db => (db.nextRow, { db with nextRow := db.nextRow + 1 })

/-- Makes `name(args...)`. -/
def term (name : String) (args : List Term) : Store Term := do
  return Term.build (← freshTerm) name args

/-- Makes the list of the items, ending in `tail`. -/
def listOf (items : List Term) (tail : Term) : Store Term :=
  modifyGet fun db =>
    let (list, serial) := items.foldr
      (fun item (tail, serial) => (Term.build serial Term.dot [item, tail], serial + 1))
      (tail, db.nextTerm)
    (list, { db with nextTerm := serial })

-- ============================================================ thunks

/-- Makes a thunk. -/
def newThunk (producer : Producer) : Store Term :=
  modifyGet fun db => (.thunk db.thunks.size, { db with thunks := db.thunks.push ⟨producer, none⟩ })

/-- The value of a thunk that was forced. -/
def forced (db : Database) (id : Nat) : Option Term :=
  match db.thunks[id]? with
  | some t => t.value
  | none => none

/-- Keeps the value of a thunk, if it has none yet, and answers the value
it has. -/
def settleThunk (id : Nat) (value : Term) : Store Term :=
  modifyGet fun db =>
    match db.forced id with
    | some kept => (kept, db)
    | none =>
      (value, { db with thunks := db.thunks.modify id fun t => { t with value := some value } })

/-- The view of a term that depends on no frame. -/
def lens (db : Database) : Lens := .detached db.forced

def note (n : Note) : Store Unit :=
  modify fun db => { db with journal := db.journal.push n }

-- ============================================================ tables

/-- Tells every listener of a change. -/
def notify (change : Change) : Store Unit :=
  modify fun db => { db with changes := db.changes ++ Array.replicate db.listeners change }

/-- The place of the table of a predicate. -/
def find? (db : Database) (p : Predicate) : Option Nat := db.index[p]?

def table? (db : Database) (p : Predicate) : Option Table :=
  (db.find? p).bind (db.tables[·]?)

/-- The rows of the table at a place. -/
def rowsAt (db : Database) (index : Nat) : Array Row :=
  match db.tables[index]? with
  | some t => t.rows
  | none => #[]

/-- The place of the table of a predicate, which is made if need be. -/
def tableFor (p : Predicate) : Store Nat := do
  match (← get).find? p with
  | some index => return index
  | none =>
    let index ← modifyGet fun db =>
      (db.tables.size,
        { db with tables := db.tables.push { predicate := p }
                  index := db.index.insert p db.tables.size })
    notify (.created p)
    return index

/-- Every predicate that has a table, in the order of their making. -/
def predicates (db : Database) : List Predicate := db.tables.toList.map (·.predicate)

/-- Adds a row to the table of a predicate. Each row gets a number of its own, by
which it is told apart and found again to be removed. A procedure that is inserted
twice thus makes two rows; that these may share one identity, so that the first of
them is removed in place of the second, is not modelled. -/
def insert (p : Predicate) (procedure : Procedure) (position : Position) : Store Unit := do
  let index ← tableFor p
  let id ← freshRow
  let row : Row := ⟨id, procedure⟩
  modify fun db =>
    { db with
      tables := db.tables.modify index fun t =>
        { t with
          rows := match position with
            | .front => #[row] ++ t.rows
            | .back => t.rows.push row } }
  notify (.added p position)

/-- Registers a procedure that may lack a predicate. -/
def register (p : Option Predicate) (procedure : Procedure) : Store Unit :=
  match p with
  | some p => insert p procedure .back
  | none => throw (.fatal "cannot insert a procedure without a predicate")

/-- Removes a row, named by its identity, and tells whether it was there. -/
def remove (p : Predicate) (row : Nat) : Store Bool := do
  let db ← get
  match db.find? p with
  | none => return false
  | some index =>
    match (db.rowsAt index).findIdx? (·.id == row) with
    | none => return false
    | some i =>
      modify fun db =>
        { db with
          tables := db.tables.modify index fun t =>
            { t with rows := t.rows.eraseIdxIfInBounds i } }
      notify (.removed p)
      return true

/-- Drops every row of a predicate and the compiled goals, and tells
whether the predicate had a table. -/
def abolish (p : Predicate) : Store Bool := do
  match (← get).find? p with
  | none => return false
  | some index =>
    modify fun db =>
      { db with
        tables := db.tables.modify index fun t => { t with rows := #[] }
        cache := [] }
    notify (.cleared p)
    return true

-- ============================================================ the cache of goals

/-- The entry of a goal, and the cache with that entry in front. -/
def cached? (goal : Term) (cache : List (Term × Clause)) :
    Option (Clause × List (Term × Clause)) :=
  match cache.find? (·.1.same goal) with
  | some entry => some (entry.2, entry :: cache.eraseP (·.1.same goal))
  | none => none

/-- The cache with a new entry in front and at most `capacity` entries. -/
def cacheWith (capacity : Nat) (goal : Term) (clause : Clause) (cache : List (Term × Clause)) :
    List (Term × Clause) :=
  ((goal, clause) :: cache).take capacity

-- ============================================================ flags and operators

/-- The flags that a program may not change. -/
def readOnly : List String := ["bounded", "max_integer", "min_integer"]

def flag? (db : Database) (name : String) : Option Term := db.flags.lookup name

/-- Sets a flag to a value that depends on no frame. -/
def setFlag (name : String) (value : Term) : Store Unit := do
  if readOnly.contains name then
    throw (.permission "modify" "flag" (.atom name))
  modify fun db =>
    { db with
      flags :=
        if db.flags.any (·.1 == name) then
          db.flags.map fun (n, v) => if n == name then (n, value) else (n, v)
        else db.flags ++ [(name, value)] }

def defineOperator (priority : Int64) (kind : OperatorType) (name : String) : Store Unit := do
  match (← get).operators.define priority kind name with
  | .ok ops => modify fun db => { db with operators := ops }
  | .error e => throw e

-- ============================================================ output

/-- Writes a text to the sink. A broken sink refuses every text but the
empty one. -/
def write (text : String) : Store Unit := do
  if (← get).broken && !text.isEmpty then
    throw (.io "write" (.atom "user_output"))
  modify fun db => { db with output := db.output ++ text }

/-- A number below one, and not below zero. -/
def random : Store Number := do
  let bits : UInt64 ← modifyGet fun db =>
    let s : UInt64 := db.seed
    let s := s ^^^ (s <<< 13)
    let s := s ^^^ (s >>> 7)
    let s := s ^^^ (s <<< 17)
    (s, { db with seed := s })
  return .ofFloat ((bits >>> 11).toFloat / 9007199254740992.0)

end Database

end LogicMachine
