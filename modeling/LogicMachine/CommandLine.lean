/-
The command line: demonstrations and benchmarks.

    demo                          a few example queries
    queens [-n|--n N] [-a|--all]  the queens problem, 8 by default
    nrev [-l|--length N] [-i|--iterations N]
                                  naive reversal, 30 and 100 by default
    count [-n|--n N]              a loop of last calls, 100000 by default

`--bare`, anywhere, starts without the library, and `--cache-capacity N`
sets how many compiled goals are kept.
-/
import LogicMachine.Code.Dump
import LogicMachine.Programs

namespace LogicMachine.CommandLine

-- ============================================================ invocations

inductive Command where
  | demo
  | queens (n : Int64) (all : Bool)
  | nrev (length iterations : Int64)
  | count (n : Int64)
deriving Inhabited

structure Invocation where
  bare : Bool
  capacity : Nat
  command : Command
deriving Inhabited

/-- One option as it stands on the command line, with its value if the
value is part of the same word. -/
structure Given where
  name : String
  value : Option String
deriving Inhabited

/-- The options that take a value, by command; the empty name stands for
all commands. -/
def valued : List (String × List String) := [
  ("", ["cache-capacity"]),
  ("queens", ["n"]),
  ("nrev", ["length", "iterations"]),
  ("count", ["n"])]

/-- The options without a value, by command. -/
def switches : List (String × List String) := [
  ("", ["bare"]),
  ("queens", ["all"])]

/-- The one-letter forms of options, by command. -/
def letters : List (String × List (Char × String)) := [
  ("queens", [('n', "n"), ('a', "all")]),
  ("nrev", [('l', "length"), ('i', "iterations")]),
  ("count", [('n', "n")])]

def commands : List String := ["demo", "queens", "nrev", "count"]

def known (table : List (String × List String)) (command name : String) : Bool :=
  ((table.lookup "").getD []).contains name || ((table.lookup command).getD []).contains name

/-- The options of a word that starts with a minus sign, the letters of a
cluster one by one. -/
def readWord (command : String) (word : List Char) : Option (List Given) :=
  match word with
  | '-' :: '-' :: rest =>
    let name := String.ofList (rest.takeWhile (· != '='))
    match rest.dropWhile (· != '=') with
    | [] => some [⟨name, none⟩]
    | _ :: value => some [⟨name, some (String.ofList value)⟩]
  | '-' :: c :: cluster => letterOptions (c :: cluster)
  | _ => none
where
  letterOptions : List Char → Option (List Given)
    | [] => some []
    | c :: rest => do
      let name ← ((letters.lookup command).getD []).lookup c
      if known valued command name then
        match rest with
        | [] => some [⟨name, none⟩]
        | '=' :: value => some [⟨name, some (String.ofList value)⟩]
        | value => some [⟨name, some (String.ofList value)⟩]
      else some (⟨name, none⟩ :: (← letterOptions rest))

/-- The command, the options with a value, the latest first, and the
switches. An option may be given once before the command and once after
it; `given` are the options on the side that is being read. -/
structure Reading where
  command : String := ""
  values : List (String × String) := []
  switches : List String := []
  given : List String := []
deriving Inhabited

/-- Gives an option its value. -/
def Reading.setValue (r : Reading) (name value : String) : Reading :=
  { r with values := (name, value) :: r.values, given := name :: r.given }

/-- Gives a switch. -/
def Reading.setSwitch (r : Reading) (name : String) : Reading :=
  { r with switches := name :: r.switches, given := name :: r.given }

/-- Takes in the options of one word. The option that still waits for its
value, which is the next word, is answered. -/
def Reading.take (r : Reading) : List Given → Option (Reading × Option String)
  | [] => some (r, none)
  | g :: rest =>
    if r.given.contains g.name then none
    else if known valued r.command g.name then
      match g.value with
      | some value => Reading.take (r.setValue g.name value) rest
      | none => some (r, some g.name)
    else if known CommandLine.switches r.command g.name && g.value.isNone then
      Reading.take (r.setSwitch g.name) rest
    else none

/-- Reads the words of the command line from left to right; `waiting` is
an option whose value is to come. Two minus signs end the options, and
nothing may follow them. -/
def readWords (r : Reading) (waiting : Option String) : List String → Option Reading
  | [] => if waiting.isSome then none else some r
  | word :: words =>
    match waiting with
    | some name =>
      if word.startsWith "-" && word != "-" then none
      else readWords (r.setValue name word) none words
    | none =>
      if word == "--" then (if words.isEmpty then some r else none)
      else if word.startsWith "-" then do
        let given ← readWord r.command word.toList
        let (r, waiting) ← r.take given
        readWords r waiting words
      else if r.command.isEmpty && commands.contains word then
        readWords { r with command := word, given := [] } none words
      else none

/-- Reads an integer of 64 bits: decimal digits, perhaps after a sign. -/
def integer? (text : String) : Option Int64 := do
  let value ← match text.toList with
    | '-' :: digits => (Predicate.natOfDigits? digits).map fun n => -(n : Int)
    | '+' :: digits => (Predicate.natOfDigits? digits).map Int.ofNat
    | digits => (Predicate.natOfDigits? digits).map Int.ofNat
  if Database.minInteger.toInt ≤ value ∧ value ≤ Database.maxInteger.toInt then
    some (Int64.ofInt value)
  else none

/-- The value of an option, or its default. -/
def Reading.integer (r : Reading) (name : String) (default : Int64) : Option Int64 :=
  match r.values.lookup name with
  | some text => integer? text
  | none => some default

/-- Reads a number of entries for the cache, which must be positive. -/
def capacity? (text : String) : Option Nat := do
  let n ← Predicate.arity? text.toList
  if n = 0 then none else some n

/-- The values given for an option, the latest first. -/
def Reading.valuesOf (r : Reading) (name : String) : List String :=
  (r.values.filter (·.1 == name)).map (·.2)

/-- Reads a command line. -/
def Invocation.read (words : List String) : Option Invocation := do
  let r ← readWords {} none words
  let capacities ← (r.valuesOf "cache-capacity").mapM capacity?
  let command ← match r.command with
    | "demo" => some .demo
    | "queens" => do some (.queens (← r.integer "n" 8) (r.switches.contains "all"))
    | "nrev" => do some (.nrev (← r.integer "length" 30) (← r.integer "iterations" 100))
    | "count" => do some (.count (← r.integer "n" 100000))
    | _ => none
  return ⟨r.switches.contains "bare", capacities.headD 256, command⟩

-- ============================================================ running a command

/-- What a command leaves: its exit code, what it printed, given the text
of the time it took, and what it reported as an error. -/
structure Outcome where
  code : UInt8
  stdout : (elapsed : String) → String
  stderr : String := ""

/-- Prints a text, where the output of programs goes too. -/
def print (text : String) : Store Unit :=
  modify fun db => { db with output := db.output ++ text }

def printLine (text : String) : Store Unit := print (text ++ "\n")

/-- Asks a query for every solution. -/
def solveAll (fuel : Nat) (goal : Term) : Store (List Solution) := do
  let q ← Query.ofGoal goal
  fun db =>
    match q.solutions fuel db with
    | (.ok found, _, db) => .ok found db
    | (.error e, _, db) => .error e db

/-- Whether a goal has a solution. -/
def succeeds (fuel : Nat) (goal : Term) : Store Bool := do
  let q ← Query.ofGoal goal
  fun db =>
    match q.ask fuel db with
    | (.ok found, _, db) => .ok found.isSome db
    | (.error e, _, db) => .error e db

/-- Shows a goal as a question. -/
def printGoal (goal : Term) : Store Unit := do
  let db ← get
  printLine ("?- " ++ db.lens.text goal ++ ".")

/-- Shows a goal and its solutions. -/
def printSolutions (goal : Term) (found : List Solution) : Store Unit := do
  printGoal goal
  if found.isEmpty then printLine "false."
  for s in found do
    let db ← get
    printLine (s.text db.lens)

open Programs in
/-- The goals of the demonstration. -/
def demoGoals : List Term :=
  let x := named "X"
  let numbers := list [int 1, int 2, int 3]
  [compound "=" [compound "f" [x, int 1], compound "f" [int 2, named "Y"]],
   compound "=" [compound "f" [x, int 1], compound "g" [x, int 1]],
   compound "member" [x, numbers],
   compound ";" [compound "->" [.atom "true", compound "write" [.atom "a"]],
     compound "write" [.atom "b"]],
   compound "catch" [compound "throw" [compound "foo" [int 1]], compound "foo" [x], .atom "true"],
   compound "findall" [x, compound "member" [x, numbers], named "L"],
   compound "findall" [x, compound "member" [x, .nil], named "L"]]

open Programs in
/-- The goal of the demonstration whose error nothing catches. -/
def uncaughtGoal : Term :=
  compound "catch" [compound "throw" [.atom "bar"], compound "foo" [named "X"], .atom "true"]

def demo (fuel : Nat) : Store Unit := do
  Database.consult fuel Programs.member
  for goal in demoGoals do
    printSolutions goal (← solveAll fuel goal)
  let q ← Query.ofGoal uncaughtGoal
  let found ← fun db =>
    match q.solutions fuel db with
    | (result, _, db) => .ok result db
  match found with
  | .ok found => printSolutions uncaughtGoal found
  | .error e =>
    printGoal uncaughtGoal
    let db ← get
    printLine (e.message db.lens)

/-- Prints solutions of a query until there are no more, or the first one
alone, and tells whether there was one. -/
def printAnswers (fuel : Nat) (all : Bool) : (steps : Nat) → Query → Bool → Store Bool
  | 0, _, _ => throw .unfinished
  | steps + 1, q, any => fun db =>
    match q.ask fuel db with
    | (.ok (some s), q, db) =>
      let db := { db with output := db.output ++ s.text db.lens ++ "\n" }
      if all then printAnswers fuel all steps q true db else .ok true db
    | (.ok none, _, db) => .ok any db
    | (.error e, _, db) => .error e db

open Programs in
def queens (fuel : Nat) (n : Int64) (all : Bool) : Store Unit := do
  Database.consult fuel Programs.queens
  let q ← Query.ofGoal (compound "queens" [.int n, named "Qs"])
  if !(← printAnswers fuel all fuel q false) then printLine "false."

def verdict (ok : Bool) : String := if ok then "ok" else "failed"

open Programs in
/-- The line to print, given the time. -/
def nrev (fuel : Nat) (length iterations : Int64) : Store (String → String) := do
  Database.consult fuel Programs.reversal
  let ok ← succeeds fuel (all [
    compound "range" [int 1, .int length, named "L"],
    compound "bench" [.int iterations, named "L"]])
  return fun elapsed =>
    "nrev" ++ toString length.toInt ++ " x " ++ toString iterations.toInt ++ ": " ++ verdict ok
      ++ " in " ++ elapsed ++ "\n"

/-- The deepest chain of frames that was noted. -/
def deepest (journal : Array Note) : Nat :=
  journal.foldl (fun deepest note =>
    match note with
    | .depth d => max deepest d
    | _ => deepest) 0

open Programs in
/-- The line to print, given the time. -/
def count (fuel : Nat) (n : Int64) : Store (String → String) := do
  Probes.register "gauge"
  Database.consult fuel Programs.count
  let ok ← succeeds fuel (compound "count" [int 0, .int n])
  let depth := deepest (← get).journal
  return fun elapsed =>
    "count(" ++ toString n.toInt ++ "): " ++ verdict ok ++ " in " ++ elapsed
      ++ ", max depth " ++ toString depth ++ "\n"

/-- Runs a command on a database. The function answered gives the last
line printed, which may tell the time. -/
def Command.run (fuel : Nat) : Command → Store (String → String)
  | .demo => do
    CommandLine.demo fuel
    return fun _ => ""
  | .queens n all => do
    CommandLine.queens fuel n all
    return fun _ => ""
  | .nrev length iterations => CommandLine.nrev fuel length iterations
  | .count n => CommandLine.count fuel n

/-- Runs a command line. One that cannot be read leaves with code 2, an
error of the program with code 1. -/
def run (fuel : Nat) (words : List String) : Outcome :=
  match Invocation.read words with
  | none => { code := 2, stdout := fun _ => "", stderr := "error: invalid command line\n" }
  | some i =>
    match i.command.run fuel (Database.make (!i.bare) i.capacity) with
    | .ok line db => { code := 0, stdout := fun elapsed => db.output ++ line elapsed }
    | .error e db =>
      { code := 1
        stdout := fun _ => db.output
        stderr := "Error: " ++ e.dump db.dumpThunk ++ "\n" }

end LogicMachine.CommandLine
