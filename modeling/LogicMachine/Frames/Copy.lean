/-
Copies of terms, free of the frames they were read in.

A copy replaces every unbound variable by a template variable, the same
one at every occurrence, numbered in the order of the first. A compound
that was copied before, in the same frame, is not copied again, and a
compound that is met while it is still being copied is shown as
`Term.cycle`; so copying ends on terms that contain themselves too.
-/
import LogicMachine.Frames
import Std.Data.HashMap

namespace LogicMachine

/-- What a copier may come back to: a cell, a variable of a template by
slot or by name, or a compound in a frame. -/
inductive CopyKey where
  | cell (cell : Cell)
  | slot (index : Nat)
  | named (name : String)
  | compound (serial : Nat) (name : String) (args : List Term) (frame : Option FrameId)
deriving DecidableEq, Inhabited

/-- A serial number tells compounds apart that are not alike. -/
instance : Hashable CopyKey where
  hash
    | .cell c => mixHash 1 (hash c)
    | .slot i => mixHash 2 (hash i)
    | .named n => mixHash 3 (hash n)
    | .compound serial _ _ frame => mixHash 4 (mixHash (hash serial) (hash frame))

/-- The state of a copier: the number of the next fresh variable, the
serial number of the next compound, and the copies made so far. -/
structure Copier where
  next : Nat
  serial : Nat
  seen : Std.HashMap CopyKey Term := ∅

namespace Copier

/-- The copy of a variable: the one made before, or a fresh variable. -/
def freshFor (key : CopyKey) (c : Copier) : Term × Copier :=
  match c.seen[key]? with
  | some copy => (copy, c)
  | none =>
    let copy := Term.var (.slot c.next ("_G" ++ toString c.next))
    (copy, { c with next := c.next + 1, seen := c.seen.insert key copy })

/-- The copy of a compound: the one made before, or one whose arguments
are copied now, the compound counting as cyclic meanwhile. -/
def compound (key : CopyKey) (name : String) (args : Copier → List Term × Copier) (c : Copier) :
    Term × Copier :=
  match c.seen[key]? with
  | some copy => (copy, c)
  | none =>
    let (copies, c) := args { c with seen := c.seen.insert key Term.cycle }
    let copy := Term.build c.serial name copies
    (copy, { c with serial := c.serial + 1, seen := c.seen.insert key copy })

end Copier

namespace Frames

/-- The copy of what a variable resolved to: of the variable if it is
unbound, else of its value, with which `hop` goes on. -/
def copyResolved (hop : Term → Copier → Term × Copier) (t : Term) (c : Copier) : Term × Copier :=
  match t with
  | .ref cell _ => c.freshFor (.cell cell)
  | value => hop value c

mutual

/-- The copy of a term read in a frame. -/
def copyIn (fs : Frames) (hop : Term → Copier → Term × Copier) (frame : Option FrameId) :
    Term → Copier → Term × Copier
  | .ref cell name, c => copyResolved hop (fs.resolve (.ref cell name)) c
  | .var v, c =>
    match frame, v with
    | _, .wildcard => (.var .wildcard, c)
    | some f, v => copyResolved hop (fs.resolve ((Term.var v).bindTo f)) c
    | none, .slot i _ => c.freshFor (.slot i)
    | none, .named n => c.freshFor (.named n)
  | .closure serial name args home, c =>
    c.compound (.compound serial name args (some home)) name (fs.copyAllIn hop (some home) args)
  | .compound (.template serial) name args, c =>
    c.compound (.compound serial name args frame) name (fs.copyAllIn hop frame args)
  | t, c => (t, c)

def copyAllIn (fs : Frames) (hop : Term → Copier → Term × Copier) (frame : Option FrameId) :
    List Term → Copier → List Term × Copier
  | [], c => ([], c)
  | t :: ts, c =>
    let (copy, c) := fs.copyIn hop frame t c
    let (copies, c) := fs.copyAllIn hop frame ts c
    (copy :: copies, c)

end

/-- The copy of a term through at most so many cells on any one way
down. -/
def copyWithin (fs : Frames) : (cells : Nat) → Term → Copier → Term × Copier
  | 0, t, c => (t, c)
  | cells + 1, t, c => fs.copyIn (fs.copyWithin cells) none t c

/-- The copy of a term. When the copier comes to a cell for the second
time on its way down, it meets a compound that it is still copying; so no
way down leads through more cells than there are, and one more. -/
def copy (fs : Frames) (t : Term) (c : Copier) : Term × Copier :=
  fs.copyWithin (fs.made + 2) t c

/-- Copies of several terms that share their fresh variables. -/
def copyAll (fs : Frames) : List Term → Copier → List Term × Copier
  | [], c => ([], c)
  | t :: ts, c =>
    let (copy, c) := fs.copy t c
    let (copies, c) := fs.copyAll ts c
    (copy :: copies, c)

/-- Copies a term into fresh slots of the frame `id`, with compounds
numbered from `serial`. Answers the copy and the next serial number. -/
def rebind (fs : Frames) (t : Term) (id : FrameId) (serial : Nat) : Term × Nat × Frames :=
  let owner := fs.owner id
  let base := fs.locals owner
  let (copy, c) := fs.copy t { next := base, serial := serial }
  let (fs, _) := fs.expand owner (c.next - base)
  (copy.bindTo owner, c.serial, fs)

end Frames

end LogicMachine
