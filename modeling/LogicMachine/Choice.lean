/-
Choice points and their trails.

A choice point remembers how to resume: the frame and ancestry at its
making, the length of the arena to cut back to, and the alternatives
left. Its trail lists the cells bound since then whose frames are at least as
old as the point; younger frames go away as a whole. The stack is a list
with the topmost point first.
-/
import LogicMachine.Frames

namespace LogicMachine

-- ============================================================ alternatives

/-- What is left to try at a choice point. -/
inductive Alternatives where
  /-- The branches of a disjunction. -/
  | branches (rest : List Code)
  /-- The rows of a predicate from `index` on, called with `args` read in
  `caller`. -/
  | rows (snapshot : Array Row) (index : Nat) (args : List Term) (next : Code)
      (caller : FrameId) (revision : Nat)
  /-- The end of a `findall/3`: its list becomes the target. -/
  | collected (collector : Nat) (target : Term)
  /-- One unification. -/
  | once (left right : Term)
  /-- Nothing; the point only marks a place on the stack. -/
  | barrier
  /-- Terms to unify with the target in turn. -/
  | candidates (items : List Term) (target : Term)
  /-- Integers to unify with the target in turn. -/
  | range (next : Option Int64) (high : Int64) (target : Term)
  /-- Parts of a text, from `start` up to `stop`, by start then length;
  the length may be fixed. -/
  | substrings (text : Array Char) (start stop : Nat) (length : Option Nat) (target : Term)
  /-- The clauses among the rows of a predicate from `index` on, to unify
  with a pattern and, perhaps, to remove. -/
  | matching (predicate : Predicate) (snapshot : Array Row) (index : Nat) (pattern : Term)
      (remove : Bool)
deriving Inhabited

namespace Alternatives

/-- Whether something is left to try. -/
def hasNext : Alternatives → Bool
  | .branches rest => !rest.isEmpty
  | .rows snapshot index _ _ _ _ => index < snapshot.size
  | .collected _ _ => true
  | .once _ _ => true
  | .barrier => false
  | .candidates items _ => !items.isEmpty
  | .range next high _ => next.any (· ≤ high)
  | .substrings text _ stop _ _ => stop ≤ text.size
  | .matching _ snapshot index _ _ => index < snapshot.size

end Alternatives

-- ============================================================ choice points

/-- A saved state to resume from. A point with a scope belongs to an
if-then(-else). The alternatives are out of the point while one of them
is being started. -/
structure ChoicePoint where
  id : Nat
  frame : FrameId
  ancestry : Nat
  scope : Option Nat
  mark : Nat
  alternatives : Option Alternatives
  trail : List Cell := []
deriving Inhabited

namespace ChoicePoint

def hasNext (p : ChoicePoint) : Bool := p.alternatives.any Alternatives.hasNext

/-- Trails a cell if its frame is at least as old as the point. -/
def record (fs : Frames) (cell : Cell) (p : ChoicePoint) : ChoicePoint :=
  if fs.ordinal cell.frame ≤ p.ancestry then { p with trail := cell :: p.trail } else p

end ChoicePoint

/-- Takes away the bindings of all cells of a trail. -/
def Frames.undo (fs : Frames) (trail : List Cell) : Frames :=
  trail.foldl Frames.unbind fs

/-- The stack of choice points, topmost first, and the number of points
ever made. -/
structure ChoiceStack where
  points : List ChoicePoint := []
  serial : Nat := 0
deriving Inhabited

namespace ChoiceStack

def size (cs : ChoiceStack) : Nat := cs.points.length

/-- Whether some point has something left to try. -/
def canBacktrack (cs : ChoiceStack) : Bool := cs.points.any ChoicePoint.hasNext

/-- Pushes a point. Points are numbered from 1. -/
def push (cs : ChoiceStack) (frame : FrameId) (ancestry mark : Nat) (scope : Option Nat)
    (alternatives : Alternatives) : ChoiceStack :=
  { points := ⟨cs.serial + 1, frame, ancestry, scope, mark, some alternatives, []⟩ :: cs.points
    serial := cs.serial + 1 }

@[simp] theorem size_push (cs : ChoiceStack) (frame : FrameId) (ancestry mark : Nat)
    (scope : Option Nat) (alternatives : Alternatives) :
    (cs.push frame ancestry mark scope alternatives).size = cs.size + 1 := rfl

/-- Trails a committed binding on the topmost point. -/
def record (fs : Frames) (cell : Cell) (cs : ChoiceStack) : ChoiceStack :=
  match cs.points with
  | [] => cs
  | top :: rest => { cs with points := top.record fs cell :: rest }

/-- Trails cells, the last of the list first. -/
def recordAll (fs : Frames) (cells : List Cell) (cs : ChoiceStack) : ChoiceStack :=
  cells.foldr (record fs) cs

@[simp] theorem size_record (fs : Frames) (cell : Cell) (cs : ChoiceStack) :
    (cs.record fs cell).size = cs.size := by
  unfold record size
  split <;> simp_all

@[simp] theorem size_recordAll (fs : Frames) (cells : List Cell) (cs : ChoiceStack) :
    (cs.recordAll fs cells).size = cs.size := by
  induction cells with
  | nil => rfl
  | cons c cells ih => simpa [recordAll] using ih

/-- Puts alternatives back into the point they came from, if it is still
on the stack. -/
def restore (cs : ChoiceStack) (id : Nat) (alternatives : Alternatives) : ChoiceStack :=
  { cs with points := go cs.points }
where
  go : List ChoicePoint → List ChoicePoint
    | [] => []
    | p :: rest =>
      if p.id = id then { p with alternatives := some alternatives } :: rest else p :: go rest

/-- Removes the topmost point if it is the one named; what it trailed goes
to the next point, as far as that one needs it. -/
def dropTop (cs : ChoiceStack) (fs : Frames) (id : Nat) : ChoiceStack :=
  match cs.points with
  | top :: rest =>
    if top.id = id then recordAll fs top.trail { cs with points := rest } else cs
  | [] => cs

/-- The points left by a cut, and the cells that those removed had
trailed. A local cut stops right after the point of its scope and frame.
-/
def cutPoints (ancestry : Nat) (scope : Option (Nat × FrameId)) :
    List ChoicePoint → List Cell → List ChoicePoint × List Cell
  | [], trail => ([], trail)
  | p :: rest, trail =>
    if p.ancestry < ancestry then (p :: rest, trail)
    else
      let stops := match scope with
        | some (s, frame) => p.scope == some s && p.frame == frame
        | none => false
      if stops then (rest, p.trail ++ trail)
      else cutPoints ancestry scope rest (p.trail ++ trail)

/-- Removes every point made at or after `ancestry`, up to and including
the point of the scope if there is one. -/
def cut (cs : ChoiceStack) (fs : Frames) (ancestry : Nat) (scope : Option (Nat × FrameId)) :
    ChoiceStack :=
  let (points, trail) := cutPoints ancestry scope cs.points []
  recordAll fs trail { cs with points := points }

/-- Undoes and removes every point down to the one named, and cuts the
arena back to that one. Answers `none` if it is not on the stack. -/
def unwindTo (cs : ChoiceStack) (fs : Frames) (id : Nat) : Option (ChoiceStack × Frames) :=
  if cs.points.any (·.id == id) then some (go cs.points fs) else none
where
  go : List ChoicePoint → Frames → ChoiceStack × Frames
    | [], fs => ({ cs with points := [] }, fs)
    | p :: rest, fs =>
      let fs := fs.undo p.trail
      if p.id = id then ({ cs with points := rest }, fs.truncate p.mark) else go rest fs

end ChoiceStack

end LogicMachine
