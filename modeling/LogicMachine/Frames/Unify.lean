/-
Unification, one equation at a time.

An equation asks two terms, each read in a frame of its own, to be equal.
`Equation.decide` looks at the top of both sides and says what that takes:
nothing, the impossible, a binding, the value of a thunk, or a list of
equations between the arguments. Solving a list of equations from the
left is then a plain loop, which the machine runs, since only the machine
can force thunks.

Of two variables the younger one is bound to the older, so no binding
outlives the cell that it leads to.
-/
import LogicMachine.Frames
import LogicMachine.Text.Escape

namespace LogicMachine

/-- Two terms that are to be equal, each with the frame it is read in. -/
structure Equation where
  left : Term
  leftIn : Option FrameId
  right : Term
  rightIn : Option FrameId
deriving Inhabited

/-- What it takes to solve an equation. -/
inductive Verdict where
  | solved
  | clash
  | bind (cell : Cell) (name : String) (value : Term)
  | split (equations : List Equation)
  /-- The left side is a thunk; the right side stands for itself. -/
  | forceLeft (thunk : Nat) (right : Term)
  /-- The right side is a thunk; the left side stands for itself. -/
  | forceRight (left : Term) (thunk : Nat)
deriving Inhabited

/-- The parts of a compound and the frame its arguments are read in. -/
def Term.compound? : Term → Option (String × List Term × Option FrameId)
  | .compound _ name args => some (name, args, none)
  | .closure _ name args frame => some (name, args, some frame)
  | _ => none

namespace Frames

/-- What a side of an equation stands for: bindings are followed, the
tentative ones too, and the outcome is paired with the frame. -/
def side (fs : Frames) (t : Term) (frame : Option FrameId) : Term :=
  fs.bindIn (fs.tentative t frame) frame

/-- Whether the cell `a` is older than `b`. -/
def isOlder (fs : Frames) (a b : Cell) : Bool :=
  let x := fs.ordinal a.frame
  let y := fs.ordinal b.frame
  if x != y then x < y else a.slot < b.slot

end Frames

namespace Equation

/-- The equations between the arguments of two compounds. -/
def between (xs : List Term) (fx : Option FrameId) (ys : List Term) (fy : Option FrameId) :
    List Equation :=
  List.zipWith (fun x y => ⟨x, fx, y, fy⟩) xs ys

/-- What it takes to make two sides equal that stand for themselves. -/
def decideSides (fs : Frames) (x y : Term) : Verdict :=
  if x.identical y then .solved
  else
    match x, y with
    | .ref a m, .ref b n => if fs.isOlder a b then .bind b n x else .bind a m y
    | .ref a m, _ => .bind a m y
    | _, .ref b n => .bind b n x
    | .thunk t, _ => .forceLeft t y
    | _, .thunk t => .forceRight x t
    | _, _ =>
      match x.compound?, y.compound? with
      | some (f, xs, fx), some (g, ys, fy) =>
        if xs.length == ys.length && f == g then .split (between xs fx ys fy) else .clash
      | _, _ => .clash

/-- What it takes to solve an equation. The wildcard equals anything. -/
def decide (fs : Frames) (e : Equation) : Verdict :=
  if e.left.isWildcard || e.right.isWildcard then .solved
  else decideSides fs (fs.side e.left e.leftIn) (fs.side e.right e.rightIn)

end Equation

namespace Frames

/-- Takes tentative bindings back. -/
def rollback (fs : Frames) (cells : List Cell) : Frames :=
  cells.foldl (fun fs cell => fs.modifySlot cell fun s => { s with scratch := none }) fs

/-- Makes tentative bindings permanent. -/
def commit (fs : Frames) (cells : List Cell) : Frames :=
  cells.foldl (fun fs cell => fs.modifySlot cell fun s => ⟨s.scratch, none⟩) fs

/-- What is said when a binding names a slot that does not exist. -/
def lostCell (cell : Cell) (name : String) : Failure :=
  .fatal ("binding a variable of a discarded frame: VarRef \x7b var: Var \x7b id: "
    ++ toString cell.slot ++ ", name: " ++ Text.Escape.quote name ++ " \x7d, frame: FrameId("
    ++ toString cell.frame ++ ") \x7d")

end Frames

end LogicMachine
