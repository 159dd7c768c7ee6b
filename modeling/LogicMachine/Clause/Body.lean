/-
The body of a clause, read off a term.

A body is a tree of control constructs over goals. Reading never fails:
a part that cannot be called is kept as such, and compiling it is what
fails. A term of the form `(C -> T) ; E` is an if-then-else, any other
`;` a disjunction; the arguments of goals are paired with the frame that
the term is read in.
-/
import LogicMachine.Code

namespace LogicMachine

inductive Body where
  /-- `true`. -/
  | succeed
  /-- `!`. -/
  | cut
  /-- A variable, a reference or a thunk, to be called when it is known. -/
  | later (t : Term)
  | goal (name : String) (args : List Term)
  | uncallable (t : Term)
  /-- `First, Rest`. -/
  | both (first rest : Body)
  /-- `Left ; Right`. -/
  | either (left right : Body)
  /-- `Condition -> Consequent`. -/
  | ifThen (condition consequent : Body)
  /-- `Condition -> Consequent ; Alternative`. -/
  | ifThenElse (condition consequent alternative : Body)
deriving Inhabited

namespace Body

/-- The body of an atom. -/
def ofAtom (name : String) : Body :=
  if name = "!" then .cut
  else if name = "true" then .succeed
  else .goal name []

mutual

/-- Reads a term, in a frame if it is a template of one. -/
def ofTerm (frame : Option FrameId) : Term → Body
  | .atom name => ofAtom name
  | .compound _ name args => ofCompound frame name args
  | .closure _ name args home => ofCompound (some home) name args
  | .var v => .later ((Term.var v).bindIn frame)
  | .ref cell name => .later (.ref cell name)
  | .thunk id => .later (.thunk id)
  | .number n => .uncallable (.number n)
  | .host id => .uncallable (.host id)

/-- Reads `name(args...)`. -/
def ofCompound (frame : Option FrameId) (name : String) (args : List Term) : Body :=
  match args with
  | [left, right] =>
    if name = "," then .both (ofTerm frame left) (ofTerm frame right)
    else if name = "->" then .ifThen (ofTerm frame left) (ofTerm frame right)
    else if name = ";" then
      match ofTerm frame left with
      | .ifThen condition consequent => .ifThenElse condition consequent (ofTerm frame right)
      | left => .either left (ofTerm frame right)
    else .goal name [left.bindIn frame, right.bindIn frame]
  | args => .goal name (args.map (Term.bindIn frame))

end

/-- Whether a body has a cut anywhere. -/
def hasCut : Body → Bool
  | .cut => true
  | .both a b | .either a b | .ifThen a b => a.hasCut || b.hasCut
  | .ifThenElse a b c => a.hasCut || b.hasCut || c.hasCut
  | _ => false

end Body

end LogicMachine
