/-
The text of a term.

Terms are written in canonical functional notation, lists with brackets.
What a reference shows depends on the frames it is read in, and what a
thunk shows on whether it was forced, so the writer looks at a term
through a `Lens`. A lens also tells the cells along the right edge of a
list, so that a list takes one level of nesting however long it is.
Nesting deeper than a thousand levels is left out, which keeps terms that
contain themselves finite.
-/
import LogicMachine.Term
import LogicMachine.Text.Quoted

namespace LogicMachine

/-- How a writer sees references, list cells and thunks. -/
structure Lens where
  /-- What a term stands for. -/
  resolve : Term → Term
  /-- The heads of the list cells of a term and what follows the last. -/
  spine : Term → List Term × Term
  /-- The value of a thunk that was forced. -/
  forced : Nat → Option Term

namespace Lens

/-- The view of a term by itself: no reference is followed. -/
def detached (forced : Nat → Option Term) : Lens :=
  ⟨id, Term.listSpine none, forced⟩

/-- How many levels of nesting are written. -/
def levels : Nat := 1001

/-- What stands for a term nested too deep. -/
def ellipsis : String := "..."

/-- The text of a term that may be nested so many levels deep. -/
def render (lens : Lens) (quoted : Bool) : (levels : Nat) → Term → String
  | 0, _ => ellipsis
  | level + 1, t =>
    let t := lens.resolve t
    let name (n : String) := if quoted then Text.Quoted.atom n else n
    let sequence (ts : List Term) := ", ".intercalate (ts.map (lens.render quoted level))
    if t.hasFunctor Term.dot 2 then
      let (heads, last) := lens.spine t
      let rest := if last.hasFunctor "[]" 0 then "" else " | " ++ lens.render quoted level last
      "[" ++ sequence heads ++ rest ++ "]"
    else
      match t with
      | .atom n => name n
      | .number n => n.text
      | .host _ => "<opaque>"
      | .thunk id =>
        match lens.forced id with
        | some value => lens.render quoted level value
        | none => "<thunk>"
      | .var v => v.name
      | .ref cell _ => "_G" ++ toString cell.frame ++ "_" ++ toString cell.slot
      | .compound _ n _ | .closure _ n _ _ => name n ++ "(" ++ sequence t.args ++ ")"

/-- The text of a term, with atoms quoted where a reader needs it. -/
def text (lens : Lens) (t : Term) : String := lens.render true levels t

/-- The text of a term with bare atoms. -/
def bareText (lens : Lens) (t : Term) : String := lens.render false levels t

end Lens

end LogicMachine
