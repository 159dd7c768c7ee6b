/-
What ends a computation other than an answer.

A program error carries a term, the ball, that a program can catch. A
fatal error cannot be caught. A computation that used up the steps it was
allowed is `unfinished`; that is no answer about the program, and no
program sees it.
-/
import LogicMachine.Term.Text

namespace LogicMachine

inductive Failure where
  | thrown (ball : Term)
  | fatal (reason : String)
  | unfinished
deriving Inhabited

namespace Failure

/-- The ball `name(args...)`. Its serial number is the one that no term
of a program bears; a ball is copied before a program sees it. -/
def ball (name : String) (args : List Term) : Failure :=
  .thrown (Term.build 0 name args)

def instantiation : Failure := ball "instantiation_error" []

/-- A term is not of the expected type. -/
def type (expected : String) (culprit : Term) : Failure :=
  ball "type_error" [.atom expected, culprit]

/-- A term is of the right type but not a value that has a meaning. -/
def domain (expected : String) (culprit : Term) : Failure :=
  ball "domain_error" [.atom expected, culprit]

def existence (kind : String) (culprit : Term) : Failure :=
  ball "existence_error" [.atom kind, culprit]

def permission (action kind : String) (culprit : Term) : Failure :=
  ball "permission_error" [.atom action, .atom kind, culprit]

/-- A text is not well formed. -/
def malformed (detail : String) : Failure :=
  ball "syntax_error" [.atom detail]

def io (operation : String) (stream : Term) : Failure :=
  ball "io_error" [.atom operation, stream]

def evaluation (what : String) : Failure :=
  ball "evaluation_error" [.atom what]

def representation (what : String) : Failure :=
  ball "representation_error" [.atom what]

/-- The term of a program error. -/
def ball? : Failure → Option Term
  | .thrown ball => some ball
  | _ => none

def isFatal : Failure → Bool
  | .fatal _ => true
  | _ => false

/-- What a failure says, the ball seen through a lens. -/
def message (lens : Lens) : Failure → String
  | .thrown ball => "uncaught exception: " ++ lens.text ball
  | .fatal reason => "fatal: " ++ reason
  | .unfinished => "unfinished"

end Failure

-- ============================================================ checked readings

namespace Term

def asAtom (t : Term) : Except Failure String :=
  match t with
  | .var _ | .ref _ _ => .error .instantiation
  | .atom name => .ok name
  | other => .error (.type "atom" other)

def asInt (t : Term) : Except Failure Int64 :=
  match t with
  | .var _ | .ref _ _ => .error .instantiation
  | .number (.int i) => .ok i
  | other => .error (.type "integer" other)

def asNumber (t : Term) : Except Failure Number :=
  match t with
  | .var _ | .ref _ _ => .error .instantiation
  | .number n => .ok n
  | other => .error (.type "number" other)

/-- The name and arity that calling the term would call. -/
def asCallable (t : Term) : Except Failure (String × Nat) :=
  match t with
  | .var _ | .ref _ _ => .error .instantiation
  | .atom name => .ok (name, 0)
  | .compound _ name args | .closure _ name args _ => .ok (name, args.length)
  | other => .error (.type "callable" other)

end Term

end LogicMachine
