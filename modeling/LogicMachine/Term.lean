/-
Terms, the values that programs are made of and compute with.

A term comes in two flavours. A *plain* term means the same everywhere:
it mentions no variable of any clause. A *template* mentions variables
of a clause by slot; it only has a meaning together with the call frame
that holds the slots. Pairing a template with a frame (`Term.bindTo`)
turns a template variable into a reference to a cell and a template
compound into a closure, which carries its frame along and hands it to
each argument that is taken out of it.

Compounds that are not plain bear a serial number. It plays no part in
what a term means or in its equality; it only lets the copier recognise
that it has come back to a compound it is still copying.
-/
import LogicMachine.Number

namespace LogicMachine

-- ============================================================ variables

/-- A call frame, by its place in the arena of a query. -/
abbrev FrameId := Nat

/-- A variable cell: a slot of a frame. -/
structure Cell where
  frame : FrameId
  slot : Nat
deriving DecidableEq, Hashable, Inhabited

/-- A variable of a template: the wildcard, which unifies with anything
and is never bound, a variable that has a name but no slot yet, or a slot
of the clause together with the name it was written with. -/
inductive Var where
  | wildcard
  | named (name : String)
  | slot (index : Nat) (name : String)
deriving DecidableEq, Inhabited

namespace Var

/-- The variable written with `name`; an underscore is the wildcard. -/
def ofName (name : String) : Var :=
  if name = "_" then .wildcard else .named name

def name : Var → String
  | .wildcard => "_"
  | .named n => n
  | .slot _ n => n

/-- The number that stands for a variable in dumps and in the standard
order: its slot, and two numbers above every slot for a variable without
one and for the wildcard. -/
def number : Var → Nat
  | .wildcard => 4294967295
  | .named _ => 4294967294
  | .slot i _ => i

/-- Equality by number and name. -/
def same (a b : Var) : Bool := a.number == b.number && a.name == b.name

end Var

-- ============================================================ terms

/-- How a compound depends on frames: not at all, or as a template, which
bears the serial number of its making. -/
inductive Form where
  | plain
  | template (serial : Nat)
deriving DecidableEq, Inhabited

/-- A term. `host` is a value of the embedding program, known only by
its identity, and `thunk` a deferred term kept in the database. A
`closure` is a template compound paired with its frame. -/
inductive Term where
  | atom (name : String)
  | number (value : Number)
  | host (id : Nat)
  | thunk (id : Nat)
  | var (v : Var)
  | ref (cell : Cell) (name : String)
  | compound (form : Form) (name : String) (args : List Term)
  | closure (serial : Nat) (name : String) (args : List Term) (frame : FrameId)
deriving Inhabited

namespace Term

/-- The functor name of list cells. -/
def dot : String := "."

/-- The empty list. -/
def nil : Term := .atom "[]"

/-- What a copy shows where a compound contains itself. -/
def cycle : Term := .atom "**"

def int (i : Int64) : Term := .number (.int i)

def ofNat (n : Nat) : Term := .int (Int64.ofNat n)

/-- Whether the term means the same in every frame. -/
def isPlain : Term → Bool
  | .atom _ | .number _ | .host _ | .thunk _ | .var .wildcard => true
  | .compound .plain _ _ => true
  | _ => false

/-- `name(args...)` with the given serial number in case it is a
template; without arguments, the atom `name`. -/
def build (serial : Nat) (name : String) (args : List Term) : Term :=
  if args.isEmpty then .atom name
  else .compound (if args.all isPlain then .plain else .template serial) name args

def isWildcard : Term → Bool
  | .var .wildcard => true
  | _ => false

/-- A variable of a template or an unbound reference. The term should be
dereferenced first. -/
def isVar : Term → Bool
  | .var _ | .ref _ _ => true
  | _ => false

def isAtom : Term → Bool
  | .atom _ => true
  | _ => false

def isNumber : Term → Bool
  | .number _ => true
  | _ => false

def isCompound : Term → Bool
  | .compound _ _ _ | .closure _ _ _ _ => true
  | _ => false

def isAtomic : Term → Bool
  | .atom _ | .number _ | .host _ => true
  | _ => false

def isCallable (t : Term) : Bool := t.isAtom || t.isCompound

/-- A short name for the kind of a term. -/
def kindName : Term → String
  | .atom _ => "atom"
  | .number (.int _) => "integer"
  | .number (.float _) => "float"
  | .host _ => "opaque"
  | .compound _ _ _ | .closure _ _ _ _ => "compound"
  | .var _ | .ref _ _ => "variable"
  | .thunk _ => "thunk"

-- ============================================================ frames

/-- Pairs a term with the frame that holds its slots. Plain terms,
references and closures are unchanged. -/
def bindTo (frame : FrameId) : Term → Term
  | .var .wildcard => .var .wildcard
  | .var v => .ref ⟨frame, v.number⟩ v.name
  | .compound (.template serial) name args => .closure serial name args frame
  | t => t

/-- `bindTo` for a term that may already be free of a frame. -/
def bindIn : Option FrameId → Term → Term
  | some frame, t => t.bindTo frame
  | none, t => t

/-- A plain term is the same in every frame. -/
theorem bindTo_of_isPlain {t : Term} (frame : FrameId) (h : t.isPlain = true) :
    t.bindTo frame = t := by
  cases t with
  | var v => cases v <;> simp_all [isPlain, bindTo]
  | compound form name args => cases form <;> simp_all [isPlain, bindTo]
  | _ => rfl

/-- A term that was paired with a frame stays with it. -/
@[simp] theorem bindTo_bindTo (t : Term) (frame other : FrameId) :
    (t.bindTo frame).bindTo other = t.bindTo frame := by
  cases t with
  | var v => cases v <;> rfl
  | compound form name args => cases form <;> rfl
  | _ => rfl

-- ============================================================ compounds

/-- The name and the number of arguments of an atom or a compound. -/
def functor? : Term → Option (String × Nat)
  | .atom name => some (name, 0)
  | .compound _ name args | .closure _ name args _ => some (name, args.length)
  | _ => none

def hasFunctor (t : Term) (name : String) (arity : Nat) : Bool :=
  match t.functor? with
  | some (n, a) => a == arity && n == name
  | none => false

/-- The arguments of a compound, each paired with the compound's frame. -/
def args : Term → List Term
  | .compound _ _ as => as
  | .closure _ _ as frame => as.map (bindTo frame)
  | _ => []

def arg? (t : Term) (i : Nat) : Option Term :=
  match t with
  | .compound _ _ as => as[i]?
  | .closure _ _ as frame => as[i]?.map (bindTo frame)
  | _ => none

@[simp] theorem functor?_bindTo (t : Term) (frame : FrameId) :
    (t.bindTo frame).functor? = t.functor? := by
  cases t with
  | var v => cases v <;> rfl
  | compound form name args => cases form <;> rfl
  | _ => rfl

theorem arg?_eq_getElem? (t : Term) (i : Nat) : t.arg? i = t.args[i]? := by
  cases t <;> simp [arg?, args]

/-- The two arguments of `name(left, right)`. -/
def split (name : String) : Term → Option (Term × Term)
  | .compound _ n [l, r] => if n = name then some (l, r) else none
  | .closure _ n [l, r] frame => if n = name then some (l.bindTo frame, r.bindTo frame) else none
  | _ => none

/-- The template of a closure; any other term is its own. -/
def template : Term → Term
  | .closure serial name args _ => .compound (.template serial) name args
  | t => t

mutual

/-- Replaces every template variable by the wildcard. -/
def anonymize : Term → Term
  | .var _ => .var .wildcard
  | .compound (.template serial) name args => build serial name (anonymizeAll args)
  | t => t

def anonymizeAll : List Term → List Term
  | [] => []
  | t :: ts => anonymize t :: anonymizeAll ts

end

-- ============================================================ equality

mutual

/-- Equality of terms as written: no reference is followed. Serial
numbers and the names of references do not count. -/
def same : Term → Term → Bool
  | .atom a, .atom b => a == b
  | .number a, .number b => a == b
  | .host a, .host b => a == b
  | .thunk a, .thunk b => a == b
  | .var a, .var b => a.same b
  | .ref a _, .ref b _ => a == b
  | .compound _ f as, .compound _ g bs => f == g && sameAll as bs
  | .closure _ f as m, .closure _ g bs n => m == n && f == g && sameAll as bs
  | _, _ => false

def sameAll : List Term → List Term → Bool
  | [], [] => true
  | a :: as, b :: bs => same a b && sameAll as bs
  | _, _ => false

end

mutual

@[simp] theorem same_refl : (t : Term) → t.same t = true
  | .atom _ | .number _ | .host _ | .thunk _ | .ref _ _ => by simp [same]
  | .var v => by simp [same, Var.same]
  | .compound _ _ args => by simp [same, sameAll_refl args]
  | .closure _ _ args _ => by simp [same, sameAll_refl args]

@[simp] theorem sameAll_refl : (ts : List Term) → sameAll ts ts = true
  | [] => by simp [sameAll]
  | t :: ts => by simp [sameAll, same_refl t, sameAll_refl ts]

end

mutual

/-- Whether two terms are alike in every part, serial numbers and names
included. -/
def alike : Term → Term → Bool
  | .atom a, .atom b => a == b
  | .number a, .number b => a == b
  | .host a, .host b => a == b
  | .thunk a, .thunk b => a == b
  | .var a, .var b => a == b
  | .ref a m, .ref b n => a == b && m == n
  | .compound s f as, .compound t g bs => s == t && f == g && alikeAll as bs
  | .closure s f as m, .closure t g bs n => s == t && f == g && m == n && alikeAll as bs
  | _, _ => false

def alikeAll : List Term → List Term → Bool
  | [], [] => true
  | a :: as, b :: bs => alike a b && alikeAll as bs
  | _, _ => false

end

mutual

theorem alike_iff : (a b : Term) → (a.alike b = true ↔ a = b)
  | .compound _ _ as, b => by
    cases b <;> simp [alike, alikeAll_iff as, and_assoc]
  | .closure _ _ as _, b => by
    cases b <;> simp [alike, alikeAll_iff as, and_assoc, and_left_comm, and_comm]
  | .atom _, b | .number _, b | .host _, b | .thunk _, b | .var _, b | .ref _ _, b => by
    cases b <;> simp [alike]

theorem alikeAll_iff : (as bs : List Term) → (alikeAll as bs = true ↔ as = bs)
  | [], bs => by cases bs <;> simp [alikeAll]
  | a :: as, bs => by cases bs <;> simp [alikeAll, alike_iff a, alikeAll_iff as]

end

instance : DecidableEq Term := fun a b =>
  withPtrEqDecEq a b fun _ => decidable_of_iff _ (alike_iff a b)

/-- What a unifier may take for equal without following bindings: the same
atomic value, the same cell, and a template met again in the same frame.
It is enough that a term that contains itself is the same as itself. A
serial number stands for one template, so it goes with its parts. -/
def identical : Term → Term → Bool
  | .atom a, .atom b => a == b
  | .number a, .number b => a == b
  | .host a, .host b => a == b
  | .thunk a, .thunk b => a == b
  | .ref a _, .ref b _ => a == b
  | .closure s f as m, .closure t g bs n => m == n && s == t && f == g && sameAll as bs
  | _, _ => false

-- ============================================================ lists

/-- The cells along the right edge of a term, read in a frame: the heads
and the term after the last cell. -/
def listSpine : Option FrameId → Term → List Term × Term
  | f, .compound form name [h, t] =>
    if name = dot then
      let (heads, last) := listSpine f t
      (h.bindIn f :: heads, last)
    else ([], (Term.compound form name [h, t]).bindIn f)
  | f, .closure serial name [h, t] frame =>
    if name = dot then
      let (heads, last) := listSpine (some frame) t
      (h.bindTo frame :: heads, last)
    else ([], (Term.closure serial name [h, t] frame).bindIn f)
  | f, t => ([], t.bindIn f)

end Term

end LogicMachine
