/-
Call frames and the arena that owns them.

A frame is one activation of a procedure: its variable slots, the frame
to return to and the code to go on with there. Frames live in an arena
and are named by their place in it; a reference to a variable names a
frame and a slot. Backtracking cuts the arena back to the length it had
at the choice point, since nothing older can name a younger frame.

A slot has a committed value and, while a unification is under way, a
tentative one. Reading comes in two kinds: `resolve` sees committed
values alone, `tentative` both.
-/
import LogicMachine.Code

namespace LogicMachine

-- ============================================================ slots and frames

/-- A variable cell of a frame. -/
structure Slot where
  value : Option Term := none
  scratch : Option Term := none
deriving Inhabited

/-- One activation. `ancestry` ranks activations by age and decides what
a cut removes; `ordinal` is the age of the slots the frame uses, which
are those of `owner`; `depth` is the length of the chain of callers. -/
structure Frame where
  ancestry : Nat
  ordinal : Nat
  caller : Option FrameId
  next : Code
  procedure : Option Procedure
  depth : Nat
  owner : FrameId
  slots : Array Slot
deriving Inhabited

/-- The frames of a query. `made` counts the slots ever made, so it is
no smaller than the number of slots there are and bounds how often a
chain of bindings can lead from slot to slot. -/
structure Frames where
  frames : Array Frame := #[]
  made : Nat := 0
deriving Inhabited

namespace Frames

def size (fs : Frames) : Nat := fs.frames.size

def get? (fs : Frames) (id : FrameId) : Option Frame := fs.frames[id]?

/-- The frame whose slots a frame uses. -/
def owner (fs : Frames) (id : FrameId) : FrameId :=
  match fs.frames[id]? with
  | some f => f.owner
  | none => id

/-- The age of the slots of a frame; 0 for a frame that is gone. -/
def ordinal (fs : Frames) (id : FrameId) : Nat :=
  match fs.frames[id]? with
  | some f => f.ordinal
  | none => 0

def ancestry (fs : Frames) (id : FrameId) : Nat :=
  match fs.frames[id]? with
  | some f => f.ancestry
  | none => 0

/-- The length of the chain of callers below a frame. -/
def depth (fs : Frames) (id : FrameId) : Nat :=
  match fs.frames[id]? with
  | some f => f.depth
  | none => 0

/-- The number of slots that a frame can use. -/
def locals (fs : Frames) (id : FrameId) : Nat :=
  match fs.frames[fs.owner id]? with
  | some f => f.slots.size
  | none => 0

/-- Enters a frame and tells its place. With a base, the frame uses the
slots of the base; without one it has `locals` unbound slots. -/
def push (fs : Frames) (ancestry : Nat) (caller : Option FrameId) (next : Code)
    (procedure : Option Procedure) (locals : Nat) (base : Option FrameId) : Frames × FrameId :=
  let id := fs.size
  let depth := match caller with
    | some c => fs.depth c + 1
    | none => 0
  match base with
  | some base =>
    let owner := fs.owner base
    let frame : Frame :=
      ⟨ancestry, fs.ordinal owner, caller, next, procedure, depth, owner, #[]⟩
    (⟨fs.frames.push frame, fs.made⟩, id)
  | none =>
    let frame : Frame :=
      ⟨ancestry, ancestry, caller, next, procedure, depth, id, Array.replicate locals {}⟩
    (⟨fs.frames.push frame, fs.made + locals⟩, id)

/-- Drops every frame from the mark on; the root frame always stays. -/
def truncate (fs : Frames) (mark : Nat) : Frames :=
  { fs with frames := fs.frames.shrink (max mark 1) }

@[simp] theorem size_push (fs : Frames) (ancestry : Nat) (caller : Option FrameId) (next : Code)
    (procedure : Option Procedure) (locals : Nat) (base : Option FrameId) :
    (fs.push ancestry caller next procedure locals base).1.size = fs.size + 1 := by
  cases base <;> simp [push, size]

/-- Entering a frame leaves the older ones as they are. -/
theorem get?_push_of_lt {fs : Frames} {id : FrameId} (ancestry : Nat) (caller : Option FrameId)
    (next : Code) (procedure : Option Procedure) (locals : Nat) (base : Option FrameId)
    (h : id < fs.size) :
    (fs.push ancestry caller next procedure locals base).1.get? id = fs.get? id := by
  have hne : id ≠ fs.frames.size := Nat.ne_of_lt h
  cases base <;> simp [push, get?, Array.getElem?_push, hne]

@[simp] theorem size_truncate (fs : Frames) (mark : Nat) :
    (fs.truncate mark).size = min (max mark 1) fs.size := by
  simp [truncate, size]

/-- Cutting the arena back leaves the frames below the mark as they are. -/
theorem get?_truncate_of_lt {mark : Nat} {id : FrameId} (fs : Frames) (h : id < mark) :
    (fs.truncate mark).get? id = fs.get? id := by
  have hm := Nat.lt_of_lt_of_le h (Nat.le_max_left mark 1)
  simp only [truncate, get?, Array.shrink_eq_take, Array.take_eq_extract, Array.getElem?_extract,
    Nat.zero_add, Nat.sub_zero]
  split
  · rfl
  · next hs =>
    have hid : ¬ id < fs.frames.size := fun hi => hs (Nat.lt_min.2 ⟨hm, hi⟩)
    exact (Array.getElem?_eq_none (Nat.le_of_not_lt hid)).symm

-- ============================================================ access to slots

def slot? (fs : Frames) (cell : Cell) : Option Slot :=
  match fs.frames[cell.frame]? with
  | some f => f.slots[cell.slot]?
  | none => none

/-- Changes one slot; nothing happens if it does not exist. -/
def modifySlot (fs : Frames) (cell : Cell) (change : Slot → Slot) : Frames :=
  { fs with
    frames := fs.frames.modify cell.frame fun f =>
      { f with slots := f.slots.modify cell.slot change } }

@[simp] theorem size_modifySlot (fs : Frames) (cell : Cell) (change : Slot → Slot) :
    (fs.modifySlot cell change).size = fs.size := by
  simp [modifySlot, size]

@[simp] theorem slot?_modifySlot (fs : Frames) (cell : Cell) (change : Slot → Slot) :
    (fs.modifySlot cell change).slot? cell = (fs.slot? cell).map change := by
  simp only [slot?, modifySlot, Array.getElem?_modify]
  cases fs.frames[cell.frame]? <;> simp [Array.getElem?_modify]

theorem slot?_modifySlot_of_ne {cell other : Cell} (fs : Frames) (change : Slot → Slot)
    (h : other ≠ cell) : (fs.modifySlot cell change).slot? other = fs.slot? other := by
  simp only [slot?, modifySlot, Array.getElem?_modify]
  by_cases hf : cell.frame = other.frame
  · have hs : cell.slot ≠ other.slot := fun hs => h (by cases cell; cases other; simp_all)
    cases fs.frames[other.frame]? <;> simp [Array.getElem?_modify, hf, hs]
  · simp [hf]

/-- Gives a frame more unbound slots and tells the first of them. The
slots stay when the machine backtracks. -/
def expand (fs : Frames) (id : FrameId) (count : Nat) : Frames × Nat :=
  let owner := fs.owner id
  let first := fs.locals owner
  (⟨fs.frames.modify owner fun f => { f with slots := f.slots ++ Array.replicate count {} },
    fs.made + count⟩, first)

/-- The committed value of a slot that a frame uses. -/
def value? (fs : Frames) (id : FrameId) (slot : Nat) : Option Term :=
  (fs.slot? ⟨fs.owner id, slot⟩).bind (·.value)

/-- Commits a value to a slot of a frame that was just entered. -/
def setValue (fs : Frames) (id : FrameId) (slot : Nat) (value : Term) : Frames :=
  fs.modifySlot ⟨fs.owner id, slot⟩ fun _ => ⟨some value, none⟩

/-- Takes away what a slot was bound to. -/
def unbind (fs : Frames) (cell : Cell) : Frames :=
  fs.modifySlot cell fun _ => {}

-- ============================================================ reading terms

/-- Pairs a term with the frame that holds the slots of `id`. -/
def bind (fs : Frames) (t : Term) (id : FrameId) : Term := t.bindTo (fs.owner id)

/-- `bind` for a term that may already be free of a frame. -/
def bindIn (fs : Frames) (t : Term) : Option FrameId → Term
  | some id => fs.bind t id
  | none => t

/-- What a slot shows: its committed value, else the tentative one if
that may be seen. -/
def Slot.shown (scratch : Bool) (s : Slot) : Option Term :=
  match s.value with
  | some v => some v
  | none => if scratch then s.scratch else none

/-- Follows bindings from a cell to an unbound one or to a value, through
at most so many cells. -/
def follow (fs : Frames) (scratch : Bool) : Nat → Cell → String → Term
  | 0, cell, name => .ref cell name
  | cells + 1, cell, name =>
    match fs.slot? cell with
    | none => .ref cell name
    | some slot =>
      match Slot.shown scratch slot with
      | none => .ref cell name
      | some (.ref cell name) => fs.follow scratch cells cell name
      | some value => value

/-- What a term stands for: a reference is followed through the committed
bindings, any other term stands for itself. -/
def resolve (fs : Frames) : Term → Term
  | .ref cell name => fs.follow false (fs.made + 1) cell name
  | t => t

/-- What a term read in a frame stands for while a unification is under
way. -/
def tentative (fs : Frames) (t : Term) (frame : Option FrameId) : Term :=
  match t, frame with
  | .var .wildcard, _ => t
  | .var v, some id => fs.follow true (fs.made + 1) ⟨fs.owner id, v.number⟩ v.name
  | .ref cell name, _ => fs.follow true (fs.made + 1) cell name
  | t, _ => t

/-- The heads of the list cells of a term and what follows the last. An
edge that is not cyclic meets no cell of a frame twice. -/
def spine (fs : Frames) : (cells : Nat) → Term → List Term × Term
  | 0, t => Term.listSpine none t
  | cells + 1, t =>
    let (heads, last) := Term.listSpine none t
    match last with
    | .ref _ _ =>
      let value := fs.resolve last
      if value.hasFunctor Term.dot 2 then
        let (more, last) := fs.spine cells value
        (heads ++ more, last)
      else (heads, value)
    | last => (heads, last)

/-- The view of terms through the frames. -/
def lens (fs : Frames) (forced : Nat → Option Term) : Lens :=
  ⟨fs.resolve, fs.spine (fs.made + 1), forced⟩

-- ============================================================ the variables of a term

/-- Adds an unbound variable to those seen, goes on with the value of a
bound one. The wildcard is not counted. -/
def sight (hop : Term → List Term → List Term) (t : Term) (seen : List Term) : List Term :=
  match t with
  | .var .wildcard => seen
  | .var _ | .ref _ _ => if seen.any t.same then seen else seen ++ [t]
  | value => hop value seen

mutual

/-- Adds the unbound variables of a term, read in a frame, to those
already seen; `hop` goes on with the value of a cell. -/
def collect (fs : Frames) (hop : Term → List Term → List Term) (frame : Option FrameId) :
    Term → List Term → List Term
  | .var v, seen => sight hop (fs.resolve ((Term.var v).bindIn frame)) seen
  | .ref cell name, seen => sight hop (fs.resolve (.ref cell name)) seen
  | .compound _ _ args, seen => fs.collectAll hop frame args seen
  | .closure _ _ args home, seen => fs.collectAll hop (some home) args seen
  | _, seen => seen

def collectAll (fs : Frames) (hop : Term → List Term → List Term) (frame : Option FrameId) :
    List Term → List Term → List Term
  | [], seen => seen
  | t :: ts, seen => fs.collectAll hop frame ts (fs.collect hop frame t seen)

end

/-- The distinct unbound variables of a term, depth first and from left to
right, through at most so many cells on any one way down. -/
def freeVarsWithin (fs : Frames) : (cells : Nat) → Term → List Term → List Term
  | 0, _, seen => seen
  | cells + 1, t, seen => fs.collect (fs.freeVarsWithin cells) none t seen

/-- The distinct unbound variables of a term, depth first and from left to
right. -/
def freeVars (fs : Frames) (t : Term) : List Term :=
  fs.freeVarsWithin (fs.made + 1) t []

end Frames

end LogicMachine
