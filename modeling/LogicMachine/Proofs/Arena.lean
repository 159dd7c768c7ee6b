/-
The arena of frames: how its operations show in its frames and slots, and
how two arenas compare.

Three relations compare arenas. `Reslots`: the frames are the same but for
what their slots hold. `Grows`: frames and slots may have been added.
`Restores`: nothing changed at all, but that unbound slots may have been
added at the end of frames; it is what backtracking promises, since the
slots made since a choice point stay.
-/
import LogicMachine.Choice
import Mathlib

namespace LogicMachine

/-- So many unbound slots. -/
abbrev blanks (n : Nat) : Array Slot := Array.replicate n {}

/-- The frame with other slots. -/
def Frame.withSlots (f : Frame) (slots : Array Slot) : Frame := { f with slots := slots }

namespace Frame

@[simp] theorem withSlots_slots (f : Frame) : f.withSlots f.slots = f := rfl

@[simp] theorem withSlots_withSlots (f : Frame) (a b : Array Slot) :
    (f.withSlots a).withSlots b = f.withSlots b := rfl

@[simp] theorem slots_withSlots (f : Frame) (a : Array Slot) : (f.withSlots a).slots = a := rfl

@[simp] theorem ancestry_withSlots (f : Frame) (a : Array Slot) :
    (f.withSlots a).ancestry = f.ancestry := rfl

@[simp] theorem ordinal_withSlots (f : Frame) (a : Array Slot) :
    (f.withSlots a).ordinal = f.ordinal := rfl

@[simp] theorem caller_withSlots (f : Frame) (a : Array Slot) :
    (f.withSlots a).caller = f.caller := rfl

@[simp] theorem next_withSlots (f : Frame) (a : Array Slot) : (f.withSlots a).next = f.next := rfl

@[simp] theorem owner_withSlots (f : Frame) (a : Array Slot) :
    (f.withSlots a).owner = f.owner := rfl

@[simp] theorem depth_withSlots (f : Frame) (a : Array Slot) :
    (f.withSlots a).depth = f.depth := rfl

end Frame

namespace Frames

-- ================================================== access to frames and slots

theorem slot?_eq (fs : Frames) (c : Cell) :
    fs.slot? c = (fs.get? c.frame).bind (·.slots[c.slot]?) := by
  unfold slot? get?
  cases fs.frames[c.frame]? <;> rfl

theorem owner_eq {fs : Frames} {id : FrameId} {f : Frame} (h : fs.get? id = some f) :
    fs.owner id = f.owner := by
  unfold get? at h
  simp [owner, h]

theorem ordinal_eq {fs : Frames} {id : FrameId} {f : Frame} (h : fs.get? id = some f) :
    fs.ordinal id = f.ordinal := by
  unfold get? at h
  simp [ordinal, h]

theorem depth_eq {fs : Frames} {id : FrameId} {f : Frame} (h : fs.get? id = some f) :
    fs.depth id = f.depth := by
  unfold get? at h
  simp [depth, h]

theorem owner_of_le {fs : Frames} {id : FrameId} (h : fs.size ≤ id) : fs.owner id = id := by
  have hn : fs.frames[id]? = none := Array.getElem?_eq_none h
  simp [owner, hn]

theorem get?_isSome {fs : Frames} {id : FrameId} : (fs.get? id).isSome ↔ id < fs.size := by
  simp [get?, size]

theorem exists_get? {fs : Frames} {id : FrameId} (h : id < fs.size) : ∃ f, fs.get? id = some f :=
  Option.isSome_iff_exists.1 (get?_isSome.2 h)

theorem lt_size_of_get? {fs : Frames} {id : FrameId} {f : Frame} (h : fs.get? id = some f) :
    id < fs.size :=
  get?_isSome.1 (by rw [h]; rfl)

theorem lt_size_of_slot? {fs : Frames} {c : Cell} {s : Slot} (h : fs.slot? c = some s) :
    c.frame < fs.size := by
  rw [slot?_eq] at h
  obtain ⟨f, hf, -⟩ := Option.bind_eq_some_iff.1 h
  exact lt_size_of_get? hf

/-- The frame that is entered. -/
def entered (fs : Frames) (ancestry : Nat) (caller : Option FrameId) (next : Code)
    (procedure : Option Procedure) (locals : Nat) (base : Option FrameId) : Frame where
  ancestry := ancestry
  ordinal := match base with
    | some b => fs.ordinal (fs.owner b)
    | none => ancestry
  caller := caller
  next := next
  procedure := procedure
  depth := match caller with
    | some c => fs.depth c + 1
    | none => 0
  owner := match base with
    | some b => fs.owner b
    | none => fs.size
  slots := match base with
    | some _ => #[]
    | none => Array.replicate locals {}

theorem get?_push (fs : Frames) (ancestry : Nat) (caller : Option FrameId) (next : Code)
    (procedure : Option Procedure) (locals : Nat) (base : Option FrameId) (id : FrameId) :
    (fs.push ancestry caller next procedure locals base).1.get? id
      = if id = fs.size then some (fs.entered ancestry caller next procedure locals base)
        else fs.get? id := by
  cases base <;> simp [push, get?, size, entered, Array.getElem?_push] <;> rfl

@[simp] theorem push_snd (fs : Frames) (ancestry : Nat) (caller : Option FrameId) (next : Code)
    (procedure : Option Procedure) (locals : Nat) (base : Option FrameId) :
    (fs.push ancestry caller next procedure locals base).2 = fs.size := by
  cases base <;> rfl

theorem get?_truncate (fs : Frames) (mark : Nat) (id : FrameId) :
    (fs.truncate mark).get? id = if id < max mark 1 then fs.get? id else none := by
  simp only [truncate, get?, Array.shrink_eq_take, Array.take_eq_extract,
    Array.getElem?_extract, Nat.zero_add, Nat.sub_zero]
  by_cases hm : id < max mark 1
  · rw [if_pos hm]
    split
    · rfl
    · rename_i h
      have hge : fs.frames.size ≤ id := Nat.le_of_not_lt fun hs => h (Nat.lt_min.2 ⟨hm, hs⟩)
      exact (Array.getElem?_eq_none hge).symm
  · rw [if_neg hm, if_neg fun h => hm (Nat.lt_min.1 h).1]

theorem slot?_truncate (fs : Frames) (mark : Nat) (c : Cell) :
    (fs.truncate mark).slot? c = if c.frame < max mark 1 then fs.slot? c else none := by
  rw [slot?_eq, get?_truncate, slot?_eq]
  split <;> rfl

theorem get?_modifySlot (fs : Frames) (cell : Cell) (change : Slot → Slot) (id : FrameId) :
    (fs.modifySlot cell change).get? id
      = (fs.get? id).map fun f =>
          if cell.frame = id then f.withSlots (f.slots.modify cell.slot change) else f := by
  simp only [modifySlot, get?, Array.getElem?_modify]
  split
  · rfl
  · simp

theorem slot?_modifySlot_eq (fs : Frames) (cell c : Cell) (change : Slot → Slot) :
    (fs.modifySlot cell change).slot? c
      = if c = cell then (fs.slot? c).map change else fs.slot? c := by
  split
  · rename_i h
    rw [h, slot?_modifySlot]
  · rename_i h
    exact slot?_modifySlot_of_ne fs change h

theorem get?_expand (fs : Frames) (id other : FrameId) (count : Nat) :
    (fs.expand id count).1.get? other
      = (fs.get? other).map fun f =>
          if fs.owner id = other then f.withSlots (f.slots ++ blanks count) else f := by
  simp only [expand, get?, Array.getElem?_modify]
  split
  · rfl
  · simp

theorem size_expand (fs : Frames) (id : FrameId) (count : Nat) :
    (fs.expand id count).1.size = fs.size := by
  simp [expand, size]

-- ================================================== slots counted

/-- A change of one element adds to a sum no more than to that element. -/
theorem sum_map_modify_le {α : Type} (g : α → Nat) (change : α → α) (n : Nat)
    (h : ∀ a, g (change a) ≤ g a + n) (l : List α) (i : Nat) :
    ((l.modify i change).map g).sum ≤ (l.map g).sum + n := by
  induction l generalizing i with
  | nil => simp
  | cons a l ih =>
    cases i with
    | zero =>
      have := h a
      simp only [List.modify_zero_cons, List.map_cons, List.sum_cons]
      omega
    | succ i =>
      have := ih i
      simp only [List.modify_succ_cons, List.map_cons, List.sum_cons]
      omega

/-- The number of slots of all frames. -/
def total (fs : Frames) : Nat := (fs.frames.toList.map (·.slots.size)).sum

/-- An arena never has more slots than were made. -/
def Within (fs : Frames) : Prop := fs.total ≤ fs.made

theorem within_push {fs : Frames} (h : fs.Within) (ancestry : Nat) (caller : Option FrameId)
    (next : Code) (procedure : Option Procedure) (locals : Nat) (base : Option FrameId) :
    (fs.push ancestry caller next procedure locals base).1.Within := by
  unfold Within total at *
  cases base <;> simp [push] <;> omega

theorem total_truncate_le (fs : Frames) (mark : Nat) : (fs.truncate mark).total ≤ fs.total := by
  unfold total
  simp only [truncate, Array.shrink_eq_take, Array.take_eq_extract, Array.toList_extract,
    List.extract_eq_take_drop, Nat.sub_zero, List.drop_zero]
  conv => rhs; rw [← List.take_append_drop (max mark 1) fs.frames.toList]
  rw [List.map_append, List.sum_append]
  exact Nat.le_add_right _ _

theorem within_truncate {fs : Frames} (h : fs.Within) (mark : Nat) : (fs.truncate mark).Within :=
  Nat.le_trans (total_truncate_le fs mark) h

theorem within_modifySlot {fs : Frames} (h : fs.Within) (cell : Cell) (change : Slot → Slot) :
    (fs.modifySlot cell change).Within := by
  unfold Within total at *
  refine Nat.le_trans ?_ h
  rw [modifySlot, Array.toList_modify]
  exact sum_map_modify_le _ _ 0 (by simp) _ _

theorem within_expand {fs : Frames} (h : fs.Within) (id : FrameId) (count : Nat) :
    (fs.expand id count).1.Within := by
  unfold Within total at *
  have hs := sum_map_modify_le (fun f : Frame => f.slots.size)
    (fun f => { f with slots := f.slots ++ Array.replicate count {} }) count (by simp)
    fs.frames.toList (fs.owner id)
  simp only [expand, Array.toList_modify]
  omega

-- ================================================== the same frames

/-- The frames are the same but for what their slots hold. -/
structure Reslots (fs fs' : Frames) : Prop where
  size : fs'.size = fs.size
  frame : ∀ {i f}, fs.get? i = some f →
    ∃ slots, fs'.get? i = some (f.withSlots slots) ∧ slots.size = f.slots.size

/-- Frames and slots may have been added. -/
structure Grows (fs fs' : Frames) : Prop where
  size : fs.size ≤ fs'.size
  frame : ∀ {i f}, fs.get? i = some f →
    ∃ slots, fs'.get? i = some (f.withSlots slots) ∧ f.slots.size ≤ slots.size

/-- Every frame below the mark is as it was, but that it may have been
given further slots, which are unbound. -/
def RestoresBelow (mark : Nat) (fs fs' : Frames) : Prop :=
  ∀ i f, i < mark → fs.get? i = some f →
    ∃ n, fs'.get? i = some (f.withSlots (f.slots ++ blanks n))

/-- Every frame is as it was, but that it may have been given further
slots, which are unbound. -/
structure Restores (fs fs' : Frames) : Prop where
  size : fs'.size = fs.size
  frame : ∀ {i f}, fs.get? i = some f →
    ∃ n, fs'.get? i = some (f.withSlots (f.slots ++ blanks n))

namespace Reslots

theorem refl (fs : Frames) : fs.Reslots fs := ⟨rfl, fun {_ f} h => ⟨f.slots, h, rfl⟩⟩

theorem trans {fs₁ fs₂ fs₃ : Frames} (h₁ : fs₁.Reslots fs₂) (h₂ : fs₂.Reslots fs₃) :
    fs₁.Reslots fs₃ := by
  refine ⟨h₂.size.trans h₁.size, fun hf => ?_⟩
  obtain ⟨slots, hf', hs⟩ := h₁.frame hf
  obtain ⟨slots', hf'', hs'⟩ := h₂.frame hf'
  exact ⟨slots', hf'', hs'.trans hs⟩

theorem grows {fs fs' : Frames} (h : fs.Reslots fs') : fs.Grows fs' := by
  refine ⟨h.size.ge, fun hf => ?_⟩
  obtain ⟨slots, hf', hs⟩ := h.frame hf
  exact ⟨slots, hf', hs.ge⟩

theorem owner {fs fs' : Frames} (h : fs.Reslots fs') (id : FrameId) : fs'.owner id = fs.owner id := by
  by_cases hid : id < fs.size
  · obtain ⟨f, hf⟩ := exists_get? hid
    obtain ⟨slots, hf', -⟩ := h.frame hf
    rw [owner_eq hf, owner_eq hf', Frame.owner_withSlots]
  · have hid := Nat.le_of_not_lt hid
    rw [owner_of_le hid, owner_of_le (h.size.le.trans hid)]

/-- A term is read as before. -/
theorem bindIn {fs fs' : Frames} (h : fs.Reslots fs') (t : Term) (frame : Option FrameId) :
    fs'.bindIn t frame = fs.bindIn t frame := by
  cases frame with
  | none => rfl
  | some f => exact congrArg t.bindTo (h.owner f)

theorem ordinal {fs fs' : Frames} (h : fs.Reslots fs') (id : FrameId) :
    fs'.ordinal id = fs.ordinal id := by
  by_cases hid : id < fs.size
  · obtain ⟨f, hf⟩ := exists_get? hid
    obtain ⟨slots, hf', -⟩ := h.frame hf
    rw [ordinal_eq hf, ordinal_eq hf', Frame.ordinal_withSlots]
  · have hid := Nat.le_of_not_lt hid
    have hn : fs.frames[id]? = none := Array.getElem?_eq_none hid
    have hn' : fs'.frames[id]? = none := Array.getElem?_eq_none (h.size.le.trans hid)
    simp [Frames.ordinal, hn, hn']

/-- A frame read backwards. -/
theorem frame_inv {fs fs' : Frames} (h : fs.Reslots fs') {i : FrameId} {f' : Frame}
    (hf : fs'.get? i = some f') :
    ∃ f, fs.get? i = some f ∧ f' = { f with slots := f'.slots }
      ∧ f'.slots.size = f.slots.size := by
  obtain ⟨f, hf₀⟩ := exists_get? (h.size ▸ lt_size_of_get? hf)
  obtain ⟨slots, hf', hs⟩ := h.frame hf₀
  rw [hf] at hf'
  cases hf'
  exact ⟨f, hf₀, rfl, hs⟩

theorem modifySlot (fs : Frames) (cell : Cell) (change : Slot → Slot) :
    fs.Reslots (fs.modifySlot cell change) := by
  refine ⟨size_modifySlot fs cell change, fun {i f} hf => ?_⟩
  by_cases h : cell.frame = i
  · exact ⟨f.slots.modify cell.slot change, by rw [get?_modifySlot, hf]; simp [h], by simp⟩
  · exact ⟨f.slots, by rw [get?_modifySlot, hf]; simp [h], rfl⟩

end Reslots

namespace Grows

theorem refl (fs : Frames) : fs.Grows fs := (Reslots.refl fs).grows

theorem trans {fs₁ fs₂ fs₃ : Frames} (h₁ : fs₁.Grows fs₂) (h₂ : fs₂.Grows fs₃) :
    fs₁.Grows fs₃ := by
  refine ⟨h₁.size.trans h₂.size, fun hf => ?_⟩
  obtain ⟨slots, hf', hs⟩ := h₁.frame hf
  obtain ⟨slots', hf'', hs'⟩ := h₂.frame hf'
  exact ⟨slots', hf'', hs.trans hs'⟩

theorem push (fs : Frames) (ancestry : Nat) (caller : Option FrameId) (next : Code)
    (procedure : Option Procedure) (locals : Nat) (base : Option FrameId) :
    fs.Grows (fs.push ancestry caller next procedure locals base).1 := by
  refine ⟨by simp, fun {i f} hf => ⟨f.slots, ?_, le_rfl⟩⟩
  rw [get?_push_of_lt ancestry caller next procedure locals base (lt_size_of_get? hf)]
  exact hf

theorem expand (fs : Frames) (id : FrameId) (count : Nat) : fs.Grows (fs.expand id count).1 := by
  refine ⟨(size_expand ..).ge, fun {i f} hf => ?_⟩
  by_cases hi : fs.owner id = i
  · exact ⟨f.slots ++ blanks count, by rw [get?_expand, hf]; simp [hi], by simp⟩
  · exact ⟨f.slots, by rw [get?_expand, hf]; simp [hi], le_rfl⟩

theorem owner {fs fs' : Frames} (h : fs.Grows fs') {id : FrameId} (hid : id < fs.size) :
    fs'.owner id = fs.owner id := by
  obtain ⟨f, hf⟩ := exists_get? hid
  obtain ⟨slots, hf', -⟩ := h.frame hf
  rw [owner_eq hf, owner_eq hf', Frame.owner_withSlots]

theorem isSome_slot? {fs fs' : Frames} (h : fs.Grows fs') {c : Cell}
    (hc : (fs.slot? c).isSome) : (fs'.slot? c).isSome := by
  rw [slot?_eq] at hc ⊢
  cases hf : fs.get? c.frame with
  | none => simp [hf] at hc
  | some f =>
    obtain ⟨slots, hf', hs⟩ := h.frame hf
    rw [hf']
    simp only [hf, Option.bind_some, isSome_getElem?] at hc ⊢
    exact hc.trans_le hs

end Grows

namespace RestoresBelow

theorem refl (mark : Nat) (fs : Frames) : RestoresBelow mark fs fs :=
  fun _ f _ hf => ⟨0, by simpa using hf⟩

theorem mono {mark mark' : Nat} {fs fs' : Frames} (h : RestoresBelow mark fs fs')
    (hm : mark' ≤ mark) : RestoresBelow mark' fs fs' :=
  fun i f hi hf => h i f (hi.trans_le hm) hf

/-- Below the mark, entering a frame changes nothing. -/
theorem push {mark : Nat} {fs : Frames} (hm : mark ≤ fs.size) (ancestry : Nat)
    (caller : Option FrameId) (next : Code) (procedure : Option Procedure) (locals : Nat)
    (base : Option FrameId) :
    RestoresBelow mark fs (fs.push ancestry caller next procedure locals base).1 := by
  intro i f hi hf
  refine ⟨0, ?_⟩
  rw [get?_push_of_lt ancestry caller next procedure locals base (hi.trans_le hm), hf]
  simp

theorem truncate {mark : Nat} (fs : Frames) (cut : Nat) (hm : mark ≤ cut) :
    RestoresBelow mark fs (fs.truncate cut) := by
  intro i f hi hf
  refine ⟨0, ?_⟩
  rw [get?_truncate_of_lt fs (hi.trans_le hm), hf]
  simp

/-- New slots are unbound ones. -/
theorem expand (mark : Nat) (fs : Frames) (id : FrameId) (count : Nat) :
    RestoresBelow mark fs (fs.expand id count).1 := by
  intro i f _ hf
  by_cases h : fs.owner id = i
  · exact ⟨count, by rw [get?_expand, hf]; simp [h]⟩
  · exact ⟨0, by rw [get?_expand, hf]; simp [h]⟩

/-- What is restored below the mark is all there is once the arena is cut
back to it. -/
theorem restores_truncate {mark : Nat} {fs fs' : Frames} (h : RestoresBelow mark fs fs')
    (hpos : 0 < mark) (hm : mark ≤ fs.size) (hm' : mark ≤ fs'.size) :
    (fs.truncate mark).Restores (fs'.truncate mark) := by
  have hmax : max mark 1 = mark := Nat.max_eq_left hpos
  refine ⟨?_, fun {i f} hf => ?_⟩
  · rw [size_truncate, size_truncate, hmax, Nat.min_eq_left hm, Nat.min_eq_left hm']
  · rw [get?_truncate, hmax] at hf
    split at hf
    · rename_i hi
      obtain ⟨n, hn⟩ := h i f hi hf
      exact ⟨n, by rw [get?_truncate, hmax, if_pos hi, hn]⟩
    · cases hf

end RestoresBelow

namespace Restores

theorem refl (fs : Frames) : fs.Restores fs := ⟨rfl, fun {_ f} hf => ⟨0, by simpa using hf⟩⟩

theorem trans {fs₁ fs₂ fs₃ : Frames} (h₁ : fs₁.Restores fs₂) (h₂ : fs₂.Restores fs₃) :
    fs₁.Restores fs₃ := by
  refine ⟨h₂.size.trans h₁.size, fun hf => ?_⟩
  obtain ⟨n, hn⟩ := h₁.frame hf
  obtain ⟨k, hk⟩ := h₂.frame hn
  refine ⟨n + k, ?_⟩
  rw [hk, Frame.withSlots_withSlots, Frame.slots_withSlots, Array.append_assoc,
    Array.replicate_append_replicate]

theorem grows {fs fs' : Frames} (h : fs.Restores fs') : fs.Grows fs' := by
  refine ⟨h.size.ge, fun hf => ?_⟩
  obtain ⟨n, hn⟩ := h.frame hf
  exact ⟨_, hn, by simp⟩

/-- Every slot holds what it held. -/
theorem kept {fs fs' : Frames} (h : fs.Restores fs') {c : Cell} {s : Slot}
    (hs : fs.slot? c = some s) : fs'.slot? c = some s := by
  rw [slot?_eq] at hs ⊢
  obtain ⟨f, hf, hs⟩ := Option.bind_eq_some_iff.1 hs
  obtain ⟨n, hn⟩ := h.frame hf
  rw [hn, Option.bind_some, Frame.slots_withSlots, Array.getElem?_append]
  obtain ⟨hlt, -⟩ := Array.getElem?_eq_some_iff.1 hs
  rw [if_pos hlt, hs]

/-- Every slot that was not there is unbound. -/
theorem unbound {fs fs' : Frames} (h : fs.Restores fs') {c : Cell} {s : Slot}
    (hs : fs'.slot? c = some s) (hnew : fs.slot? c = none) : s = {} := by
  have hlt : c.frame < fs.size := by
    rw [← h.size]
    exact lt_size_of_slot? hs
  obtain ⟨f, hf⟩ := exists_get? hlt
  obtain ⟨n, hn⟩ := h.frame hf
  rw [slot?_eq, hf, Option.bind_some] at hnew
  rw [slot?_eq, hn, Option.bind_some, Frame.slots_withSlots, Array.getElem?_append,
    if_neg (by simpa using hnew), Array.getElem?_replicate] at hs
  split at hs
  · exact (Option.some.inj hs).symm
  · cases hs

end Restores

-- ================================================== undoing

theorem undo_cons (fs : Frames) (c : Cell) (trail : List Cell) :
    fs.undo (c :: trail) = (fs.unbind c).undo trail := rfl

@[simp] theorem undo_nil (fs : Frames) : fs.undo [] = fs := rfl

theorem undo_append (fs : Frames) (t t' : List Cell) :
    fs.undo (t ++ t') = (fs.undo t).undo t' := by
  unfold undo
  exact List.foldl_append

/-- The slots of a frame with those of a trail unbound. -/
def wiped (trail : List Cell) (i : FrameId) (slots : Array Slot) : Array Slot :=
  slots.mapIdx fun j s => if (⟨i, j⟩ : Cell) ∈ trail then {} else s

@[simp] theorem size_wiped (trail : List Cell) (i : FrameId) (slots : Array Slot) :
    (wiped trail i slots).size = slots.size := by
  simp [wiped]

theorem getElem?_wiped (trail : List Cell) (i : FrameId) (slots : Array Slot) (j : Nat) :
    (wiped trail i slots)[j]?
      = slots[j]?.map fun s => if (⟨i, j⟩ : Cell) ∈ trail then {} else s := by
  simp [wiped]

@[simp] theorem wiped_nil (i : FrameId) (slots : Array Slot) : wiped [] i slots = slots := by
  refine Array.ext_getElem? fun j => ?_
  rw [getElem?_wiped]
  simp

theorem wiped_cons (c : Cell) (trail : List Cell) (i : FrameId) (slots : Array Slot) :
    wiped (c :: trail) i slots
      = wiped trail i (if c.frame = i then slots.modify c.slot fun _ => {} else slots) := by
  refine Array.ext_getElem? fun j => ?_
  by_cases hc : (⟨i, j⟩ : Cell) = c
  · have hi : c.frame = i := by rw [← hc]
    have hj : c.slot = j := by rw [← hc]
    rw [getElem?_wiped, getElem?_wiped, if_pos hi, Array.getElem?_modify, if_pos hj]
    cases slots[j]? <;> simp [hc]
  · have hs : (if c.frame = i then slots.modify c.slot fun _ => {} else slots)[j]? = slots[j]? := by
      split
      · rename_i hi
        have hj : c.slot ≠ j := fun hj => hc (by rw [← hi, ← hj])
        rw [Array.getElem?_modify, if_neg hj]
      · rfl
    rw [getElem?_wiped, getElem?_wiped, hs]
    simp [hc]

theorem wiped_append_replicate (trail : List Cell) (i : FrameId) (slots : Array Slot) (n : Nat) :
    wiped trail i (slots ++ blanks n) = wiped trail i slots ++ blanks n := by
  refine Array.ext_getElem? fun j => ?_
  rw [getElem?_wiped, Array.getElem?_append, Array.getElem?_append, size_wiped, getElem?_wiped]
  by_cases hj : j < slots.size
  · rw [if_pos hj, if_pos hj]
  · rw [if_neg hj, if_neg hj, Array.getElem?_replicate]
    split <;> simp

/-- Undoing a trail unbinds its cells and leaves all else as it is. -/
theorem get?_undo (fs : Frames) (trail : List Cell) (i : FrameId) :
    (fs.undo trail).get? i
      = (fs.get? i).map fun f => f.withSlots (wiped trail i f.slots) := by
  induction trail generalizing fs with
  | nil => cases hf : fs.get? i <;> simp [hf]
  | cons c trail ih =>
    rw [undo_cons, ih, unbind, get?_modifySlot]
    cases hf : fs.get? i with
    | none => rfl
    | some f =>
      simp only [Option.map_some, wiped_cons]
      split <;> rfl

@[simp] theorem size_undo (fs : Frames) (trail : List Cell) : (fs.undo trail).size = fs.size := by
  induction trail generalizing fs with
  | nil => rfl
  | cons c trail ih => rw [undo_cons, ih, unbind, size_modifySlot]

@[simp] theorem made_undo (fs : Frames) (trail : List Cell) : (fs.undo trail).made = fs.made := by
  induction trail generalizing fs with
  | nil => rfl
  | cons c trail ih => rw [undo_cons, ih]; rfl

theorem slot?_undo (fs : Frames) (trail : List Cell) (c : Cell) :
    (fs.undo trail).slot? c = (fs.slot? c).map fun s => if c ∈ trail then {} else s := by
  rw [slot?_eq, slot?_eq, get?_undo]
  cases fs.get? c.frame with
  | none => rfl
  | some f => exact getElem?_wiped trail c.frame f.slots c.slot

theorem reslots_undo (fs : Frames) (trail : List Cell) : fs.Reslots (fs.undo trail) :=
  ⟨size_undo fs trail, fun {i f} hf => ⟨wiped trail i f.slots, by rw [get?_undo, hf]; rfl, by simp⟩⟩

theorem within_undo {fs : Frames} (h : fs.Within) (trail : List Cell) : (fs.undo trail).Within := by
  induction trail generalizing fs with
  | nil => exact h
  | cons c trail ih => exact ih (within_modifySlot h c _)

/-- Two trails that agree below the mark undo the same there. -/
theorem RestoresBelow.undo {mark : Nat} {fs fs' : Frames} (h : RestoresBelow mark fs fs')
    {t t' : List Cell} (ht : ∀ c : Cell, c.frame < mark → (c ∈ t ↔ c ∈ t')) :
    RestoresBelow mark (fs.undo t) (fs'.undo t') := by
  intro i f hi hf
  rw [get?_undo] at hf
  obtain ⟨g, hg, rfl⟩ := Option.map_eq_some_iff.1 hf
  obtain ⟨n, hn⟩ := h i g hi hg
  refine ⟨n, ?_⟩
  have hw : wiped t' i g.slots = wiped t i g.slots := by
    unfold wiped
    congr 1
    funext j s
    simp only [ht ⟨i, j⟩ hi]
  rw [get?_undo, hn, Option.map_some, Frame.slots_withSlots, wiped_append_replicate, hw]
  rfl

-- ================================================== binding cells

/-- The arena after some cells were bound, which are there: no other slot has
changed. -/
structure Binds (cells : List Cell) (fs fs' : Frames) : Prop where
  made : fs'.made = fs.made
  reslots : fs.Reslots fs'
  live : ∀ c ∈ cells, (fs.slot? c).isSome
  other : ∀ {c}, c ∉ cells → fs'.slot? c = fs.slot? c

/-- Without a cell that was bound, the arena is the same. -/
theorem Binds.eq_of_nil {fs fs' : Frames} (h : Binds [] fs fs') : fs' = fs := by
  have hframes : fs'.frames = fs.frames := by
    refine Array.ext_getElem? fun i => ?_
    cases hi : fs.get? i with
    | none =>
      have hlen : fs.size ≤ i := Nat.le_of_not_lt fun hlt => by
        obtain ⟨f, hf⟩ := exists_get? hlt
        rw [hi] at hf
        cases hf
      exact (Array.getElem?_eq_none (h.reslots.size ▸ hlen : fs'.size ≤ i)).trans hi.symm
    | some f =>
      obtain ⟨slots, hf', -⟩ := h.reslots.frame hi
      have hslots : slots = f.slots := by
        refine Array.ext_getElem? fun j => ?_
        have hslot : fs'.slot? ⟨i, j⟩ = fs.slot? ⟨i, j⟩ := h.other List.not_mem_nil
        rwa [slot?_eq, slot?_eq, hf', hi] at hslot
      rw [hslots] at hf'
      exact hf'.trans hi.symm
  have hmade := h.made
  cases fs
  cases fs'
  cases hframes
  cases hmade
  rfl

/-- The cells are there and unbound. -/
def Unbound (fs : Frames) (cells : List Cell) : Prop := ∀ c ∈ cells, fs.slot? c = some {}

/-- Undoing bindings of unbound cells, among other cells, is to undo the
others. -/
theorem Binds.undo {cells : List Cell} {fs fs' : Frames} (h : Binds cells fs fs')
    (hu : fs.Unbound cells) {mark : Nat} {t t' : List Cell}
    (ht : ∀ c : Cell, c.frame < mark → (c ∈ t' ↔ c ∈ cells ∨ c ∈ t)) :
    RestoresBelow mark (fs.undo t) (fs'.undo t') := by
  intro i f hi hf
  rw [get?_undo] at hf
  obtain ⟨g, hg, rfl⟩ := Option.map_eq_some_iff.1 hf
  obtain ⟨slots, hg', hs⟩ := h.reslots.frame hg
  have hslot : ∀ {a : Frames} {k : Frame} {j : Nat}, a.get? i = some k →
      a.slot? ⟨i, j⟩ = k.slots[j]? := fun hk => by rw [slot?_eq, hk]; rfl
  have hw : wiped t' i slots = wiped t i g.slots := by
    refine Array.ext_getElem? fun j => ?_
    simp only [getElem?_wiped, ht ⟨i, j⟩ hi]
    by_cases hc : (⟨i, j⟩ : Cell) ∈ cells
    · -- the cell was unbound, so that both sides hold an unbound slot
      have hold := hu _ hc
      rw [hslot hg] at hold
      have hlt : j < slots.size := hs ▸ (Array.getElem?_eq_some_iff.1 hold).1
      rw [hold, Array.getElem?_eq_getElem hlt]
      simp [hc]
    · have hold := h.other hc
      rw [hslot hg, hslot hg', Frame.slots_withSlots] at hold
      rw [hold]
      simp [hc]
  refine ⟨0, ?_⟩
  rw [get?_undo, hg', Option.map_some, Frame.slots_withSlots, hw]
  simp

end Frames

end LogicMachine
