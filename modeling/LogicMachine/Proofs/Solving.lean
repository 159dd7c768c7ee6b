/-
Following references, and one equation at a time.

In a sound arena a chain of references ends at an unbound slot or at a
value. Hence what an equation asks to bind is an unbound slot, and the
value it gets names only what is there, and is an older cell if it is a
cell. The bindings made while equations are solved are tentative;
committed, they have bound just these cells, and taken back, nothing.
-/
import LogicMachine.Proofs.Soundness

namespace LogicMachine

theorem Cell.before_trichotomy {a b : Cell} (hne : a ≠ b) (h : ¬ a.Before b) : b.Before a := by
  rcases Nat.lt_trichotomy a.frame b.frame with hlt | heq | hgt
  · exact absurd (.inl hlt) h
  · rcases Nat.lt_trichotomy a.slot b.slot with hlt | hs | hgt
    · exact absurd (.inr ⟨heq, hlt⟩) h
    · exact absurd (by cases a; cases b; simp_all) hne
    · exact .inr ⟨heq.symm, hgt⟩
  · exact .inl hgt

namespace Frames

-- ================================================== following references

theorem shown_some {scratch : Bool} {s : Slot} {t : Term} (h : Slot.shown scratch s = some t) :
    s.value = some t ∨ s.scratch = some t := by
  unfold Slot.shown at h
  split at h
  · rename_i hv
    exact .inl (hv.trans h)
  · split at h
    · exact .inr h
    · cases h

theorem value_of_shown {scratch : Bool} {s : Slot} (h : Slot.shown scratch s = none) :
    s.value = none := by
  unfold Slot.shown at h
  split at h
  · cases h
  · assumption

section

variable {strict : Bool} {fs : Frames}

/-- What a reference leads to names only what is there. -/
theorem Sound.follow_live (h : fs.Sound strict) (scratch : Bool) (cells : Nat) {cell : Cell}
    (name : String) (hc : (fs.world strict).cell cell) :
    (fs.follow scratch cells cell name).Live (fs.world strict) := by
  induction cells generalizing cell name with
  | zero => exact Term.fits_ref.2 hc
  | succ cells ih =>
    unfold follow
    split
    · exact Term.fits_ref.2 hc
    · rename_i slot hslot
      have hin : ∀ {t : Term}, Slot.shown scratch slot = some t → t.Live (fs.world strict) :=
        fun ht => h.value hslot (shown_some ht)
      split
      · exact Term.fits_ref.2 hc
      · rename_i hshown
        exact ih _ (Term.fits_ref.1 (hin hshown))
      · rename_i hshown
        exact hin hshown

/-- If it leads to a cell, that cell is there and shows nothing. -/
theorem Sound.follow_unbound (h : fs.Sound true) (scratch : Bool) {cells : Nat} {cell d : Cell}
    {name m : String} (hc : (fs.slot? cell).isSome) (hlt : fs.place cell < cells)
    (hd : fs.follow scratch cells cell name = .ref d m) :
    ∃ s, fs.slot? d = some s ∧ Slot.shown scratch s = none := by
  induction cells generalizing cell name with
  | zero => exact absurd hlt (Nat.not_lt_zero _)
  | succ cells ih =>
    unfold follow at hd
    split at hd
    · rename_i hnone
      rw [hnone] at hc
      cases hc
    · rename_i slot hslot
      split at hd
      · rename_i hshown
        cases hd
        exact ⟨slot, hslot, hshown⟩
      · -- one reference further the cell is older, and its place smaller
        rename_i e n hshown
        have hin := shown_some hshown
        have hsome : (fs.slot? e).isSome := (Term.fits_ref.1 (h.value hslot hin)).2 rfl
        have hbefore : e.Before cell := h.descends hslot hin
        have := place_lt_place hsome hbefore
        exact ih hsome (by omega) hd
      · rename_i value hno hshown
        rw [hd] at hno
        exact absurd rfl (hno d m)

theorem Sound.resolve_live (h : fs.Sound strict) {t : Term} (ht : t.Live (fs.world strict)) :
    (fs.resolve t).Live (fs.world strict) := by
  unfold resolve
  split
  · exact h.follow_live _ _ _ (Term.fits_ref.1 ht)
  · exact ht

end

-- ================================================== the sides of an equation

/-- A term makes sense when it is read in a frame, or in none. -/
inductive Reads (strict : Bool) (fs : Frames) (t : Term) : Option FrameId → Prop
  | bare (h : t.Live (fs.world strict)) : Reads strict fs t none
  | framed {f : FrameId} (h : t.Fits (fs.world strict) ((fs.world strict).slotsOf (fs.owner f)))
      (hf : (fs.world strict).frame (fs.owner f)) : Reads strict fs t (some f)

theorem bindIn_eq_ref {fs : Frames} {frame : Option FrameId} {t : Term} (ht : ∀ v, t ≠ .var v)
    {d : Cell} {m : String} (h : fs.bindIn t frame = .ref d m) : t = .ref d m := by
  cases frame with
  | none => exact h
  | some f =>
    cases t with
    | var v => exact absurd rfl (ht v)
    | compound form name args => cases form <;> cases h
    | ref c n => exact h
    | _ => cases h

section

variable {strict : Bool} {fs fs' : Frames} {frame : Option FrameId} {t : Term}

theorem Reads.bindIn (h : fs.Reads strict t frame) :
    (fs.bindIn t frame).Live (fs.world strict) := by
  cases h with
  | bare h => exact h
  | framed h hf => exact h.bindTo hf fun _ hi => hi

theorem Reads.of_live (h : t.Live (fs.world strict))
    (hf : ∀ f ∈ frame, (fs.world strict).frame (fs.owner f)) : fs.Reads strict t frame := by
  cases frame with
  | none => exact .bare h
  | some f => exact .framed (h.mono (.refl _) fun _ hr => slotsOf_of_raw hr (hf f rfl)) (hf f rfl)

theorem Reads.owner_live (h : fs.Reads strict t frame) :
    ∀ f ∈ frame, (fs.world strict).frame (fs.owner f) := by
  intro f hf
  cases h with
  | bare => cases hf
  | framed _ hlive =>
    cases hf
    exact hlive

theorem Reads.cell {c : Cell} {name : String} (h : fs.Reads strict (.ref c name) frame) :
    (fs.world strict).cell c := by
  cases h with
  | bare h => exact Term.fits_ref.1 h
  | framed h _ => exact Term.fits_ref.1 h

/-- A template variable read in a frame is one of its slots. -/
theorem Reads.slot {v : Var} {f : FrameId} (h : fs.Reads strict (.var v) (some f))
    (hv : v ≠ .wildcard) : (fs.world strict).cell ⟨fs.owner f, v.number⟩ := by
  cases h with
  | framed h _ => exact ((Term.fits_var.1 h).resolve_left hv).2

/-- A change of what slots hold changes nothing of how terms are read. -/
theorem Reads.reslots (h : fs.Reads strict t frame) (hr : fs.Reslots fs') :
    fs'.Reads strict t frame := by
  have hle : (fs.world strict).Le (fs'.world strict) := hr.grows.world_le
  cases h with
  | bare h => exact .bare (h.mono hle fun _ hr => hr)
  | framed h hf =>
    rename_i f
    rw [← hr.owner f] at h hf
    exact .framed (h.mono hle fun _ hi => hle.cell _ hi) (hle.frame _ hf)

/-- Once references are followed, a term makes sense where it did. -/
theorem Sound.tentative_reads (h : fs.Sound strict) (ht : fs.Reads strict t frame) :
    fs.Reads strict (fs.tentative t frame) frame := by
  unfold tentative
  split
  · exact ht
  · rename_i v f hv
    exact .of_live (h.follow_live _ _ _ (ht.slot fun he => hv (he ▸ rfl))) ht.owner_live
  · exact .of_live (h.follow_live _ _ _ ht.cell) ht.owner_live
  · exact ht

theorem Sound.side_live (h : fs.Sound strict) (ht : fs.Reads strict t frame) :
    (fs.side t frame).Live (fs.world strict) :=
  (h.tentative_reads ht).bindIn

/-- A side that is a cell is one that is there and unbound. -/
theorem Sound.side_unbound (h : fs.Sound true) (hw : fs.Within) (ht : fs.Reads true t frame)
    {d : Cell} {m : String} (hd : fs.side t frame = .ref d m) :
    ∃ s, fs.slot? d = some s ∧ Slot.shown true s = none := by
  have hend : ∀ {c n}, (fs.world true).cell c →
      fs.bindIn (fs.follow true (fs.made + 1) c n) frame = .ref d m →
      ∃ s, fs.slot? d = some s ∧ Slot.shown true s = none := by
    intro c n hc he
    have hlive := h.follow_live true (fs.made + 1) n hc
    have hsome := hc.2 rfl
    have hlt : fs.place c < fs.made + 1 := (place_lt_total hsome).trans_le (hw.trans (Nat.le_succ _))
    refine h.follow_unbound true hsome hlt (bindIn_eq_ref (fun v hv => ?_) he)
    -- the value of a slot is no bare variable
    rw [hv] at hlive he
    obtain rfl | ⟨-, hraw⟩ := Term.fits_var.1 hlive
    · cases frame <;> cases he
    · cases hraw
  unfold side tentative at hd
  split at hd
  · cases frame <;> cases hd
  · rename_i v f hv
    exact hend (ht.slot fun he => hv (he ▸ rfl)) hd
  · exact hend ht.cell hd
  · rename_i hwild href hvar
    have hne : ∀ v, t ≠ .var v := by
      rintro v rfl
      cases ht with
      | bare ht =>
        obtain rfl | ⟨-, hraw⟩ := Term.fits_var.1 ht
        · exact hwild rfl
        · cases hraw
      | framed _ _ => exact hvar v _ rfl rfl
    exact absurd (bindIn_eq_ref hne hd) fun he => href d m he

end

end Frames

-- ================================================== what an equation takes

/-- Both sides of the equation make sense. -/
structure Equation.Reads (strict : Bool) (fs : Frames) (e : Equation) : Prop where
  left : fs.Reads strict e.left e.leftIn
  right : fs.Reads strict e.right e.rightIn

/-- The verdict asks for nothing that is not there. A cell to be bound is
unbound, and bound to an older one if to a cell. -/
def Verdict.Sound (strict : Bool) (fs : Frames) : Verdict → Prop
  | .bind cell _ value => value.Live (fs.world strict)
      ∧ (strict = true → ∃ s, fs.slot? cell = some s ∧ Frames.Slot.shown true s = none)
      ∧ ∀ d name, value = .ref d name → d.Before cell
  | .split equations => ∀ e ∈ equations, e.Reads strict fs
  | .forceLeft _ t | .forceRight t _ => t.Live (fs.world strict)
  | .solved | .clash => True

namespace Equation

variable {strict : Bool} {fs : Frames}

/-- The arguments of a compound make sense in the frame they are read
in. -/
theorem reads_compound? {t : Term} {name : String} {args : List Term} {frame : Option FrameId}
    (ht : t.Live (fs.world strict)) (h : t.compound? = some (name, args, frame)) :
    ∀ a ∈ args, fs.Reads strict a frame := by
  intro a ha
  cases t with
  | compound form n as =>
    cases h
    exact .bare ((Term.fits_compound.1 ht).2 a ha)
  | closure serial n as home =>
    cases h
    obtain ⟨hf, hargs⟩ := Term.fits_closure.1 ht
    exact .framed ((hargs a ha).mono (.refl _) fun _ => Frames.slotsOf_owner hf)
      (Frames.frame_owner hf)
  | _ => cases h

/-- What holds of the arguments of both compounds holds of both sides of the
equations between them. -/
theorem forall_between {P : Term → Option FrameId → Prop} {xs ys : List Term}
    {fx fy : Option FrameId} (hx : ∀ x ∈ xs, P x fx) (hy : ∀ y ∈ ys, P y fy) :
    ∀ e ∈ between xs fx ys fy, P e.left e.leftIn ∧ P e.right e.rightIn := by
  intro e he
  unfold between at he
  rw [← List.map_uncurry_zip_eq_zipWith] at he
  obtain ⟨⟨x, y⟩, hxy, rfl⟩ := List.mem_map.1 he
  obtain ⟨hmx, hmy⟩ := List.of_mem_zip hxy
  exact ⟨hx x hmx, hy y hmy⟩

theorem reads_between {xs ys : List Term} {fx fy : Option FrameId}
    (hx : ∀ x ∈ xs, fs.Reads strict x fx) (hy : ∀ y ∈ ys, fs.Reads strict y fy) :
    ∀ e ∈ between xs fx ys fy, e.Reads strict fs := fun e he =>
  have hreads := forall_between hx hy e he
  ⟨hreads.1, hreads.2⟩

theorem decideSides_sound (h : fs.Sound strict) {age : Nat} (hl : fs.Laddered age) {x y : Term}
    (hx : x.Live (fs.world strict)) (hy : y.Live (fs.world strict))
    (hux : strict = true → ∀ d m, x = .ref d m →
      ∃ s, fs.slot? d = some s ∧ Frames.Slot.shown true s = none)
    (huy : strict = true → ∀ d m, y = .ref d m →
      ∃ s, fs.slot? d = some s ∧ Frames.Slot.shown true s = none) :
    (decideSides fs x y).Sound strict fs := by
  have hframe : ∀ {d m}, (Term.ref d m).Live (fs.world strict) → (fs.world strict).frame d.frame :=
    fun hd => (Term.fits_ref.1 hd).1
  unfold decideSides
  split
  · trivial
  · rename_i hid
    split
    · rename_i a m b n
      split
      · rename_i holder
        refine ⟨hx, fun hs => huy hs b n rfl, fun d name he => ?_⟩
        cases he
        exact (h.isOlder_iff hl (hframe hx) (hframe hy)).1 holder
      · rename_i holder
        refine ⟨hy, fun hs => hux hs a m rfl, fun d name he => ?_⟩
        cases he
        refine Cell.before_trichotomy (fun he => hid ?_) fun hb => holder ?_
        · simp [Term.identical, he]
        · exact (h.isOlder_iff hl (hframe hx) (hframe hy)).2 hb
    · rename_i a m hno
      exact ⟨hy, fun hs => hux hs a m rfl, fun d name he => absurd he (hno d name)⟩
    · rename_i b n hno
      exact ⟨hx, fun hs => huy hs b n rfl, fun d name he => absurd he (hno d name)⟩
    · exact hy
    · exact hx
    · split
      · rename_i hcx hcy
        split
        · exact reads_between (reads_compound? hx hcx) (reads_compound? hy hcy)
        · trivial
      · trivial

/-- An equation that makes sense asks for nothing that is not there. -/
theorem decide_sound (h : fs.Sound strict) {age : Nat} (hl : fs.Laddered age) (hw : fs.Within)
    {e : Equation} (he : e.Reads strict fs) : (e.decide fs).Sound strict fs := by
  unfold decide
  split
  · trivial
  · refine decideSides_sound h hl (h.side_live he.left) (h.side_live he.right) ?_ ?_
    · rintro rfl d m hd
      exact h.side_unbound hw he.left hd
    · rintro rfl d m hd
      exact h.side_unbound hw he.right hd

end Equation

-- ================================================== tentative bindings

namespace Frames

/-- No slot holds a tentative value. -/
def Blank (fs : Frames) : Prop := ∀ {c s}, fs.slot? c = some s → s.scratch = none

/-- The arena after the cells were bound tentatively. -/
structure Tentative (strict : Bool) (fs fs' : Frames) (cells : List Cell) : Prop where
  made : fs'.made = fs.made
  reslots : fs.Reslots fs'
  other : ∀ {c}, c ∉ cells → fs'.slot? c = fs.slot? c
  bound : ∀ {c}, c ∈ cells → ∃ s t, fs.slot? c = some s ∧ fs'.slot? c = some ⟨s.value, some t⟩
    ∧ (strict = true → s.value = none)

theorem Tentative.refl (strict : Bool) (fs : Frames) : Tentative strict fs fs [] :=
  ⟨rfl, .refl fs, fun _ => rfl, fun hc => absurd hc List.not_mem_nil⟩

section

variable {strict : Bool} {fs fs' : Frames} {cells : List Cell}

theorem Tentative.bind (h : Tentative strict fs fs' cells) {cell : Cell} {s : Slot}
    (hs : fs'.slot? cell = some s) (hu : strict = true → Slot.shown true s = none)
    (value : Term) :
    Tentative strict fs (fs'.modifySlot cell fun s => { s with scratch := some value })
      (cell :: cells) := by
  refine ⟨h.made, h.reslots.trans (.modifySlot ..), fun hc => ?_, fun {c} hc => ?_⟩
  · rw [List.mem_cons, not_or] at hc
    rw [slot?_modifySlot_of_ne _ _ hc.1, h.other hc.2]
  · by_cases he : c = cell
    · subst he
      rw [slot?_modifySlot, hs]
      by_cases hmem : c ∈ cells
      · obtain ⟨s₀, t, hs₀, hs', hv⟩ := h.bound hmem
        rw [hs] at hs'
        cases hs'
        exact ⟨s₀, value, hs₀, rfl, hv⟩
      · exact ⟨s, value, by rw [← h.other hmem, hs], rfl, fun hst => value_of_shown (hu hst)⟩
    · rw [slot?_modifySlot_of_ne _ _ he]
      exact h.bound ((List.mem_cons.1 hc).resolve_left he)

/-- A value that is in order may be bound tentatively. -/
theorem Sound.bind (h : fs.Sound strict) (cell : Cell) {value : Term}
    (hv : value.Live (fs.world strict))
    (hd : ∀ d name, value = .ref d name → d.Before cell) :
    (fs.modifySlot cell fun s => { s with scratch := some value }).Sound strict := by
  refine h.of_reslots (.modifySlot ..) fun {c s t} hs ht => ?_
  rw [slot?_modifySlot_eq] at hs
  split at hs
  · rename_i hc
    obtain ⟨s₀, hs₀, rfl⟩ := Option.map_eq_some_iff.1 hs
    rcases ht with ht | ht
    · exact h.in_order hs₀ (.inl ht)
    · cases ht
      exact ⟨hv, hc ▸ hd⟩
  · exact h.in_order hs ht

-- ================================================== ending them

/-- The same change of several cells, one after the other. -/
theorem slot?_foldl_modifySlot (change : Slot → Slot) (fs : Frames) (cells : List Cell) (c : Cell) :
    (cells.foldl (fun fs cell => fs.modifySlot cell change) fs).slot? c
      = (fs.slot? c).map change^[cells.count c] := by
  induction cells generalizing fs with
  | nil => simp
  | cons d cells ih =>
    rw [List.foldl_cons, ih, slot?_modifySlot_eq, List.count_cons]
    by_cases hd : c = d
    · subst hd
      cases fs.slot? c <;> simp
    · simp [hd, Ne.symm hd]

theorem reslots_foldl_modifySlot (change : Slot → Slot) (fs : Frames) (cells : List Cell) :
    fs.Reslots (cells.foldl (fun fs cell => fs.modifySlot cell change) fs)
      ∧ (cells.foldl (fun fs cell => fs.modifySlot cell change) fs).made = fs.made := by
  induction cells generalizing fs with
  | nil => exact ⟨.refl fs, rfl⟩
  | cons d cells ih =>
    obtain ⟨hr, hm⟩ := ih (fs.modifySlot d change)
    exact ⟨(Reslots.modifySlot fs d change).trans hr, hm⟩

/-- A change that leaves no tentative value, made to the cells bound
tentatively, leaves none at all. -/
theorem Tentative.blank (h : Tentative strict fs fs' cells) (hb : fs.Blank)
    {change : Slot → Slot} (hchange : ∀ s, (change s).scratch = none) :
    (cells.foldl (fun fs cell => fs.modifySlot cell change) fs').Blank := by
  intro c s hs
  rw [slot?_foldl_modifySlot] at hs
  obtain ⟨s₀, hs₀, rfl⟩ := Option.map_eq_some_iff.1 hs
  by_cases hc : c ∈ cells
  · obtain ⟨n, hn⟩ := Nat.exists_eq_succ_of_ne_zero (List.count_pos_iff.2 hc).ne'
    rw [hn, Function.iterate_succ_apply']
    exact hchange _
  · rw [List.count_eq_zero_of_not_mem hc]
    rw [h.other hc] at hs₀
    exact hb hs₀

/-- A change that puts nothing new into slots keeps an arena sound. -/
theorem Sound.foldl_modifySlot (h : fs.Sound strict) (change : Slot → Slot)
    (hchange : ∀ s t, (change s).value = some t ∨ (change s).scratch = some t →
      s.value = some t ∨ s.scratch = some t) (cells : List Cell) :
    (cells.foldl (fun fs cell => fs.modifySlot cell change) fs).Sound strict := by
  have hiter : ∀ n s t, (change^[n] s).value = some t ∨ (change^[n] s).scratch = some t →
      s.value = some t ∨ s.scratch = some t := by
    intro n
    induction n with
    | zero => exact fun _ _ ht => ht
    | succ n ih =>
      intro s t ht
      rw [Function.iterate_succ_apply] at ht
      exact hchange s t (ih _ t ht)
  refine h.of_reslots (reslots_foldl_modifySlot ..).1 fun {c s t} hs ht => ?_
  rw [slot?_foldl_modifySlot] at hs
  obtain ⟨s₀, hs₀, rfl⟩ := Option.map_eq_some_iff.1 hs
  exact h.in_order hs₀ (hiter _ _ _ ht)

/-- Bindings made permanent bind just these cells. -/
theorem Tentative.commit (h : Tentative strict fs fs' cells) : Binds cells fs (fs'.commit cells) := by
  obtain ⟨hr, hm⟩ := reslots_foldl_modifySlot (fun s => ⟨s.scratch, none⟩) fs' cells
  refine ⟨hm.trans h.made, h.reslots.trans hr, fun c hc => ?_, fun {c} hc => ?_⟩
  · obtain ⟨s, t, hs, -⟩ := h.bound hc
    simp [hs]
  · rw [Frames.commit, slot?_foldl_modifySlot, List.count_eq_zero_of_not_mem hc, h.other hc]
    cases fs.slot? c <;> rfl

/-- In strict mode the cells were unbound. -/
theorem Tentative.unbound (h : Tentative strict fs fs' cells) (hb : fs.Blank)
    (hs : strict = true) : fs.Unbound cells := by
  intro c hc
  obtain ⟨s, t, hs₀, -, hv⟩ := h.bound hc
  rw [hs₀]
  cases s
  have hv := hv hs
  have hscratch := hb hs₀
  simp_all

/-- Bindings taken back leave nothing. -/
theorem Tentative.rollback (h : Tentative strict fs fs' cells) (hb : fs.Blank) :
    Binds [] fs (fs'.rollback cells) := by
  obtain ⟨hr, hm⟩ := reslots_foldl_modifySlot (fun s => { s with scratch := none }) fs' cells
  refine ⟨hm.trans h.made, h.reslots.trans hr, fun _ hc => absurd hc List.not_mem_nil,
    fun {c} _ => ?_⟩
  have hiter : ∀ n (s : Slot),
      ((fun s : Slot => { s with scratch := none })^[n + 1] s) = { s with scratch := none } := by
    intro n
    induction n with
    | zero => exact fun _ => rfl
    | succ n ih =>
      intro s
      rw [Function.iterate_succ_apply', ih]
  rw [Frames.rollback, slot?_foldl_modifySlot]
  by_cases hc : c ∈ cells
  · obtain ⟨n, hn⟩ := Nat.exists_eq_succ_of_ne_zero (List.count_pos_iff.2 hc).ne'
    obtain ⟨s, t, hs, hs', -⟩ := h.bound hc
    have hscratch := hb hs
    cases s
    rw [hn, hs', hs, Option.map_some, hiter]
    simp_all
  · rw [List.count_eq_zero_of_not_mem hc, h.other hc]
    cases fs.slot? c <;> rfl

theorem Sound.commit (h : fs.Sound strict) (cells : List Cell) :
    (fs.commit cells).Sound strict := by
  refine h.foldl_modifySlot (fun s => ⟨s.scratch, none⟩) (fun s t ht => ?_) cells
  rcases ht with ht | ht
  · exact .inr ht
  · cases ht

/-- A change of what slots hold neither makes nor loses a slot. -/
theorem Reslots.within (h : fs.Reslots fs') (hm : fs'.made = fs.made) (hw : fs.Within) :
    fs'.Within := by
  have hsame : fs'.frames.toList.map (·.slots.size) = fs.frames.toList.map (·.slots.size) := by
    refine List.ext_getElem? fun i => ?_
    rw [List.getElem?_map, List.getElem?_map, Array.getElem?_toList, Array.getElem?_toList]
    show (fs'.get? i).map _ = (fs.get? i).map _
    cases hf : fs.get? i with
    | some f =>
      obtain ⟨slots, hf', hs⟩ := h.frame hf
      rw [hf', Option.map_some, Option.map_some, Frame.slots_withSlots, hs]
    | none =>
      have hge : ¬ i < fs'.size := by
        rw [h.size, ← get?_isSome, hf]
        exact Bool.false_ne_true
      have hf' : fs'.get? i = none := by
        rw [← Option.not_isSome_iff_eq_none, get?_isSome]
        exact hge
      rw [hf']
  unfold Within total at *
  rw [hsame, hm]
  exact hw

theorem Binds.within (h : Binds cells fs fs') (hw : fs.Within) : fs'.Within :=
  h.reslots.within h.made hw

end

end Frames

end LogicMachine
