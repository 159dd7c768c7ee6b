/-
The barriers of guarded goals.

The frame of a guarded goal holds the number of the barrier that was left
when the goal was called. No binding overwrites that number and going back
puts nothing else in its place, so it names the same barrier whenever an
error is offered to the frame. The barrier was left over the frame, so
unwinding to it keeps the frame (`Moment.Pledged.lt_unwindTo`).
-/
import LogicMachine.Proofs.Saves

namespace LogicMachine

/-- The slots of an arena as far as barriers go: each frame of a guarded
goal holds the number of a point which, if it is on the stack, keeps the
frame. -/
def Frames.Pledged (fs : Frames) (serial : Nat) (points : List ChoicePoint) : Prop :=
  ∀ i f, fs.get? i = some f → f.procedure = some (.framed .guarded) →
    f.owner = i ∧ ∃ n s, fs.slot? ⟨i, Control.barrierSlot⟩ = some s
      ∧ s.value = some (.ofNat n) ∧ n ≤ serial ∧ ∀ p ∈ points, p.id = n → i < p.mark

namespace Frames.Pledged

variable {fs fs' : Frames} {serial serial' : Nat} {points points' : List ChoicePoint}

/-- Points may go, and come with new numbers. -/
theorem mono (h : fs.Pledged serial points) (hs : serial ≤ serial')
    (hp : ∀ p' ∈ points', (∃ p ∈ points, p.Same p') ∨ serial < p'.id) :
    fs.Pledged serial' points' := by
  intro i f hf hg
  obtain ⟨hown, n, s, hslot, hv, hn, hmark⟩ := h i f hf hg
  refine ⟨hown, n, s, hslot, hv, hn.trans hs, fun p' hp' hid => ?_⟩
  obtain ⟨p, hmem, hsame⟩ | hlt := hp p' hp'
  · rw [hsame.mark]
    exact hmark p hmem (hsame.id ▸ hid)
  · exact absurd hn (Nat.not_le.2 (hid ▸ hlt))

/-- The same frames, which hold the same barriers. -/
theorem of_slots (h : fs.Pledged serial points) (hh : fs.Heads fs')
    (hs : ∀ {c s v}, fs.slot? c = some s → s.value = some v → c.frame < fs'.size →
      fs'.slot? c = some s) : fs'.Pledged serial points := by
  intro i f' hf' hg
  obtain ⟨f, hf, slots, rfl⟩ := hh i f' hf'
  obtain ⟨hown, n, s, hslot, hv, hrest⟩ := h i f hf hg
  exact ⟨hown, n, s, hs hslot hv (lt_size_of_get? hf'), hv, hrest⟩

theorem restores (h : fs.Pledged serial points) (hr : fs.Restores fs') :
    fs'.Pledged serial points := by
  refine h.of_slots (fun i f' hf' => ?_) fun hs _ _ => hr.kept hs
  obtain ⟨f, hf⟩ := exists_get? (hr.size ▸ lt_size_of_get? hf')
  obtain ⟨n, hn⟩ := hr.frame hf
  rw [hf'] at hn
  exact ⟨f, hf, _, Option.some.inj hn⟩

end Frames.Pledged

/-- The barriers of a moment are in order, now and wherever a choice point
leads back to. -/
structure Moment.Pledged (x : Moment) : Prop where
  frames : x.query.frames.Pledged x.query.choices.serial x.query.choices.points
  saved : ∀ {p saved}, x.query.Saves p saved →
    saved.Pledged x.query.choices.serial x.query.choices.points

theorem pledged_start (entry : Clause) : Moment.Pledged ⟨Query.start entry, none⟩ := by
  refine ⟨fun i f hf hg => ?_, fun hs => absurd hs.mem List.not_mem_nil⟩
  simp only [Query.start, Frames.push, Frames.get?, Frames.size, Array.getElem?_push] at hf
  split at hf
  · cases hf
    cases hg
  · simp at hf

/-- Work leaves the barriers that there are. -/
theorem Work.pledged {q q' : Query} {serial : Nat} {points : List ChoicePoint}
    (h : Work true q q') (hq : q.frames.Pledged serial points) : q'.frames.Pledged serial points := by
  cases h with
  | bind cells hb hu =>
    refine hq.of_slots (.of_reslots hb.reslots) fun {c s v} hs hv _ => ?_
    have hc : c ∉ cells := fun hmem => by
      rw [hu rfl c hmem] at hs
      cases hs
      cases hv
    rw [hb.other hc, hs]
  | grow id count =>
    have hr : q.frames.Restores (q.frames.expand id count).1 :=
      ⟨Frames.size_expand .., fun {i f} hf =>
        Frames.RestoresBelow.expand (i + 1) q.frames id count i f (Nat.lt_succ_self i) hf⟩
    exact hq.restores hr
  | _ => exact hq

/-- A point on the stack after a move was there before, or has a new
number. -/
theorem Move.new_or_same {strict : Bool} {x y : Moment} (h : Move strict x y) {p' : ChoicePoint}
    (hp : p' ∈ y.query.choices.points) :
    (∃ p ∈ x.query.choices.points, p.Same p') ∨ x.query.choices.serial < p'.id :=
  (h.points_cases hp).imp_right fun hl : Leaves x y p' => hl.id ▸ Nat.lt_succ_self _

/-- Every move leaves the barriers that there are, or goes back to where
they were. -/
theorem Move.pledged_frames {x y : Moment} (h : Move true x y) (ho : x.Orderly) (hx : x.Pledged) :
    y.query.frames.Pledged y.query.choices.serial y.query.choices.points := by
  have hmono : ∀ {fs : Frames}, fs.Pledged x.query.choices.serial x.query.choices.points →
      fs.Pledged y.query.choices.serial y.query.choices.points := fun hfs =>
    hfs.mono h.serial_le fun p' hp' => h.new_or_same hp'
  cases h with
  | work h => exact hmono (h.pledged hx.frames)
  | enter procedure locals base code _ hp =>
    refine hmono fun i f hf hg => ?_
    rw [Frames.get?_push] at hf
    split at hf
    · cases hf
      exact absurd hg hp
    · obtain ⟨hown, n, s, hs, hrest⟩ := hx.frames i f hf hg
      refine ⟨hown, n, s, ?_, hrest⟩
      rw [Frames.slot?_eq, hf] at hs
      rw [Frames.slot?_eq]
      exact (congrArg (Option.bind · _)
        ((Frames.get?_push_of_lt _ _ _ _ _ _ (Frames.lt_size_of_get? hf)).trans hf)).trans hs
  | guard catcher handler code _ =>
    rename_i q fl _
    intro i f hf hg
    have hslot := Frames.slot?_eq ((q.guard catcher handler).holding code).frames
      ⟨i, Control.barrierSlot⟩
    rw [hf] at hslot
    rw [hslot]
    replace hf : (q.frames.pushGuarded ..).get? i = some f := hf
    rw [Frames.get?_pushGuarded] at hf
    split at hf
    · rename_i hi
      cases hf
      refine ⟨hi.symm, q.choices.serial + 1, _, rfl, rfl, le_rfl, fun p hp hid => ?_⟩
      rcases List.mem_cons.1 hp with rfl | hp
      · exact hi ▸ Nat.lt_succ_self _
      · exact absurd (ho.points.point p hp).id (Nat.not_le.2 (hid ▸ Nat.lt_succ_self _))
    · obtain ⟨hown, n, s, hs, hv, hn, hmark⟩ := hx.frames i f hf hg
      rw [Frames.slot?_eq, hf] at hs
      refine ⟨hown, n, s, hs, hv, hn.trans (Nat.le_succ _), fun p hp hid => ?_⟩
      rcases List.mem_cons.1 hp with rfl | hp
      · exact absurd hn (Nat.not_le.2 (hid ▸ Nat.lt_succ_self _))
      · exact hmark p hp hid
  | branch h =>
    obtain ⟨above, p, below, hpts, -, -, -, -, rfl⟩ := Query.retreat_split h
    exact hmono (hx.saved ⟨above, below, hpts, rfl⟩)
  | resume h _ =>
    obtain ⟨above, p, below, hpts, -, -, -, -, rfl⟩ := Query.retreat_split h
    exact hmono (hx.saved ⟨above, below, hpts, rfl⟩)
  | unwind _ _ _ h _ =>
    obtain ⟨above, p, below, hpts, -, rfl, rfl⟩ := ChoiceStack.unwindTo_split h
    exact hmono (hx.saved ⟨above, below, hpts, rfl⟩)
  | _ => exact hmono hx.frames

theorem Move.pledged {x y : Moment} (h : Move true x y) (ho : x.Orderly) (hx : x.Pledged) :
    y.Pledged := by
  refine ⟨h.pledged_frames ho hx, fun hs => ?_⟩
  obtain ⟨p, saved, hp, -, hr⟩ | hl := h.saves ho hs
  · exact ((hx.saved hp).restores hr).mono h.serial_le fun p' hp' => h.new_or_same hp'
  · exact (h.pledged_frames ho hx).restores (hl.restores (h.orderly ho) hs)

theorem Moves.pledged {x y : Moment} (h : Moves true x y) (ho : x.Orderly) (hx : x.Pledged) :
    y.Pledged := by
  induction h with
  | refl => exact hx
  | tail hxy hm ih => exact hm.pledged (Moves.orderly hxy ho) ih

/-- A number below 2 ^ 64 survives being kept as an integer. -/
theorem toNat_toUInt64_ofNat {n : Nat} (h : n < 2 ^ 64) : (Int64.ofNat n).toUInt64.toNat = n := by
  show (UInt64.ofNat n).toNat = n
  rw [UInt64.toNat_ofNat', Nat.mod_eq_of_lt h]

/-- Unwinding to the barrier of a guarded goal keeps its frame. -/
theorem Moment.Pledged.lt_unwindTo {x : Moment} (hx : x.Pledged) (ho : x.Orderly)
    (hserial : x.query.choices.serial < 2 ^ 64) {c : FrameId} {f : Frame}
    (hf : x.query.frames.get? c = some f) (hg : f.procedure = some (.framed .guarded))
    {barrier : Int64}
    (hb : x.query.frames.value? c Control.barrierSlot = some (.number (.int barrier)))
    {choices : ChoiceStack} {fs : Frames}
    (hu : x.query.choices.unwindTo x.query.frames barrier.toUInt64.toNat = some (choices, fs)) :
    c < fs.size := by
  obtain ⟨hown, n, s, hs, hv, hn, hmark⟩ := hx.frames c f hf hg
  have hbarrier : barrier.toUInt64.toNat = n := by
    rw [Frames.value?, Frames.owner_eq hf, hown, hs, Option.bind_some, hv] at hb
    cases hb
    exact toNat_toUInt64_ofNat (hn.trans_lt hserial)
  obtain ⟨above, p, below, hpts, hid, rfl, rfl⟩ := ChoiceStack.unwindTo_split hu
  obtain ⟨hsize, -, -⟩ := Moment.Orderly.back (q := x.query) ho.grounded hpts (trails (above ++ [p]))
  rw [hsize]
  exact hmark p (hpts ▸ by simp) (hid.trans hbarrier)

end LogicMachine
