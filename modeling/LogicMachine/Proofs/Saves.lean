/-
What a choice point saves.

Resuming a choice point undoes its own trail and those of all points above
it and cuts the arena back to its mark. The arena this leads to is what
the point saves. It is not stored anywhere, and almost every move changes
what it would be computed from: the frames, the trails and the points
above. The invariant is that the outcome stays the same all the while,
except that frames may end up with more unbound slots (`Move.saves`). Since
a point that is just left saves the arena of that moment, going back to it
at any later time restores that arena (`Moves.retreat_restores`).

What carries the proof is that no two entries of the trails need to be
told apart: an undone cell is an unbound cell, so that only membership in
the trails matters, and below the mark of a point only the cells of frames
no younger than the point, which are the ones that it trails.
-/
import LogicMachine.Proofs.Moves

namespace LogicMachine

/-- The arena `saved` is what resuming the point `p` leads to. -/
def Saves (fs : Frames) (points : List ChoicePoint) (p : ChoicePoint) (saved : Frames) : Prop :=
  ∃ above below, points = above ++ p :: below
    ∧ saved = (fs.undo (trails (above ++ [p]))).truncate p.mark

/-- What a point of a query saves. -/
abbrev Query.Saves (q : Query) (p : ChoicePoint) (saved : Frames) : Prop :=
  LogicMachine.Saves q.frames q.choices.points p saved

section

variable {fs fs' saved : Frames} {points points' : List ChoicePoint} {p top top' : ChoicePoint}

theorem Saves.mem (h : Saves fs points p saved) : p ∈ points := by
  obtain ⟨above, below, h, -⟩ := h
  rw [h]
  simp

/-- The topmost point comes first; the others are reached through it. -/
theorem saves_cons :
    Saves fs (top :: points) p saved
      ↔ (p = top ∧ saved = (fs.undo top.trail).truncate top.mark)
        ∨ Saves (fs.undo top.trail) points p saved := by
  constructor
  · rintro ⟨above, below, hpts, rfl⟩
    cases above with
    | nil =>
      cases hpts
      exact .inl ⟨rfl, by simp [trails]⟩
    | cons a above =>
      cases hpts
      exact .inr ⟨above, below, rfl, by simp [trails, Frames.undo_append]⟩
  · rintro (⟨rfl, rfl⟩ | ⟨above, below, rfl, rfl⟩)
    · exact ⟨[], points, rfl, by simp [trails]⟩
    · exact ⟨top :: above, below, rfl, by simp [trails, Frames.undo_append]⟩

/-- Points on top that are gone were undone on the way. -/
theorem saves_append {gone : List ChoicePoint} (h : Saves (fs.undo (trails gone)) points p saved) :
    Saves fs (gone ++ points) p saved := by
  obtain ⟨above, below, rfl, rfl⟩ := h
  refine ⟨gone ++ above, below, by simp, ?_⟩
  simp [trails, Frames.undo_append]

/-- A change of the arena that keeps all that the points keep shows in
nothing they save. -/
theorem Saves.of_restoresBelow (h : Saves fs' points p saved)
    (hb : ∀ q ∈ points, Frames.RestoresBelow q.mark fs fs')
    (hm : ∀ q ∈ points, 0 < q.mark ∧ q.mark ≤ fs.size ∧ q.mark ≤ fs'.size) :
    ∃ saved₀, Saves fs points p saved₀ ∧ saved₀.Restores saved := by
  have hp := h.mem
  obtain ⟨above, below, hpts, rfl⟩ := h
  refine ⟨_, ⟨above, below, hpts, rfl⟩, ?_⟩
  obtain ⟨hpos, hle, hle'⟩ := hm p hp
  exact ((hb p hp).undo fun _ _ => Iff.rfl).restores_truncate hpos (by simpa using hle)
    (by simpa using hle')

/-- A new topmost point that, once undone, leaves the arena that the old
one did. -/
theorem Saves.handover (h : Saves fs' (top' :: points) p saved) (hs : top.Same top')
    (hb : Frames.RestoresBelow top.mark (fs.undo top.trail) (fs'.undo top'.trail))
    (hpos : ∀ q ∈ top :: points, 0 < q.mark ∧ q.mark ≤ top.mark)
    (hle : top.mark ≤ fs.size) (hle' : top.mark ≤ fs'.size) :
    ∃ p₀ saved₀, Saves fs (top :: points) p₀ saved₀ ∧ p₀.Same p ∧ saved₀.Restores saved := by
  obtain ⟨rfl, rfl⟩ | h := saves_cons.1 h
  · refine ⟨top, _, saves_cons.2 (.inl ⟨rfl, rfl⟩), hs, ?_⟩
    rw [hs.mark]
    exact hb.restores_truncate (hpos top List.mem_cons_self).1 (by simpa using hle)
      (by simpa using hle')
  · have hq : ∀ q ∈ points, 0 < q.mark ∧ q.mark ≤ top.mark :=
      fun q hq => hpos q (List.mem_cons_of_mem _ hq)
    obtain ⟨saved₀, hs₀, hres⟩ := h.of_restoresBelow (fun q hmem => hb.mono (hq q hmem).2)
      fun q hmem => ⟨(hq q hmem).1, by simpa using (hq q hmem).2.trans hle,
        by simpa using (hq q hmem).2.trans hle'⟩
    exact ⟨p, saved₀, saves_cons.2 (.inr hs₀), .refl p, hres⟩

/-- Alternatives have no part in what is saved. -/
theorem Saves.of_alternatives (h : Saves fs points' p saved)
    (hp : List.Forall₂ (fun a b : ChoicePoint => a.Same b ∧ b.trail = a.trail) points points') :
    ∃ p₀, Saves fs points p₀ saved ∧ p₀.Same p := by
  induction hp generalizing fs with
  | nil => exact absurd h.mem List.not_mem_nil
  | cons hab _ ih =>
    obtain ⟨hs, ht⟩ := hab
    obtain ⟨rfl, rfl⟩ | h := saves_cons.1 h
    · exact ⟨_, saves_cons.2 (.inl ⟨rfl, by rw [ht, hs.mark]⟩), hs⟩
    · rw [ht] at h
      obtain ⟨p₀, h₀, hs₀⟩ := ih h
      exact ⟨p₀, saves_cons.2 (.inr h₀), hs₀⟩

end

-- ================================================== one move

namespace Stacked

variable {fs : Frames} {age serial : Nat} {points : List ChoicePoint}

/-- What the points on top trailed goes to the next one: that changes
nothing of what is saved below. -/
theorem saves_handedOn {gone : List ChoicePoint} {cells : List Cell} {p : ChoicePoint}
    {saved : Frames} {cs : ChoiceStack} (h : Stacked fs age serial (gone ++ points))
    (hc : ∀ c, c ∈ cells ↔ c ∈ trails gone) (hcs : cs.points = points)
    (hs : Saves fs (cs.recordAll fs cells).points p saved) :
    ∃ p₀ saved₀, Saves fs (gone ++ points) p₀ saved₀ ∧ p₀.Same p ∧ saved₀.Restores saved := by
  rw [ChoiceStack.points_recordAll, hcs] at hs
  cases points with
  | nil => exact absurd hs.mem List.not_mem_nil
  | cons top rest =>
    have hst := h.suffix
    have hle := (hst.point top List.mem_cons_self).mark
    have hb : Frames.RestoresBelow top.mark ((fs.undo (trails gone)).undo top.trail)
        (fs.undo (top.trailing fs cells).trail) := by
      rw [← Frames.undo_append]
      refine (Frames.RestoresBelow.refl top.mark fs).undo fun c hlt => ?_
      rw [List.mem_append, ChoicePoint.mem_trail_trailing, hc]
      have := hst.ordinal_le List.mem_cons_self hlt
      tauto
    obtain ⟨p₀, saved₀, hs₀, hsame, hres⟩ := hs.handover
      (ChoicePoint.sameButTrail_trailing fs cells top).same hb hst.marks (by simpa using hle) hle
    exact ⟨p₀, saved₀, saves_append hs₀, hsame, hres⟩

end Stacked

/-- The point was left by the move from `x` to `y`, on top of the points
there were. -/
structure Leaves (x y : Moment) (p : ChoicePoint) : Prop where
  points : y.query.choices.points = p :: x.query.choices.points
  id : p.id = x.query.choices.serial + 1
  serial : y.query.choices.serial = x.query.choices.serial + 1
  mark : p.mark = y.query.frames.size
  trail : p.trail = []

/-- A point that was just left saves the arena as it is. -/
theorem Leaves.restores {x y : Moment} {p : ChoicePoint} (h : Leaves x y p) (hy : y.Orderly)
    {saved : Frames} (hs : y.query.Saves p saved) : y.query.frames.Restores saved := by
  have hst := hy.points
  rw [h.points] at hst
  have hs : Saves y.query.frames (p :: x.query.choices.points) p saved := h.points ▸ hs
  have hsame : saved = y.query.frames.truncate p.mark := by
    obtain ⟨-, rfl⟩ | hs := saves_cons.1 hs
    · rw [h.trail, Frames.undo_nil]
    · exact absurd (List.rel_of_pairwise_cons hst.ordered hs.mem).1 (lt_irrefl _)
  have hpos := hst.mark_pos List.mem_cons_self
  have hsize : saved.size = y.query.frames.size := by
    rw [hsame, Frames.size_truncate, Nat.max_eq_left hpos, h.mark, Nat.min_self]
  refine ⟨hsize, fun {i f} hf => ⟨0, ?_⟩⟩
  rw [hsame, Frames.get?_truncate_of_lt _ (h.mark ▸ Frames.lt_size_of_get? hf), hf]
  simp

/-- Whoever is on the stack after some work of a built-in was there before,
or was just left. -/
theorem Work.points_cases {strict : Bool} {q q' : Query} {fl : Option Resumption}
    (h : Work strict q q') {p' : ChoicePoint} (hp : p' ∈ q'.choices.points) :
    (∃ p ∈ q.choices.points, p.Same p') ∨ Leaves ⟨q, fl⟩ ⟨q', fl⟩ p' := by
  cases h with
  | bind cells _ _ =>
    obtain ⟨p, hp, hs⟩ := exists_left_of_forall₂ (ChoiceStack.samePoints_recordAll ..) p' hp
    exact .inl ⟨p, hp, hs.same⟩
  | grow _ _ => exact .inl ⟨p', hp, .refl p'⟩
  | point _ _ _ =>
    rcases List.mem_cons.1 hp with rfl | hp
    · exact .inr ⟨rfl, rfl, rfl, rfl, rfl⟩
    · exact .inl ⟨p', hp, .refl p'⟩
  | collect _ => exact .inl ⟨p', hp, .refl p'⟩

/-- Putting alternatives back leaves every point the same. -/
theorem same_settle {q : Query} {id : Nat} {alternatives : Alternatives} {p' : ChoicePoint}
    (hp : p' ∈ (q.settle id alternatives).choices.points) :
    ∃ p ∈ q.choices.points, p.Same p' := by
  have hrestore := q.choices.forall₂_restore id alternatives
  have hmem : ∀ b ∈ (q.choices.restore id alternatives).points, ∃ p ∈ q.choices.points, p.Same b := by
    intro b hb
    obtain ⟨p, hp, rfl | ⟨-, rfl⟩⟩ := exists_left_of_forall₂ hrestore b hb
    · exact ⟨_, hp, .refl _⟩
    · exact ⟨p, hp, rfl, rfl, rfl, rfl, rfl⟩
  unfold Query.settle at hp
  dsimp only at hp
  split at hp
  · exact hmem p' hp
  · obtain ⟨top, rest, hpts, -, hdrop⟩ | hdrop :=
      (q.choices.restore id alternatives).dropTop_cases q.frames id
    · rw [hdrop] at hp
      obtain ⟨b, hb, hs⟩ := exists_left_of_forall₂ (ChoiceStack.samePoints_recordAll ..) p' hp
      obtain ⟨p, hp, hs'⟩ := hmem b (hpts ▸ List.mem_cons_of_mem _ hb)
      exact ⟨p, hp, hs'.trans hs.same⟩
    · rw [hdrop] at hp
      exact hmem p' hp

/-- Going back keeps no point but those there were. -/
theorem same_retreat {q q' : Query} {r : Resumption} (h : q.retreat = (some r, q'))
    {p' : ChoicePoint} (hp : p' ∈ q'.choices.points) : ∃ p ∈ q.choices.points, p.Same p' := by
  obtain ⟨above, p, below, hpts, -, -, -, -, rfl⟩ := Query.retreat_split h
  rcases List.mem_cons.1 hp with rfl | hp
  · exact ⟨p, hpts ▸ by simp, rfl, rfl, rfl, rfl, rfl⟩
  · exact ⟨p', hpts ▸ by simp [hp], .refl p'⟩

/-- Whoever is on the stack after a move was there before, or was left by
it. -/
theorem Move.points_cases {strict : Bool} {x y : Moment} (h : Move strict x y) {p' : ChoicePoint}
    (hp : p' ∈ y.query.choices.points) :
    (∃ p ∈ x.query.choices.points, p.Same p') ∨ Leaves x y p' := by
  cases h with
  | work h => exact h.points_cases hp
  | choose _ =>
    rcases List.mem_cons.1 hp with rfl | hp
    · exact .inr ⟨rfl, rfl, rfl, rfl, rfl⟩
    · exact .inl ⟨p', hp, .refl p'⟩
  | select _ _ =>
    rcases List.mem_cons.1 hp with rfl | hp
    · exact .inr ⟨rfl, rfl, rfl, rfl, rfl⟩
    · exact .inl ⟨p', hp, .refl p'⟩
  | guard _ _ _ _ =>
    rcases List.mem_cons.1 hp with rfl | hp
    · exact .inr ⟨rfl, rfl, rfl, (Frames.size_pushGuarded ..).symm, rfl⟩
    · exact .inl ⟨p', hp, .refl p'⟩
  | cut _ =>
    rename_i q scope next _
    obtain ⟨gone, kept, cells, hpts, -, -, hcut⟩ :=
      q.choices.cut_split q.frames (q.frames.ancestry q.callee) (scope.map (·, q.callee))
    replace hp : p' ∈ (q.choices.cut _ _ _).points := hp
    rw [hcut] at hp
    obtain ⟨p, hp, hs⟩ := exists_left_of_forall₂ (ChoiceStack.samePoints_recordAll ..) p' hp
    exact .inl ⟨p, hpts ▸ List.mem_append_right _ hp, hs.same⟩
  | branch h =>
    obtain ⟨b, hb, hs⟩ := same_settle hp
    obtain ⟨p, hp, hs'⟩ := same_retreat h hb
    exact .inl ⟨p, hp, hs'.trans hs⟩
  | resume h _ => exact .inl (same_retreat h hp)
  | settle => exact .inl (same_settle hp)
  | unwind _ _ _ h _ =>
    obtain ⟨above, p, below, hpts, -, rfl, rfl⟩ := ChoiceStack.unwindTo_split h
    refine .inl ⟨p', ?_, .refl p'⟩
    rw [hpts]
    exact List.mem_append_right _ (List.mem_cons_of_mem _ hp)
  | _ => exact .inl ⟨p', hp, .refl p'⟩

/-- Putting alternatives back changes nothing of what is saved. -/
theorem Moment.Orderly.saves_settle {q : Query} {r : Resumption}
    (ho : Moment.Orderly ⟨q, some r⟩) {p' : ChoicePoint} {saved' : Frames}
    (hs : (q.settle r.id r.alternatives).Saves p' saved') :
    ∃ p saved, q.Saves p saved ∧ p.Same p' ∧ saved.Restores saved' := by
  have hrestore : List.Forall₂ (fun a b : ChoicePoint => a.Same b ∧ b.trail = a.trail)
      q.choices.points (q.choices.restore r.id r.alternatives).points := by
    refine (q.choices.forall₂_restore r.id r.alternatives).imp fun a b hab => ?_
    rcases hab with rfl | ⟨-, rfl⟩
    · exact ⟨.refl _, rfl⟩
    · exact ⟨⟨rfl, rfl, rfl, rfl, rfl⟩, rfl⟩
  have hback : ∀ {p : ChoicePoint} {saved : Frames},
      LogicMachine.Saves q.frames (q.choices.restore r.id r.alternatives).points p saved →
      ∃ p₀, q.Saves p₀ saved ∧ p₀.Same p := fun h => h.of_alternatives hrestore
  unfold Query.settle at hs
  dsimp only [Query.Saves] at hs
  split at hs
  · obtain ⟨p₀, h₀, hsame⟩ := hback hs
    exact ⟨p₀, saved', h₀, hsame, .refl _⟩
  · obtain ⟨top, rest, hpts, -, hdrop⟩ | hdrop :=
      (q.choices.restore r.id r.alternatives).dropTop_cases q.frames r.id
    · have hst := ho.restored
      rw [hpts] at hst hback
      have hst : Stacked q.frames q.ancestry q.choices.serial ([top] ++ rest) := hst
      rw [hdrop] at hs
      obtain ⟨p₁, saved₁, h₁, hsame₁, hres⟩ := hst.saves_handedOn (by simp [trails]) rfl hs
      obtain ⟨p₀, h₀, hsame⟩ := hback h₁
      exact ⟨p₀, saved₁, h₀, hsame.trans hsame₁, hres⟩
    · rw [hdrop] at hs
      obtain ⟨p₀, h₀, hsame⟩ := hback hs
      exact ⟨p₀, saved', h₀, hsame, .refl _⟩

namespace Moment.Orderly

variable {q : Query} {fl : Option Resumption} {fs : Frames} {p' : ChoicePoint} {saved' : Frames}

/-- The same points over an arena that keeps what they keep. -/
theorem saves_of_restoresBelow (ho : Moment.Orderly ⟨q, fl⟩)
    (hb : ∀ p ∈ q.choices.points, Frames.RestoresBelow p.mark q.frames fs)
    (hm : ∀ p ∈ q.choices.points, p.mark ≤ fs.size)
    (hs : LogicMachine.Saves fs q.choices.points p' saved') :
    ∃ p saved, q.Saves p saved ∧ p.Same p' ∧ saved.Restores saved' := by
  obtain ⟨saved, h, hres⟩ := hs.of_restoresBelow hb fun p hmem =>
    ⟨ho.points.mark_pos hmem, (ho.points.point p hmem).mark, hm p hmem⟩
  exact ⟨p', saved, h, .refl p', hres⟩

/-- Bindings of unbound cells are undone again. -/
theorem saves_bind {cells : List Cell} (ho : Moment.Orderly ⟨q, fl⟩)
    (hb : Frames.Binds cells q.frames fs) (hu : q.frames.Unbound cells)
    (hs : LogicMachine.Saves fs (q.choices.recordAll fs cells).points p' saved') :
    ∃ p saved, q.Saves p saved ∧ p.Same p' ∧ saved.Restores saved' := by
  rw [ChoiceStack.points_recordAll] at hs
  have hst := ho.points
  unfold Query.Saves
  cases hpts : q.choices.points with
  | nil =>
    rw [hpts] at hs
    exact absurd hs.mem List.not_mem_nil
  | cons top rest =>
    rw [hpts] at hs
    simp only [hpts] at hst
    have hmem : top ∈ top :: rest := List.mem_cons_self
    refine hs.handover (ChoicePoint.sameButTrail_trailing fs cells top).same
      (hb.undo hu fun c hlt => ?_) hst.marks (hst.point top hmem).mark
      (hb.reslots.size.symm ▸ (hst.point top hmem).mark)
    rw [ChoicePoint.mem_trail_trailing]
    have hold := hst.ordinal_le hmem hlt
    have hsame : fs.ordinal c.frame = q.frames.ordinal c.frame := by
      obtain ⟨f, hf⟩ := Frames.exists_get? (hlt.trans_le (hst.point top hmem).mark)
      obtain ⟨slots, hf', -⟩ := hb.reslots.frame hf
      rw [Frames.ordinal_eq hf, Frames.ordinal_eq hf', Frame.ordinal_withSlots]
    rw [hsame]
    tauto

/-- Going back changes nothing of what is saved by the points it keeps. -/
theorem saves_retreat {q' : Query} {r : Resumption} (ho : Moment.Orderly ⟨q, none⟩)
    (h : q.retreat = (some r, q')) (hs : q'.Saves p' saved') :
    ∃ p saved, q.Saves p saved ∧ p.Same p' ∧ saved.Restores saved' := by
  obtain ⟨above, p, below, hpts, -, -, -, -, rfl⟩ := Query.retreat_split h
  obtain ⟨hsize, -, hst⟩ := ho.back hpts (trails (above ++ [p]))
  have hmark := (ho.points.point p (hpts ▸ by simp)).mark
  have hb : Frames.RestoresBelow p.mark ((q.frames.undo (trails above)).undo p.trail)
      (((q.frames.undo (trails (above ++ [p]))).truncate p.mark).undo []) := by
    have htrails : trails above ++ p.trail = trails (above ++ [p]) := by simp [trails]
    rw [← Frames.undo_append, htrails]
    exact .truncate _ _ le_rfl
  have htop : p.Same { p with alternatives := none, trail := [] } := ⟨rfl, rfl, rfl, rfl, rfl⟩
  obtain ⟨p₀, saved₀, hs₀, hsame, hres⟩ := Saves.handover hs htop hb hst.marks
    (by simpa using hmark) hsize.ge
  refine ⟨p₀, saved₀, ?_, hsame, hres⟩
  unfold Query.Saves
  rw [hpts]
  exact saves_append hs₀

end Moment.Orderly

/-- What a point saves stays the same under the work of a built-in. -/
theorem Work.saves {q q' : Query} {fl : Option Resumption} (h : Work true q q')
    (ho : Moment.Orderly ⟨q, fl⟩) {p' : ChoicePoint} {saved' : Frames}
    (hs : q'.Saves p' saved') :
    (∃ p saved, q.Saves p saved ∧ p.Same p' ∧ saved.Restores saved')
      ∨ Leaves ⟨q, fl⟩ ⟨q', fl⟩ p' := by
  cases h with
  | bind cells hb hu => exact .inl (ho.saves_bind hb (hu rfl) hs)
  | grow id count =>
    refine .inl (ho.saves_of_restoresBelow (fun p _ => .expand _ _ _ _) (fun p hp => ?_) hs)
    exact (ho.points.point p hp).mark.trans (Frames.size_expand ..).ge
  | point alternatives _ _ =>
    obtain ⟨rfl, -⟩ | hs := saves_cons.1 hs
    · exact .inr ⟨rfl, rfl, rfl, rfl, rfl⟩
    · exact .inl ⟨p', saved', hs, .refl p', .refl saved'⟩
  | collect _ => exact .inl ⟨p', saved', hs, .refl p', .refl saved'⟩

/-- What a point saves stays the same under every move, for as long as the
point is there. -/
theorem Move.saves {x y : Moment} (h : Move true x y) (ho : x.Orderly) {p' : ChoicePoint}
    {saved' : Frames} (hs : y.query.Saves p' saved') :
    (∃ p saved, x.query.Saves p saved ∧ p.Same p' ∧ saved.Restores saved') ∨ Leaves x y p' := by
  cases h with
  | work h => exact h.saves ho hs
  | choose _ =>
    obtain ⟨rfl, -⟩ | hs := saves_cons.1 hs
    · exact .inr ⟨rfl, rfl, rfl, rfl, rfl⟩
    · exact .inl ⟨p', saved', hs, .refl p', .refl saved'⟩
  | select _ _ =>
    obtain ⟨rfl, -⟩ | hs := saves_cons.1 hs
    · exact .inr ⟨rfl, rfl, rfl, rfl, rfl⟩
    · exact .inl ⟨p', saved', hs, .refl p', .refl saved'⟩
  | cut _ =>
    rename_i q scope next _
    obtain ⟨gone, kept, cells, hpts, hcells, -, hcut⟩ :=
      q.choices.cut_split q.frames (q.frames.ancestry q.callee) (scope.map (·, q.callee))
    have hst := ho.points
    rw [hpts] at hst
    have hs : LogicMachine.Saves q.frames
        (ChoiceStack.recordAll q.frames cells { q.choices with points := kept }).points p' saved' :=
      hcut ▸ hs
    unfold Query.Saves
    rw [hpts]
    exact .inl (hst.saves_handedOn hcells rfl hs)
  | enter procedure locals base code _ _ =>
    refine .inl (ho.saves_of_restoresBelow (fun p hp => ?_) (fun p hp => ?_) hs)
    · exact .push (ho.points.point p hp).mark _ _ _ _ _ _
    · exact (ho.points.point p hp).mark.trans (by simp)
  | guard catcher handler code _ =>
    obtain ⟨rfl, -⟩ | hs := saves_cons.1 hs
    · exact .inr ⟨rfl, rfl, rfl, (Frames.size_pushGuarded ..).symm, rfl⟩
    · refine .inl (ho.saves_of_restoresBelow (fun p hp => ?_) (fun p hp => ?_) hs)
      · exact Frames.restoresBelow_pushGuarded _ _ _ _ _ _ _ (ho.points.point p hp).mark
      · exact (ho.points.point p hp).mark.trans
          ((Nat.le_succ _).trans (Frames.size_pushGuarded ..).ge)
  | branch h =>
    rename_i q q' id code rest
    have hback : Moment.Orderly ⟨q', some ⟨id, .branches rest⟩⟩ := ho.retreat h fun _ => trivial
    obtain ⟨p₁, saved₁, h₁, hsame₁, hres₁⟩ := hback.saves_settle hs
    obtain ⟨p₀, saved₀, h₀, hsame₀, hres₀⟩ := ho.saves_retreat h h₁
    exact .inl ⟨p₀, saved₀, h₀, hsame₀.trans hsame₁, hres₀.trans hres₁⟩
  | resume h _ => exact .inl (ho.saves_retreat h hs)
  | settle => exact .inl (ho.saves_settle hs)
  | unwind _ _ _ h _ =>
    rename_i q c c' id choices frames _ _ _ _
    obtain ⟨above, p, below, hpts, -, rfl, rfl⟩ := ChoiceStack.unwindTo_split h
    obtain ⟨hsize, -, hst⟩ := ho.back hpts (trails (above ++ [p]))
    have hmark := (ho.points.point p (hpts ▸ by simp)).mark
    have hle : ∀ b ∈ below, 0 < b.mark ∧ b.mark ≤ p.mark :=
      fun b hb => hst.marks b (List.mem_cons_of_mem _ hb)
    obtain ⟨saved₀, hs₀, hres⟩ := Saves.of_restoresBelow hs
      (fun b hb => .truncate (q.frames.undo (trails (above ++ [p]))) p.mark (hle b hb).2)
      fun b hb => ⟨(hle b hb).1, by simpa using (hle b hb).2.trans hmark,
        (hle b hb).2.trans hsize.ge⟩
    refine .inl ⟨p', saved₀, ?_, .refl p', hres⟩
    have happ : above ++ p :: below = (above ++ [p]) ++ below := by simp
    show LogicMachine.Saves _ _ _ _
    rw [hpts, happ]
    exact saves_append hs₀
  | _ => exact .inl ⟨p', saved', hs, .refl p', .refl saved'⟩

-- ================================================== a run

theorem serial_settle (q : Query) (id : Nat) (alternatives : Alternatives) :
    (q.settle id alternatives).choices.serial = q.choices.serial := by
  unfold Query.settle
  dsimp only
  split
  · rfl
  · obtain ⟨top, rest, -, -, hdrop⟩ | hdrop :=
      (q.choices.restore id alternatives).dropTop_cases q.frames id
    · rw [hdrop]
      exact ChoiceStack.serial_recordAll ..
    · rw [hdrop]
      rfl

/-- No number is given to two points. -/
theorem Move.serial_le {strict : Bool} {x y : Moment} (h : Move strict x y) :
    x.query.choices.serial ≤ y.query.choices.serial := by
  cases h with
  | work h =>
    cases h with
    | bind _ _ _ => exact (ChoiceStack.serial_recordAll ..).ge
    | point _ _ _ => exact Nat.le_succ _
    | _ => exact le_rfl
  | choose _ => exact Nat.le_succ _
  | select _ _ => exact Nat.le_succ _
  | guard _ _ _ _ => exact Nat.le_succ _
  | cut _ => exact (ChoiceStack.serial_cut ..).ge
  | branch h =>
    rename_i q q' id code rest
    have hsettle := serial_settle q' id (.branches rest)
    obtain ⟨_, _, _, -, -, -, -, -, rfl⟩ := Query.retreat_split h
    exact hsettle.ge
  | resume h _ =>
    obtain ⟨_, _, _, -, -, -, -, -, rfl⟩ := Query.retreat_split h
    exact le_rfl
  | settle => exact (serial_settle ..).ge
  | unwind _ _ _ h _ =>
    obtain ⟨_, _, _, -, -, rfl, rfl⟩ := ChoiceStack.unwindTo_split h
    exact le_rfl
  | _ => exact le_rfl

theorem Moves.serial_le {strict : Bool} {x y : Moment} (h : Moves strict x y) :
    x.query.choices.serial ≤ y.query.choices.serial := by
  induction h with
  | refl => exact le_rfl
  | tail _ hm ih => exact ih.trans hm.serial_le

/-- A point that was there before is the same point with the same saved
arena, whatever the moves between. -/
theorem Moves.saves {x y : Moment} (h : Moves true x y) (ho : x.Orderly) {p' : ChoicePoint}
    {saved' : Frames} (hs : y.query.Saves p' saved') (hid : p'.id ≤ x.query.choices.serial) :
    ∃ p saved, x.query.Saves p saved ∧ p.Same p' ∧ saved.Restores saved' := by
  induction h generalizing p' saved' with
  | refl => exact ⟨p', saved', hs, .refl p', .refl saved'⟩
  | tail hxy hm ih =>
    obtain ⟨p, saved, hp, hsame, hres⟩ | hnew := hm.saves (Moves.orderly hxy ho) hs
    · obtain ⟨p₀, saved₀, h₀, hsame₀, hres₀⟩ := ih hp (hsame.id ▸ hid)
      exact ⟨p₀, saved₀, h₀, hsame₀.trans hsame, hres₀.trans hres⟩
    · have := Moves.serial_le hxy
      have := hnew.id
      omega

/-- Going back to a point restores the arena of the moment at which it was
left. -/
theorem Moves.retreat_restores {a b : Moment} {q q' : Query} {p : ChoicePoint} {r : Resumption}
    (ha : a.Orderly) (hab : Move true a b) (hl : Leaves a b p) (hb : Moves true b ⟨q, none⟩)
    (hr : q.retreat = (some r, q')) (hid : r.id = p.id) :
    q'.frames.size = p.mark ∧ b.query.frames.Restores q'.frames := by
  have hbo := hab.orderly ha
  obtain ⟨above, p', below, hpts, hid', -, -, -, rfl⟩ := Query.retreat_split hr
  have hs : q.Saves p' ((q.frames.undo (trails (above ++ [p']))).truncate p'.mark) :=
    ⟨above, below, hpts, rfl⟩
  have hle : p'.id ≤ b.query.choices.serial := by
    rw [hid', hid, hl.id, hl.serial]
  obtain ⟨p₀, saved, hs₀, hsame, hres⟩ := Moves.saves hb hbo hs hle
  have hp₀ : p₀ = p := by
    refine hbo.points.eq_of_id hs₀.mem (hl.points ▸ List.mem_cons_self) ?_
    rw [← hsame.id, hid', hid]
  subst hp₀
  have hall := (hl.restores hbo hs₀).trans hres
  exact ⟨hl.mark ▸ hall.size, hall⟩

end LogicMachine
