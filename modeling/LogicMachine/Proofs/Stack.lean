/-
The stack of choice points: what each operation does to the list of
points and to their trails.

Most operations leave the points themselves alone and only move trail
entries from points that go to the one that is on top afterwards, as far
as that one needs them. `Same` is what two versions of a point have in
common however the machine went on, `SameButTrail` what they have in
common if no alternative of the point was tried in between.
-/
import LogicMachine.Engine
import LogicMachine.Proofs.Arena

namespace LogicMachine

namespace ChoicePoint

/-- The same point; its alternatives and its trail may differ. -/
structure Same (p p' : ChoicePoint) : Prop where
  id : p'.id = p.id
  frame : p'.frame = p.frame
  ancestry : p'.ancestry = p.ancestry
  scope : p'.scope = p.scope
  mark : p'.mark = p.mark

/-- The same point with the same alternatives; its trail may differ. -/
def SameButTrail (p p' : ChoicePoint) : Prop := p' = { p with trail := p'.trail }

theorem Same.refl (p : ChoicePoint) : p.Same p := ⟨rfl, rfl, rfl, rfl, rfl⟩

theorem Same.trans {p p' p'' : ChoicePoint} (h : p.Same p') (h' : p'.Same p'') : p.Same p'' :=
  ⟨h'.id.trans h.id, h'.frame.trans h.frame, h'.ancestry.trans h.ancestry,
    h'.scope.trans h.scope, h'.mark.trans h.mark⟩

theorem SameButTrail.refl (p : ChoicePoint) : p.SameButTrail p := rfl

theorem SameButTrail.same {p p' : ChoicePoint} (h : p.SameButTrail p') : p.Same p' := by
  rw [h]
  exact ⟨rfl, rfl, rfl, rfl, rfl⟩

theorem SameButTrail.alternatives {p p' : ChoicePoint} (h : p.SameButTrail p') :
    p'.alternatives = p.alternatives := by
  rw [h]

theorem SameButTrail.trans {p p' p'' : ChoicePoint} (h : p.SameButTrail p')
    (h' : p'.SameButTrail p'') : p.SameButTrail p'' := by
  unfold SameButTrail at *
  rw [h', h]

/-- The point with the cells that it needs on its trail. -/
def trailing (fs : Frames) (cells : List Cell) (p : ChoicePoint) : ChoicePoint :=
  { p with trail := cells.filter (fun c => fs.ordinal c.frame ≤ p.ancestry) ++ p.trail }

theorem sameButTrail_trailing (fs : Frames) (cells : List Cell) (p : ChoicePoint) :
    p.SameButTrail (p.trailing fs cells) := rfl

theorem mem_trail_trailing {fs : Frames} {cells : List Cell} {p : ChoicePoint} {c : Cell} :
    c ∈ (p.trailing fs cells).trail
      ↔ (c ∈ cells ∧ fs.ordinal c.frame ≤ p.ancestry) ∨ c ∈ p.trail := by
  simp [trailing]

end ChoicePoint

/-- The cells on the trails of some points, the topmost point first. -/
def trails (points : List ChoicePoint) : List Cell := points.flatMap (·.trail)

@[simp] theorem mem_trails {points : List ChoicePoint} {c : Cell} :
    c ∈ trails points ↔ ∃ p ∈ points, c ∈ p.trail := by
  simp [trails]

/-- Whatever is on the right has its counterpart on the left. -/
theorem exists_left_of_forall₂ {α β : Type} {R : α → β → Prop} {l : List α} {l' : List β}
    (h : List.Forall₂ R l l') : ∀ b ∈ l', ∃ a ∈ l, R a b := by
  induction h with
  | nil => simp
  | cons hab _ ih =>
    intro b hb
    rcases List.mem_cons.1 hb with rfl | hb
    · exact ⟨_, List.mem_cons_self, hab⟩
    · obtain ⟨a, ha, hr⟩ := ih b hb
      exact ⟨a, List.mem_cons_of_mem _ ha, hr⟩

/-- The points of one stack are those of another, up to their trails. -/
abbrev SamePoints (l l' : List ChoicePoint) : Prop := List.Forall₂ ChoicePoint.SameButTrail l l'

theorem SamePoints.refl (l : List ChoicePoint) : SamePoints l l :=
  List.forall₂_same.2 fun p _ => .refl p

theorem SamePoints.trans {l l' l'' : List ChoicePoint} (h : SamePoints l l')
    (h' : SamePoints l' l'') : SamePoints l l'' := by
  induction h generalizing l'' with
  | nil => exact h'
  | cons hp _ ih =>
    cases h' with
    | cons hp' h' => exact .cons (hp.trans hp') (ih h')

namespace ChoiceStack

-- ================================================== recording

/-- Trail entries go to the topmost point, as far as it needs them. -/
theorem points_recordAll (fs : Frames) (cells : List Cell) (cs : ChoiceStack) :
    (cs.recordAll fs cells).points
      = match cs.points with
        | [] => []
        | top :: rest => top.trailing fs cells :: rest := by
  induction cells with
  | nil => cases h : cs.points <;> simp [recordAll, h, ChoicePoint.trailing]
  | cons c cells ih =>
    show (record fs c (cs.recordAll fs cells)).points = _
    unfold record
    cases h : cs.points with
    | nil =>
      rw [h] at ih
      simp [ih]
    | cons top rest =>
      rw [h] at ih
      rw [ih]
      simp only [ChoicePoint.record, ChoicePoint.trailing]
      by_cases hc : fs.ordinal c.frame ≤ top.ancestry <;> simp [hc]

@[simp] theorem serial_recordAll (fs : Frames) (cells : List Cell) (cs : ChoiceStack) :
    (cs.recordAll fs cells).serial = cs.serial := by
  induction cells with
  | nil => rfl
  | cons c cells ih =>
    show (record fs c (cs.recordAll fs cells)).serial = _
    unfold record
    split <;> exact ih

/-- Recording changes nothing but trails. -/
theorem samePoints_recordAll (fs : Frames) (cells : List Cell) (cs : ChoiceStack) :
    SamePoints cs.points (cs.recordAll fs cells).points := by
  rw [points_recordAll]
  cases cs.points with
  | nil => exact .nil
  | cons top rest => exact .cons (top.sameButTrail_trailing fs cells) (SamePoints.refl rest)

-- ================================================== cutting

/-- A cut takes points off the top and hands on all that they trailed. -/
theorem cutPoints_split (ancestry : Nat) (scope : Option (Nat × FrameId))
    (points : List ChoicePoint) (trail : List Cell) :
    ∃ gone, points = gone ++ (cutPoints ancestry scope points trail).1
      ∧ ∀ c, c ∈ (cutPoints ancestry scope points trail).2 ↔ c ∈ trail ∨ c ∈ trails gone := by
  fun_induction cutPoints with
  | case1 => exact ⟨[], rfl, by simp⟩
  | case2 => exact ⟨[], rfl, by simp⟩
  | case3 p rest trail =>
    refine ⟨[p], rfl, fun c => ?_⟩
    rw [List.mem_append, mem_trails]
    simp [or_comm]
  | case4 p rest trail _ _ _ ih =>
    obtain ⟨gone, hgone, hmem⟩ := ih
    refine ⟨p :: gone, by rw [List.cons_append, ← hgone], fun c => ?_⟩
    rw [hmem, List.mem_append, mem_trails, mem_trails]
    simp only [List.mem_cons, exists_eq_or_imp]
    tauto

/-- The points that are left by a cut are on the stack, up to their
trails. -/
theorem cut_split (cs : ChoiceStack) (fs : Frames) (ancestry : Nat)
    (scope : Option (Nat × FrameId)) :
    ∃ gone kept cells, cs.points = gone ++ kept ∧ (∀ c, c ∈ cells ↔ c ∈ trails gone)
      ∧ kept = (cutPoints ancestry scope cs.points []).1
      ∧ cs.cut fs ancestry scope = recordAll fs cells { cs with points := kept } := by
  obtain ⟨gone, hgone, hmem⟩ := cutPoints_split ancestry scope cs.points []
  exact ⟨gone, _, _, hgone, fun c => by simpa using hmem c, rfl, rfl⟩

@[simp] theorem serial_cut (cs : ChoiceStack) (fs : Frames) (ancestry : Nat)
    (scope : Option (Nat × FrameId)) : (cs.cut fs ancestry scope).serial = cs.serial := by
  unfold cut
  exact serial_recordAll _ _ _

-- ================================================== putting back, dropping

/-- Putting alternatives back changes the alternatives of at most the
point named. -/
theorem forall₂_restore (cs : ChoiceStack) (id : Nat) (alternatives : Alternatives) :
    List.Forall₂ (fun p p' => p' = p ∨ p.id = id ∧ p' = { p with alternatives := some alternatives })
      cs.points (cs.restore id alternatives).points := by
  show List.Forall₂ _ cs.points (restore.go id alternatives cs.points)
  induction cs.points with
  | nil => exact .nil
  | cons p rest ih =>
    unfold restore.go
    split
    · rename_i h
      exact .cons (.inr ⟨h, rfl⟩) (List.forall₂_same.2 fun q _ => .inl rfl)
    · exact .cons (.inl rfl) ih

/-- The stack after a point was dropped from its top, or as it was. -/
theorem dropTop_cases (cs : ChoiceStack) (fs : Frames) (id : Nat) :
    (∃ top rest, cs.points = top :: rest ∧ top.id = id
      ∧ cs.dropTop fs id = recordAll fs top.trail { cs with points := rest })
    ∨ cs.dropTop fs id = cs := by
  unfold dropTop
  cases h : cs.points with
  | nil => exact .inr rfl
  | cons top rest =>
    by_cases hid : top.id = id
    · exact .inl ⟨top, rest, rfl, hid, by simp [hid]⟩
    · exact .inr (by simp [hid])

-- ================================================== unwinding

/-- Unwinding undoes and removes all points down to the one named. -/
theorem unwindTo_split {cs cs' : ChoiceStack} {fs fs' : Frames} {id : Nat}
    (h : cs.unwindTo fs id = some (cs', fs')) :
    ∃ above p below, cs.points = above ++ p :: below ∧ p.id = id
      ∧ cs' = { cs with points := below }
      ∧ fs' = (fs.undo (trails (above ++ [p]))).truncate p.mark := by
  unfold unwindTo at h
  split at h
  · rename_i hany
    have hgo : ∀ (points : List ChoicePoint) (fs : Frames), points.any (·.id == id) = true →
        ∃ above p below, points = above ++ p :: below ∧ p.id = id
          ∧ unwindTo.go cs id points fs
            = ({ cs with points := below },
              (fs.undo (trails (above ++ [p]))).truncate p.mark) := by
      intro points
      induction points with
      | nil => intro _ hany; simp at hany
      | cons p rest ih =>
        intro fs hany
        by_cases hp : p.id = id
        · refine ⟨[], p, rest, rfl, hp, ?_⟩
          simp [unwindTo.go, hp, trails]
        · obtain ⟨above, q, below, hrest, hq, hgo⟩ := ih (fs.undo p.trail) (by simpa [hp] using hany)
          refine ⟨p :: above, q, below, by rw [hrest]; rfl, hq, ?_⟩
          rw [unwindTo.go, if_neg hp, hgo, ← Frames.undo_append]
          simp [trails]
    obtain ⟨above, p, below, hpoints, hp, hgo⟩ := hgo cs.points fs hany
    rw [hgo] at h
    cases h
    exact ⟨above, p, below, hpoints, hp, rfl, rfl⟩
  · cases h

end ChoiceStack

namespace Query

/-- Going back resumes the topmost point that has something left to try:
every point above it goes, and the trails of them all are undone. -/
theorem retreat_split {q q' : Query} {r : Resumption} (h : q.retreat = (some r, q')) :
    ∃ above p below, q.choices.points = above ++ p :: below ∧ p.id = r.id
      ∧ p.alternatives = some r.alternatives ∧ r.alternatives.hasNext = true
      ∧ (∀ a ∈ above, a.hasNext = false)
      ∧ q' = { q with
          choices :=
            { q.choices with points := { p with alternatives := none, trail := [] } :: below }
          frames := (q.frames.undo (trails (above ++ [p]))).truncate p.mark
          callee := p.frame
          ancestry := p.ancestry } := by
  have hgo : ∀ (points : List ChoicePoint) (fs : Frames),
      retreat.go q points fs = (some r, q') →
      ∃ above p below, points = above ++ p :: below ∧ p.id = r.id
        ∧ p.alternatives = some r.alternatives ∧ r.alternatives.hasNext = true
        ∧ (∀ a ∈ above, a.hasNext = false)
        ∧ q' = { q with
            choices :=
              { q.choices with points := { p with alternatives := none, trail := [] } :: below }
            frames := (fs.undo (trails (above ++ [p]))).truncate p.mark
            callee := p.frame
            ancestry := p.ancestry } := by
    intro points
    induction points with
    | nil => intro fs h; simp [retreat.go] at h
    | cons p rest ih =>
      intro fs h
      -- a point that has nothing left is undone and dropped
      have hskip : p.hasNext = false → retreat.go q rest (fs.undo p.trail) = (some r, q') →
          ∃ above p' below, p :: rest = above ++ p' :: below ∧ p'.id = r.id
            ∧ p'.alternatives = some r.alternatives ∧ r.alternatives.hasNext = true
            ∧ (∀ a ∈ above, a.hasNext = false)
            ∧ q' = { q with
                choices := { q.choices with
                  points := { p' with alternatives := none, trail := [] } :: below }
                frames := (fs.undo (trails (above ++ [p']))).truncate p'.mark
                callee := p'.frame
                ancestry := p'.ancestry } := by
        intro hp hrest
        obtain ⟨above, p', below, hpts, hid, halt, hnext, habove, hq'⟩ := ih _ hrest
        refine ⟨p :: above, p', below, by rw [hpts]; rfl, hid, halt, hnext, ?_, ?_⟩
        · intro a ha
          rcases List.mem_cons.1 ha with rfl | ha
          · exact hp
          · exact habove a ha
        · rw [hq', ← Frames.undo_append]
          simp [trails]
      rw [retreat.go] at h
      cases halt : p.alternatives with
      | none =>
        rw [halt] at h
        exact hskip (by simp [ChoicePoint.hasNext, halt]) h
      | some alternatives =>
        rw [halt] at h
        by_cases hnext : alternatives.hasNext = true
        · simp only [hnext, if_true] at h
          cases h
          exact ⟨[], p, rest, rfl, rfl, halt, hnext, by simp, by simp [trails]⟩
        · simp only [hnext] at h
          exact hskip (by simpa [ChoicePoint.hasNext, halt] using hnext) h
  exact hgo q.choices.points q.frames h

/-- Where no point has anything left, all are undone and dropped. -/
theorem retreat_none {q q' : Query} (h : q.retreat = (none, q')) :
    q' = { q with
      choices := { q.choices with points := [] }
      frames := q.frames.undo (trails q.choices.points) } := by
  have hgo : ∀ (points : List ChoicePoint) (fs : Frames), retreat.go q points fs = (none, q') →
      q' = { q with
        choices := { q.choices with points := [] }, frames := fs.undo (trails points) } := by
    intro points
    induction points with
    | nil =>
      intro fs h
      cases h
      rfl
    | cons p rest ih =>
      intro fs h
      have htrails : (fs.undo p.trail).undo (trails rest) = fs.undo (trails (p :: rest)) := by
        rw [← Frames.undo_append]
        simp [trails]
      rw [retreat.go] at h
      cases halt : p.alternatives with
      | none =>
        rw [halt] at h
        rw [ih _ h, htrails]
      | some alternatives =>
        rw [halt] at h
        by_cases hnext : alternatives.hasNext = true
        · simp [hnext] at h
        · simp only [hnext] at h
          rw [ih _ h, htrails]
  exact hgo q.choices.points q.frames h

end Query

end LogicMachine
