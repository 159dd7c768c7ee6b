/-
Sound queries.

What holds of a query at all times, on top of its being orderly: its arena
is sound; each choice point offers only what can be read in the frames
that it keeps; and so does every value in these frames that resuming the
point leaves in place. A value that names a younger frame is allowed, as
long as it is on a trail that would be undone.

The last part is said of the stack from the top down, with the cells that
are already undone when a point is reached (`Kept`). Undoing is about
membership in trails alone, so that handing trail entries from a point to
the next one is seen to keep it (`Kept.recorded`).
-/
import LogicMachine.Proofs.Copying

namespace LogicMachine

-- ================================================== alternatives that fit

namespace Alternatives

/-- All that the alternatives mention fits, the slots of the frame of their
point being `vars`. The terms on offer may have bare variables. -/
def Fits (w : World) (vars : Nat → Prop) : Alternatives → Prop
  | .branches rest => ∀ c ∈ rest, c.Fits w vars
  | .rows snapshot _ args next _ _ =>
    (∀ row ∈ snapshot, row.procedure.Fits .none) ∧ (∀ a ∈ args, a.Fits w vars) ∧ next.Fits w vars
  | .collected _ target => target.Live w
  | .once left right => left.Live w ∧ right.Live w
  | .barrier => True
  | .candidates items target => (∀ i ∈ items, i.Fits w anyVars) ∧ target.Live w
  | .range _ _ target => target.Live w
  | .substrings _ _ _ _ target => target.Live w
  | .matching _ snapshot _ pattern _ =>
    (∀ row ∈ snapshot, row.procedure.Fits .none) ∧ pattern.Live w

/-- No term on offer has a bare variable. -/
def Paired : Alternatives → Prop
  | .candidates items _ => ∀ i ∈ items, i.Fits .all fun _ => False
  | _ => True

end Alternatives

/-- What a trial mentions fits. -/
def Trial.Fits (w : World) (vars : Nat → Prop) : Trial → Prop
  | .code c => c.Fits w vars
  | .row procedure args _ next _ =>
    procedure.Fits .none ∧ (∀ a ∈ args, a.Fits w vars) ∧ next.Fits w vars
  | .deliver _ target => target.Live w
  | .unify left right => left.Live w ∧ right.Live w
  | .candidate left right => left.Live w ∧ right.Fits w anyVars
  | .clause _ stored pattern _ => stored.procedure.Fits .none ∧ pattern.Live w

/-- The term that a trial takes from an offer has no bare variable. -/
def Trial.Paired : Trial → Prop
  | .candidate _ right => right.Fits .all fun _ => False
  | _ => True

namespace Alternatives

variable {w w' : World} {vars vars' : Nat → Prop} {a rest : Alternatives} {trial : Trial}

theorem Fits.mono (h : a.Fits w vars) (hw : w.Le w') (hv : ∀ i, vars i → vars' i) :
    a.Fits w' vars' := by
  cases a with
  | branches rest => exact fun c hc => (h c hc).mono hw hv
  | rows snapshot index args next caller revision =>
    exact ⟨h.1, fun a ha => (h.2.1 a ha).mono hw hv, h.2.2.mono hw hv⟩
  | collected _ target => exact Term.Fits.mono hw hw.raw h
  | once left right => exact ⟨h.1.mono hw hw.raw, h.2.mono hw hw.raw⟩
  | barrier => trivial
  | candidates items target =>
    exact ⟨fun i hi => (h.1 i hi).mono hw fun _ hi => hi, h.2.mono hw hw.raw⟩
  | range _ _ target => exact Term.Fits.mono hw hw.raw h
  | substrings _ _ _ _ target => exact Term.Fits.mono hw hw.raw h
  | matching _ _ _ pattern _ => exact ⟨h.1, h.2.mono hw hw.raw⟩

theorem fits_part (text : Array Char) (start stop : Nat) : (part text start stop).Fits w vars :=
  Term.fits_compound.2 ⟨fun _ => rfl, by simp⟩

/-- What is tried and what is left fit as the alternatives did. -/
theorem Fits.next? (h : a.Fits w vars) (hn : a.next? = some (trial, rest)) :
    trial.Fits w vars ∧ rest.Fits w vars := by
  cases a with
  | branches codes =>
    cases codes with
    | nil => cases hn
    | cons c codes =>
      cases hn
      exact ⟨h c List.mem_cons_self, fun c' hc' => h c' (List.mem_cons_of_mem _ hc')⟩
  | rows snapshot index args next caller revision =>
    simp only [Alternatives.next?] at hn
    split at hn
    · rename_i row hrow
      cases hn
      exact ⟨⟨h.1 row (Array.mem_of_getElem? hrow), h.2⟩, h⟩
    · cases hn
  | collected _ target =>
    cases hn
    exact ⟨h, trivial⟩
  | once left right =>
    cases hn
    exact ⟨h, trivial⟩
  | barrier => cases hn
  | candidates items target =>
    cases items with
    | nil => cases hn
    | cons i items =>
      cases hn
      exact ⟨⟨h.2, h.1 i List.mem_cons_self⟩, fun i' hi' => h.1 i' (List.mem_cons_of_mem _ hi'), h.2⟩
  | range next high target =>
    cases next with
    | none => cases hn
    | some n =>
      simp only [Alternatives.next?] at hn
      split at hn
      · cases hn
        exact ⟨⟨h, Term.fits_int⟩, h⟩
      · cases hn
  | substrings text start stop length target =>
    simp only [Alternatives.next?] at hn
    split at hn
    · cases hn
      exact ⟨⟨h, fits_part text start stop⟩, h⟩
    · cases hn
  | matching predicate snapshot index pattern remove =>
    simp only [Alternatives.next?] at hn
    split at hn
    · rename_i row hrow
      cases hn
      exact ⟨⟨h.1 row (Array.mem_of_getElem? hrow), h.2⟩, h⟩
    · cases hn

theorem Paired.next? (h : a.Paired) (hn : a.next? = some (trial, rest)) :
    trial.Paired ∧ rest.Paired := by
  cases a with
  | candidates items target =>
    cases items with
    | nil => cases hn
    | cons i items =>
      cases hn
      exact ⟨h i List.mem_cons_self, fun i' hi' => h i' (List.mem_cons_of_mem _ hi')⟩
  | substrings text start stop length target =>
    simp only [Alternatives.next?] at hn
    split at hn
    · cases hn
      exact ⟨fits_part text start stop, trivial⟩
    · cases hn
  | range next high target =>
    cases next with
    | none => cases hn
    | some n =>
      simp only [Alternatives.next?] at hn
      split at hn
      · cases hn
        exact ⟨trivial, trivial⟩
      · cases hn
  | branches codes =>
    cases codes <;> cases hn
    exact ⟨trivial, trivial⟩
  | rows snapshot index args next caller revision =>
    simp only [Alternatives.next?] at hn
    split at hn <;> cases hn
    exact ⟨trivial, trivial⟩
  | matching predicate snapshot index pattern remove =>
    simp only [Alternatives.next?] at hn
    split at hn <;> cases hn
    exact ⟨trivial, trivial⟩
  | barrier => cases hn
  | collected _ _ | once _ _ =>
    cases hn
    exact ⟨trivial, trivial⟩

end Alternatives

-- ================================================== values that stay

/-- Every value that resuming a point leaves in place names only what the
point keeps; `gone` are the cells undone before the topmost point is
reached. -/
def Kept (strict : Bool) (fs : Frames) : (gone : Cell → Prop) → List ChoicePoint → Prop
  | _, [] => True
  | gone, p :: rest =>
    (∀ c s t, c.frame < p.mark → ¬ gone c → c ∉ p.trail → fs.slot? c = some s →
        s.value = some t ∨ s.scratch = some t → t.Live (fs.reach strict p.mark))
      ∧ Kept strict fs (fun c => gone c ∨ c ∈ p.trail) rest

namespace Kept

variable {strict : Bool} {fs fs' : Frames} {gone gone' : Cell → Prop} {points : List ChoicePoint}

/-- The points below some points, which are undone first. -/
theorem suffix {above : List ChoicePoint} (h : Kept strict fs gone (above ++ points)) :
    Kept strict fs (fun c => gone c ∨ c ∈ trails above) points := by
  induction above generalizing gone with
  | nil => simpa [trails] using h
  | cons a above ih =>
    have h := ih h.2
    have heq : (fun c => (gone c ∨ c ∈ a.trail) ∨ c ∈ trails above)
        = fun c => gone c ∨ c ∈ trails (a :: above) := by
      funext c
      simp [trails, or_assoc]
    rwa [heq] at h

/-- Another arena in which, below the marks, the slots that are not undone
hold what they held. -/
theorem transport (h : Kept strict fs gone points)
    (hle : ∀ p ∈ points, (fs.reach strict p.mark).Le (fs'.reach strict p.mark))
    (hc : ∀ p ∈ points, ∀ c s t, c.frame < p.mark → ¬ gone' c → fs'.slot? c = some s →
      s.value = some t ∨ s.scratch = some t →
        ¬ gone c ∧ ∃ s₀, fs.slot? c = some s₀ ∧ (s₀.value = some t ∨ s₀.scratch = some t)) :
    Kept strict fs' gone' points := by
  induction points generalizing gone gone' with
  | nil => trivial
  | cons p rest ih =>
    obtain ⟨htop, hrest⟩ := h
    refine ⟨fun c s t hlt hg ht hs hv => ?_, ih hrest (fun q hq => hle q (List.mem_cons_of_mem _ hq))
      fun q hq c s t hlt hg hs hv => ?_⟩
    · obtain ⟨hg₀, s₀, hs₀, hv₀⟩ := hc p List.mem_cons_self c s t hlt hg hs hv
      exact (htop c s₀ t hlt hg₀ ht hs₀ hv₀).mono (hle p List.mem_cons_self) fun _ hr => hr
    · rw [not_or] at hg
      obtain ⟨hg₀, hold⟩ := hc q (List.mem_cons_of_mem _ hq) c s t hlt hg.1 hs hv
      exact ⟨not_or.2 ⟨hg₀, hg.2⟩, hold⟩

/-- Cells that go to the trail of the topmost point need not be undone
before it. -/
theorem recorded {cells : List Cell} {cs : ChoiceStack}
    (h : Kept strict fs (fun c => gone c ∨ c ∈ cells) cs.points)
    (hord : ∀ p ∈ cs.points, ∀ i < p.mark, fs.ordinal i ≤ p.ancestry)
    (hmark : cs.points.Pairwise fun p p' => p'.mark ≤ p.mark) :
    Kept strict fs gone (cs.recordAll fs cells).points := by
  rw [ChoiceStack.points_recordAll]
  cases hpts : cs.points with
  | nil => trivial
  | cons top rest =>
    rw [hpts] at h hord hmark
    obtain ⟨htop, hrest⟩ := h
    have hkeeps : ∀ {c : Cell}, c.frame < top.mark → c ∉ (top.trailing fs cells).trail →
        c ∉ cells ∧ c ∉ top.trail := by
      intro c hlt hc
      rw [ChoicePoint.mem_trail_trailing, not_or, not_and] at hc
      exact ⟨fun hmem => hc.1 hmem (hord top List.mem_cons_self _ hlt), hc.2⟩
    refine ⟨fun c s t hlt hg hc hs hv => ?_, hrest.transport (fun _ _ => .refl _)
      fun q hq c s t hlt hg hs hv => ?_⟩
    · obtain ⟨hc, htrail⟩ := hkeeps hlt hc
      exact htop c s t hlt (not_or.2 ⟨hg, hc⟩) htrail hs hv
    · rw [not_or] at hg
      have hq' := hlt.trans_le (List.rel_of_pairwise_cons hmark hq)
      obtain ⟨hc, htrail⟩ := hkeeps hq' hg.2
      exact ⟨not_or.2 ⟨not_or.2 ⟨hg.1, hc⟩, htrail⟩, s, hs, hv⟩

/-- Alternatives do not matter. -/
theorem congr {points' : List ChoicePoint} (h : Kept strict fs gone points)
    (hp : List.Forall₂ (fun a b : ChoicePoint => a.Same b ∧ b.trail = a.trail) points points') :
    Kept strict fs gone points' := by
  induction hp generalizing gone with
  | nil => trivial
  | cons hab _ ih =>
    obtain ⟨hs, ht⟩ := hab
    unfold Kept
    rw [hs.mark, ht]
    exact ⟨h.1, ih h.2⟩

end Kept

/-- The stack stands on the arena: what its points keep and what they offer
can be read there. -/
structure Standing (strict : Bool) (fs : Frames) (points : List ChoicePoint) : Prop where
  kept : Kept strict fs (fun _ => False) points
  offers : ∀ p ∈ points, ∀ a, p.alternatives = some a →
    a.Fits (fs.reach strict p.mark) ((fs.reach strict p.mark).slotsOf (fs.owner p.frame))

namespace Standing

variable {strict : Bool} {fs fs' : Frames} {points points' : List ChoicePoint}

/-- Offers stay readable in an arena that grows. -/
theorem offers_grow (h : Standing strict fs points) (hg : fs.Grows fs')
    (hlive : ∀ p ∈ points, p.frame < fs.size)
    (hp : ∀ p' ∈ points', ∃ p ∈ points, p.Same p'
      ∧ (∀ a, p'.alternatives = some a → p.alternatives = some a)) :
    ∀ p ∈ points', ∀ a, p.alternatives = some a →
      a.Fits (fs'.reach strict p.mark) ((fs'.reach strict p.mark).slotsOf (fs'.owner p.frame)) := by
  intro p' hp' a ha
  obtain ⟨p, hmem, hs, hsame⟩ := hp p' hp'
  rw [hs.frame, hs.mark, hg.owner (hlive p hmem)]
  exact (h.offers p hmem a (hsame a ha)).mono hg.reach_le fun i hi => hg.reach_le.cell _ hi

/-- The arena grows, and no point keeps what changed. -/
theorem grow (h : Standing strict fs points) (hg : fs.Grows fs')
    (hlive : ∀ p ∈ points, p.frame < fs.size)
    (hc : ∀ p ∈ points, ∀ c s t, c.frame < p.mark → fs'.slot? c = some s →
      s.value = some t ∨ s.scratch = some t →
        ∃ s₀, fs.slot? c = some s₀ ∧ (s₀.value = some t ∨ s₀.scratch = some t)) :
    Standing strict fs' points :=
  ⟨h.kept.transport (fun _ _ => hg.reach_le) fun p hp c s t hlt hg hs hv =>
      ⟨hg, hc p hp c s t hlt hs hv⟩,
    h.offers_grow hg hlive fun p hp => ⟨p, hp, .refl p, fun _ ha => ha⟩⟩

/-- A point that was just left, over a sound arena. -/
theorem push (h : Standing strict fs points) (hs : fs.Sound strict) {p : ChoicePoint}
    (hm : p.mark = fs.size) (ht : p.trail = [])
    (ha : ∀ a, p.alternatives = some a →
      a.Fits (fs.world strict) ((fs.world strict).slotsOf (fs.owner p.frame))) :
    Standing strict fs (p :: points) := by
  refine ⟨⟨fun c s t _ _ _ hslot hv => ?_, h.kept.transport (fun _ _ => .refl _)
    fun q _ c s t _ hg hslot hv => ?_⟩, fun q hq a hqa => ?_⟩
  · rw [hm]
    exact hs.value hslot hv
  · exact ⟨fun hf => hf, s, hslot, hv⟩
  · rcases List.mem_cons.1 hq with rfl | hq
    · rw [hm]
      exact ha a hqa
    · exact h.offers q hq a hqa

/-- Without a topmost point that trails nothing. -/
theorem tail {p : ChoicePoint} (h : Standing strict fs (p :: points)) (ht : p.trail = []) :
    Standing strict fs points := by
  refine ⟨h.kept.2.transport (fun _ _ => .refl _) fun q _ c s t _ _ hs hv => ⟨?_, s, hs, hv⟩,
    fun q hq => h.offers q (List.mem_cons_of_mem _ hq)⟩
  rw [ht]
  exact fun hf => hf.elim id List.not_mem_nil

/-- Points on top are removed and their trails handed on. -/
theorem handedOn {gone : List ChoicePoint} {cells : List Cell} {cs : ChoiceStack} {age serial : Nat}
    (h : Standing strict fs (gone ++ cs.points)) (hst : Stacked fs age serial (gone ++ cs.points))
    (hcells : ∀ c, c ∈ cells ↔ c ∈ trails gone) :
    Standing strict fs (cs.recordAll fs cells).points := by
  have hsuffix := hst.suffix
  refine ⟨Kept.recorded ?_ (fun p hp i hi => hsuffix.ordinal_le hp hi)
    (hsuffix.ordered.imp fun hp => hp.2.1), ?_⟩
  · have heq : (fun c => False ∨ c ∈ cells) = fun c => False ∨ c ∈ trails gone := by
      funext c
      rw [hcells]
    rw [heq]
    exact h.kept.suffix
  · intro p' hp' a ha
    obtain ⟨p, hp, hs⟩ := exists_left_of_forall₂ (cs.samePoints_recordAll fs cells) p' hp'
    rw [hs.same.frame, hs.same.mark]
    exact h.offers p (List.mem_append_right _ hp) a (hs.alternatives ▸ ha)

end Standing

-- ================================================== sound queries

/-- What holds of a query at all times. -/
structure Query.Sound (strict : Bool) (q : Query) : Prop where
  orderly : Moment.Orderly ⟨q, none⟩
  arena : q.frames.Sound strict
  within : q.frames.Within
  blank : q.frames.Blank
  pending : q.pending = []
  collectors : ∀ l ∈ q.collectors, ∀ t ∈ l, t.Fits .none anyVars
  standing : Standing strict q.frames q.choices.points

/-- The query is sound, or would be if another of its frames were running,
which in a strict run is never so. -/
def Query.Rests (strict : Bool) (q : Query) : Prop :=
  ∃ c, Query.Sound strict { q with callee := c } ∧ (strict = true → c = q.callee)

theorem Query.Sound.rests {strict : Bool} {q : Query} (h : q.Sound strict) : q.Rests strict :=
  ⟨q.callee, h, fun _ => rfl⟩

theorem Query.Rests.sound {q : Query} (h : q.Rests true) : q.Sound true := by
  obtain ⟨c, hsound, hc⟩ := h
  rw [hc rfl] at hsound
  exact hsound

namespace Query.Sound

variable {strict : Bool} {q : Query}

theorem frame_lt (h : q.Sound strict) {p : ChoicePoint} (hp : p ∈ q.choices.points) :
    p.frame < q.frames.size :=
  (h.orderly.points.point p hp).frame.trans_le (h.orderly.points.point p hp).mark

/-- The frame that is running uses slots that are there. -/
theorem frame_owner (h : q.Sound strict) {f : FrameId} (hf : f < q.frames.size) :
    (q.frames.world strict).frame (q.frames.owner f) := by
  obtain ⟨g, hg⟩ := Frames.exists_get? hf
  obtain ⟨-, -, e, he, heo, -⟩ := h.arena.owned hg
  rw [Frames.owner_eq hg]
  exact ⟨Frames.lt_size_of_get? he, Frames.lt_size_of_get? he, (Frames.owner_eq he).trans heo⟩

/-- The root frame is there and uses its own slots. -/
theorem frame_root (h : q.Sound strict) : (q.frames.world strict).frame Query.root := by
  have hlive : Query.root < q.frames.size := (Nat.zero_le _).trans_lt h.orderly.live
  obtain ⟨f, hf⟩ := Frames.exists_get? hlive
  have hown : f.owner = Query.root := Nat.le_zero.1 (h.arena.owned hf).1
  exact ⟨hlive, hlive, (Frames.owner_eq hf).trans hown⟩

/-- Any frame that is there may run, whatever code. -/
theorem goto (h : q.Sound strict) {c : FrameId} (hc : c < q.frames.size) (code : Code) :
    Query.Sound strict { q with next := code, callee := c } :=
  { h with orderly := h.orderly.goto hc code }

/-- Bindings that are in order. -/
theorem bind (h : q.Sound strict) {cells : List Cell} {fs : Frames}
    (hb : Frames.Binds cells q.frames fs) (hu : strict = true → q.frames.Unbound cells)
    (hs : fs.Sound strict) (hblank : fs.Blank) :
    Query.Sound strict { q with frames := fs, choices := q.choices.recordAll fs cells } := by
  have hst := h.orderly.points
  refine ⟨(Work.bind cells hb hu).orderly h.orderly, hs, hb.within h.within, hblank, h.pending,
    h.collectors, Kept.recorded ?_ (fun p hp i hi => ?_) (hst.ordered.imp fun hp => hp.2.1), ?_⟩
  · refine h.standing.kept.transport (fun _ _ => hb.reslots.grows.reach_le)
      fun p _ c s t _ hc hslot hv => ⟨fun hf => hf, s, ?_, hv⟩
    rw [← hb.other fun hmem => hc (.inr hmem), hslot]
  · rw [hb.reslots.ordinal]
    exact hst.ordinal_le hp hi
  · refine h.standing.offers_grow hb.reslots.grows (fun p hp => h.frame_lt hp) fun p' hp' => ?_
    obtain ⟨p, hp, hsame⟩ :=
      exists_left_of_forall₂ (q.choices.samePoints_recordAll fs cells) p' hp'
    exact ⟨p, hp, hsame.same, fun a ha => hsame.alternatives ▸ ha⟩

/-- More unbound slots. -/
theorem grow (h : q.Sound strict) (id : FrameId) (count : Nat) :
    Query.Sound strict { q with frames := (q.frames.expand id count).1 } := by
  have hslot : ∀ {c s}, ((q.frames.expand id count).1).slot? c = some s →
      q.frames.slot? c = some s ∨ s = {} := by
    intro c s hs
    have hres : q.frames.Restores (q.frames.expand id count).1 :=
      ⟨Frames.size_expand .., fun {i f} hf =>
        Frames.RestoresBelow.expand (i + 1) q.frames id count i f (Nat.lt_succ_self i) hf⟩
    cases hc : q.frames.slot? c with
    | none => exact .inr (hres.unbound hs hc)
    | some s₀ =>
      rw [hres.kept hc] at hs
      exact .inl hs
  refine ⟨(Work.grow id count : Work strict _ _).orderly h.orderly, h.arena.expand id count,
    Frames.within_expand h.within id count, fun {c s} hs => ?_, h.pending, h.collectors,
    h.standing.grow (.expand ..) (fun p hp => h.frame_lt hp) fun p _ c s t _ hs hv => ?_⟩
  · obtain hs | rfl := hslot hs
    · exact h.blank hs
    · rfl
  · obtain hs | rfl := hslot hs
    · exact ⟨s, hs, hv⟩
    · simp at hv

/-- A point is left, over alternatives that are in order. -/
theorem point (h : q.Sound strict) {p : ChoicePoint} {age serial : Nat}
    (hm : p.mark = q.frames.size) (ht : p.trail = [])
    (ha : ∀ a, p.alternatives = some a →
      a.Fits (q.frames.world strict) ((q.frames.world strict).slotsOf (q.frames.owner p.frame)))
    (ho : Moment.Orderly
      ⟨{ q with choices := ⟨p :: q.choices.points, serial⟩, ancestry := age }, none⟩) :
    Query.Sound strict { q with choices := ⟨p :: q.choices.points, serial⟩, ancestry := age } :=
  { h with
    orderly := ho
    standing := h.standing.push h.arena hm ht ha }

/-- A value is kept in the frame that was just entered. -/
theorem keep (h : q.Sound strict) {slot : Nat} {value : Term}
    (hown : q.frames.owner q.callee = q.callee) (hopen : ∀ p ∈ q.choices.points, p.mark ≤ q.callee)
    (hv : value.Live (q.frames.world strict))
    (hd : ∀ d name, value = .ref d name → d.Before ⟨q.callee, slot⟩) :
    Query.Sound strict { q with frames := q.frames.setValue q.callee slot value } := by
  have hslot : ∀ {c s}, (q.frames.setValue q.callee slot value).slot? c = some s →
      (c = ⟨q.callee, slot⟩ ∧ s = ⟨some value, none⟩) ∨ q.frames.slot? c = some s := by
    intro c s hs
    rw [Frames.setValue, Frames.slot?_modifySlot_eq, hown] at hs
    split at hs
    · rename_i hc
      obtain ⟨s₀, -, rfl⟩ := Option.map_eq_some_iff.1 hs
      exact .inl ⟨hc, rfl⟩
    · exact .inr hs
  have hr : q.frames.Reslots (q.frames.setValue q.callee slot value) := .modifySlot ..
  refine ⟨h.orderly.reslot (.of_reslots hr) hr.size rfl rfl rfl (.refl _),
    h.arena.of_reslots hr fun {c s t} hs ht => ?_, Frames.within_modifySlot h.within _ _,
    fun {c s} hs => ?_, h.pending, h.collectors,
    h.standing.grow hr.grows (fun p hp => h.frame_lt hp) fun p hp c s t hlt hs ht => ?_⟩
  · obtain ⟨rfl, rfl⟩ | hs := hslot hs
    · rcases ht with ht | ht
      · cases ht
        exact ⟨hv, hd⟩
      · cases ht
    · exact h.arena.in_order hs ht
  · obtain ⟨-, rfl⟩ | hs := hslot hs
    · rfl
    · exact h.blank hs
  · obtain ⟨rfl, -⟩ | hs := hslot hs
    · exact absurd (hlt.trans_le (hopen p hp)) (lt_irrefl _)
    · exact ⟨s, hs, ht⟩

/-- A frame is entered. -/
theorem enter (h : q.Sound strict) (hf : q.Fresh) {next : Code}
    (hn : next.Fits (q.frames.world strict)
      ((q.frames.world strict).slotsOf (q.frames.owner q.callee)))
    (procedure : Option Procedure) (locals : Nat) {base : Option FrameId}
    (hb : ∀ b ∈ base, (q.frames.world strict).frame b) :
    Query.Sound strict { q with
      frames := (q.frames.push q.ancestry (some q.callee) next procedure locals base).1
      callee := q.frames.size } := by
  have hlive := h.orderly.live
  have hslot : ∀ {c s}, ((q.frames.push q.ancestry (some q.callee) next procedure locals base).1).slot? c
      = some s → s = {} ∨ c.frame < q.frames.size ∧ q.frames.slot? c = some s := by
    intro c s hs
    rw [Frames.slot?_eq, Frames.get?_push] at hs
    split at hs
    · left
      cases base with
      | none =>
        simp only [Option.bind_some, Frames.entered, Array.getElem?_replicate] at hs
        split at hs
        · exact (Option.some.inj hs).symm
        · cases hs
      | some b => simp [Frames.entered] at hs
    · rw [← Frames.slot?_eq] at hs
      exact .inr ⟨Frames.lt_size_of_slot? hs, hs⟩
  have hentered : Moment.Orderly ⟨{ q.holding next with
      frames := (q.frames.push q.ancestry (some q.callee) next procedure locals base).1
      callee := q.frames.size }, none⟩ :=
    (h.orderly.goto hlive next).enter ⟨hf.frames, hf.scopes⟩ procedure locals base
  refine ⟨hentered.goto hentered.live q.next, h.arena.push q.ancestry hlive hn _ _ hb,
    Frames.within_push h.within .., fun {c s} hs => ?_, h.pending, h.collectors,
    h.standing.grow (.push ..) (fun p hp => h.frame_lt hp) fun p _ c s t _ hs hv => ?_⟩
  · obtain rfl | ⟨-, hs⟩ := hslot hs
    · rfl
    · exact h.blank hs
  · obtain rfl | ⟨-, hs⟩ := hslot hs
    · simp at hv
    · exact ⟨s, hs, hv⟩

-- ================================================== going back

/-- The arena, cut back to a point of the stack, and what stands on it. -/
theorem back (h : q.Sound strict) {above below : List ChoicePoint} {p : ChoicePoint} {fs : Frames}
    (hpts : q.choices.points = above ++ p :: below)
    (hfs : fs = (q.frames.undo (trails (above ++ [p]))).truncate p.mark) :
    fs.Sound strict ∧ fs.Within ∧ fs.Blank
      ∧ Standing strict fs ({ p with alternatives := none, trail := [] } :: below)
      ∧ ∀ a, p.alternatives = some a →
        a.Fits (fs.world strict) ((fs.world strict).slotsOf (fs.owner p.frame)) := by
  have hst := h.orderly.points
  rw [hpts] at hst
  have hst : Stacked q.frames q.ancestry q.choices.serial (p :: below) := hst.suffix
  have hpt := hst.point p List.mem_cons_self
  have hpos := hst.mark_pos List.mem_cons_self
  have hkept := h.standing.kept
  rw [hpts] at hkept
  obtain ⟨htop, hbelow⟩ := hkept.suffix
  have hmem : ∀ {c : Cell}, c ∉ trails (above ++ [p]) ↔ c ∉ trails above ∧ c ∉ p.trail := by
    intro c
    simp [trails]
  have hslot : ∀ {c s t}, fs.slot? c = some s → s.value = some t ∨ s.scratch = some t →
      (c ∉ trails above ∧ c ∉ p.trail) ∧ q.frames.slot? c = some s := by
    intro c s t hs ht
    rw [hfs, Frames.slot?_back q.frames _ hpos] at hs
    split at hs
    · obtain ⟨s₀, hs₀, rfl⟩ := Option.map_eq_some_iff.1 hs
      split at ht
      · simp at ht
      · rename_i hc
        exact ⟨hmem.1 hc, by rw [if_neg hc]; exact hs₀⟩
    · cases hs
  have hreach : ∀ {n}, n ≤ p.mark → (q.frames.reach strict n).Le (fs.reach strict n) := by
    intro n hn
    rw [hfs]
    exact Frames.reach_back strict hpos hpt.mark hn _
  have hsize : fs.size = p.mark := by
    rw [hfs, Frames.size_truncate, Frames.size_undo, Nat.max_eq_left hpos, Nat.min_eq_left hpt.mark]
  have hoffer : ∀ b ∈ p :: below, ∀ a, b.alternatives = some a →
      a.Fits (fs.reach strict b.mark) ((fs.reach strict b.mark).slotsOf (fs.owner b.frame)) := by
    intro b hb a ha
    have hle := (hst.marks b hb).2
    have hbf := (hst.point b hb).frame.trans_le hle
    rw [hfs, Frames.owner_back _ hbf hpt.mark, ← hfs]
    exact (h.standing.offers b (hpts ▸ List.mem_append_right _ hb) a ha).mono (hreach hle)
      fun i hi => (hreach hle).cell _ hi
  refine ⟨?_, ?_, fun {c s} hs => ?_, ⟨⟨fun c s t hlt _ _ hs hv => ?_, ?_⟩, fun b hb a ha => ?_⟩,
    fun a ha => ?_⟩
  · rw [hfs]
    refine h.arena.back hpos hpt.mark fun hlt hc hs hv => ?_
    obtain ⟨ha, hp⟩ := hmem.1 hc
    exact htop _ _ _ hlt (fun hf => hf.elim id ha) hp hs hv
  · rw [hfs]
    exact Frames.within_truncate (Frames.within_undo h.within _) _
  · rw [hfs, Frames.slot?_back q.frames _ hpos] at hs
    split at hs
    · obtain ⟨s₀, hs₀, rfl⟩ := Option.map_eq_some_iff.1 hs
      split
      · rfl
      · exact h.blank hs₀
    · cases hs
  · obtain ⟨⟨ha, hp⟩, hs⟩ := hslot hs hv
    exact (htop c s t hlt (fun hf => hf.elim id ha) hp hs hv).mono (hreach le_rfl) fun _ hr => hr
  · refine hbelow.transport (fun b hb => hreach (hst.marks b (List.mem_cons_of_mem _ hb)).2)
      fun b _ c s t _ _ hs hv => ?_
    obtain ⟨⟨ha, hp⟩, hs⟩ := hslot hs hv
    exact ⟨fun hf => hf.elim (fun hf => hf.elim id ha) hp, s, hs, hv⟩
  · rcases List.mem_cons.1 hb with rfl | hb
    · cases ha
    · exact hoffer b (List.mem_cons_of_mem _ hb) a ha
  · rw [Frames.world, hsize]
    exact hoffer p List.mem_cons_self a ha

/-- Going back to the most recent point with something left: the
alternatives that are out of the point can be read where it leads. -/
theorem retreat (h : q.Sound strict) {q' : Query} {r : Resumption}
    (hr : q.retreat = (some r, q')) :
    q'.Sound strict ∧ r.alternatives.Fits (q'.frames.world strict)
      ((q'.frames.world strict).slotsOf (q'.frames.owner q'.callee)) := by
  have ho : Moment.Orderly ⟨q', some r⟩ := h.orderly.retreat hr id
  obtain ⟨above, p, below, hpts, -, halt, -, -, rfl⟩ := Query.retreat_split hr
  obtain ⟨harena, hwithin, hblank, hstanding, hoffer⟩ := h.back hpts rfl
  exact ⟨⟨ho.grounded, harena, hwithin, hblank, h.pending, h.collectors, hstanding⟩, hoffer _ halt⟩

/-- Unwinding to a point removes it as well. -/
theorem unwind (h : q.Sound strict) {id : Nat} {choices : ChoiceStack} {frames : Frames} {c : FrameId}
    (hu : q.choices.unwindTo q.frames id = some (choices, frames)) (hlive : c < frames.size) :
    Query.Sound strict { q with choices, frames, callee := c } := by
  have ho := h.orderly.unwind hu hlive
  obtain ⟨above, p, below, hpts, -, rfl, rfl⟩ := ChoiceStack.unwindTo_split hu
  obtain ⟨harena, hwithin, hblank, hstanding, -⟩ := h.back hpts rfl
  exact ⟨ho, harena, hwithin, hblank, h.pending, h.collectors, hstanding.tail rfl⟩

/-- A cut leaves the points below standing. -/
theorem cut (h : q.Sound strict) (ancestry : Nat) (scope : Option (Nat × FrameId))
    (ho : Moment.Orderly ⟨{ q with choices := q.choices.cut q.frames ancestry scope }, none⟩) :
    Query.Sound strict { q with choices := q.choices.cut q.frames ancestry scope } := by
  refine { h with orderly := ho, standing := ?_ }
  obtain ⟨gone, kept, cells, hpts, hcells, -, hcut⟩ :=
    q.choices.cut_split q.frames ancestry scope
  have hst := h.orderly.points
  have hstanding := h.standing
  rw [hpts] at hst hstanding
  rw [hcut]
  exact hstanding.handedOn hst hcells

/-- Alternatives that can be read where their point leads may be put back
into it. -/
theorem settle (h : q.Sound strict) {id : Nat} {rest : Alternatives}
    (hrest : ∀ p ∈ q.choices.points, p.id = id → rest.Fits (q.frames.reach strict p.mark)
      ((q.frames.reach strict p.mark).slotsOf (q.frames.owner p.frame)))
    (ho : Moment.Orderly ⟨q, some ⟨id, rest⟩⟩) : (q.settle id rest).Sound strict := by
  have hrestore := q.choices.forall₂_restore id rest
  have hstanding : Standing strict q.frames (q.choices.restore id rest).points := by
    refine ⟨h.standing.kept.congr (hrestore.imp fun a b hab => ?_), fun p' hp' a ha => ?_⟩
    · rcases hab with rfl | ⟨-, rfl⟩
      · exact ⟨.refl _, rfl⟩
      · exact ⟨⟨rfl, rfl, rfl, rfl, rfl⟩, rfl⟩
    · obtain ⟨p, hp, rfl | ⟨hid, rfl⟩⟩ := exists_left_of_forall₂ hrestore p' hp'
      · exact h.standing.offers _ hp a ha
      · cases ha
        exact hrest p hp hid
  refine ⟨ho.settle, h.arena, h.within, h.blank, h.pending, h.collectors, ?_⟩
  unfold Query.settle
  dsimp only
  split
  · exact hstanding
  · obtain ⟨top, below, hpts, -, hdrop⟩ | hdrop :=
      (q.choices.restore id rest).dropTop_cases q.frames id
    · have hst := ho.restored
      rw [hdrop]
      rw [hpts] at hst hstanding
      have hstanding : Standing strict q.frames ([top] ++ below) := hstanding
      exact hstanding.handedOn hst fun c => by simp [trails]
    · rw [hdrop]
      exact hstanding

end Query.Sound

end LogicMachine
