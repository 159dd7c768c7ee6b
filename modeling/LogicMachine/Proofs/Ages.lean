/-
The ages of frames and choice points.

Frames and choice points share one count of ages. An orderly moment says
what lies below the mark of a point: frames no younger than the point. Here
is the other half (`Ranged`): no frame from the mark on is older than the
point, and a point has trailed cells of frames only that are there and use
slots as old as itself. The two halves together say that the mark of a point
divides the arena by age, which trailing, cuts and the order of variables
rely on.

What makes the other half an invariant is a fact about two points of the
stack. When the arena is cut back to the mark of a point, the points below
it keep their trails, so these must not reach beyond the mark. They do not,
since a trail is added to only while its point is on top, and the point above
took the length of the arena then for its mark.

An error that is offered to a frame unwinds the stack before the frame says
whether it takes it. So the invariant is carried through offers on its own
(`does_askFrame_ranged`), for the frame may be gone by then.
-/
import LogicMachine.Proofs.LastCalls

namespace LogicMachine

-- ================================================== the other half

/-- The frames from the mark of a point on, and the cells that points have
trailed. -/
structure Ranged (fs : Frames) (points : List ChoicePoint) : Prop where
  above : ∀ {p i f}, p ∈ points → p.mark ≤ i → fs.get? i = some f → p.ancestry ≤ f.ancestry
  trailed : ∀ {p c}, p ∈ points → c ∈ p.trail →
    c.frame < fs.size ∧ fs.ordinal c.frame ≤ p.ancestry
  below : points.Pairwise fun p p' => ∀ c ∈ p'.trail, c.frame < p.mark

namespace Ranged

variable {fs fs' : Frames} {points points' : List ChoicePoint} {p : ChoicePoint}

theorem nil : Ranged fs [] :=
  ⟨fun hp => absurd hp List.not_mem_nil, fun hp => absurd hp List.not_mem_nil, .nil⟩

/-- Slots do not matter, nor do frames that no trail speaks of. -/
theorem heads (h : Ranged fs points) (hh : fs.Heads fs')
    (hlive : ∀ p ∈ points, ∀ c ∈ p.trail, c.frame < fs'.size) : Ranged fs' points := by
  refine ⟨fun {p i f'} hp hi hf' => ?_, fun {p c} hp hc => ⟨hlive p hp c hc, ?_⟩, h.below⟩
  · obtain ⟨f, hf, slots, rfl⟩ := hh i f' hf'
    have hle : p.ancestry ≤ f.ancestry := h.above hp hi hf
    simpa using hle
  · obtain ⟨f', hf'⟩ := Frames.exists_get? (hlive p hp c hc)
    obtain ⟨f, hf, slots, rfl⟩ := hh c.frame f' hf'
    have hle := (h.trailed hp hc).2
    rw [Frames.ordinal_eq hf] at hle
    rw [Frames.ordinal_eq hf']
    simpa using hle

theorem heads_same (h : Ranged fs points) (hh : fs.Heads fs') (hsize : fs'.size = fs.size) :
    Ranged fs' points := by
  apply h.heads hh
  intro p hp c hc
  rw [hsize]
  exact (h.trailed hp hc).1

/-- The part of the stack below some points. -/
theorem suffix (h : Ranged fs (points ++ points')) : Ranged fs points' where
  above hp := h.above (List.mem_append_right _ hp)
  trailed hp := h.trailed (List.mem_append_right _ hp)
  below := (List.pairwise_append.1 h.below).2.1

/-- Alternatives do not matter. -/
theorem congr (h : Ranged fs points)
    (hs : List.Forall₂ (fun a b : ChoicePoint => a.Same b ∧ b.trail = a.trail) points points') :
    Ranged fs points' := by
  have hleft := exists_left_of_forall₂ hs
  refine ⟨fun hp' hi hf => ?_, fun {p' c} hp' hc => ?_, ?_⟩
  · obtain ⟨p, hp, hsame, -⟩ := hleft _ hp'
    rw [hsame.mark] at hi
    rw [hsame.ancestry]
    exact h.above hp hi hf
  · obtain ⟨p, hp, hsame, htrail⟩ := hleft p' hp'
    rw [htrail] at hc
    rw [hsame.ancestry]
    exact h.trailed hp hc
  · have hbelow := h.below
    clear h hleft
    induction hs with
    | nil => exact .nil
    | cons hp hrest ih =>
      rw [List.pairwise_cons] at hbelow ⊢
      refine ⟨fun q' hq' => ?_, ih hbelow.2⟩
      obtain ⟨q, hq, -, htrail⟩ := exists_left_of_forall₂ hrest q' hq'
      rw [htrail, hp.1.mark]
      exact hbelow.1 q hq

/-- The topmost point trails more cells, as far as it needs them. -/
theorem recordAll {cs : ChoiceStack} {cells : List Cell} (h : Ranged fs cs.points)
    (hcells : ∀ c ∈ cells, c.frame < fs.size) : Ranged fs (cs.recordAll fs cells).points := by
  rw [ChoiceStack.points_recordAll]
  cases hpts : cs.points with
  | nil => exact .nil
  | cons top rest =>
    rw [hpts] at h
    refine ⟨fun hp hi hf => ?_, fun hp hc => ?_, ?_⟩
    · rcases List.mem_cons.1 hp with rfl | hp
      · exact h.above (p := top) List.mem_cons_self hi hf
      · exact h.above (List.mem_cons_of_mem _ hp) hi hf
    · rcases List.mem_cons.1 hp with rfl | hp
      · rcases ChoicePoint.mem_trail_trailing.1 hc with ⟨hc, hle⟩ | hc
        · exact ⟨hcells _ hc, hle⟩
        · exact h.trailed (p := top) List.mem_cons_self hc
      · exact h.trailed (List.mem_cons_of_mem _ hp) hc
    · have hbelow := List.pairwise_cons.1 h.below
      exact List.pairwise_cons.2 ⟨hbelow.1, hbelow.2⟩

/-- A new point on top marks the end of the arena. -/
theorem push (h : Ranged fs points) (hmark : p.mark = fs.size) (htrail : p.trail = []) :
    Ranged fs (p :: points) := by
  refine ⟨fun hq hi hf => ?_, fun hq hc => ?_, List.pairwise_cons.2 ⟨fun q hq c hc => ?_, h.below⟩⟩
  · rcases List.mem_cons.1 hq with rfl | hq
    · have hlt := Frames.lt_size_of_get? hf
      exact absurd hlt (Nat.not_lt.2 (hmark ▸ hi))
    · exact h.above hq hi hf
  · rcases List.mem_cons.1 hq with rfl | hq
    · rw [htrail] at hc
      cases hc
    · exact h.trailed hq hc
  · rw [hmark]
    exact (h.trailed hq hc).1

/-- A frame is entered that is no older than any point. -/
theorem pushFrame {age : Nat} (h : Ranged fs points) (hage : ∀ p ∈ points, p.ancestry ≤ age)
    (caller : Option FrameId) (next : Code) (procedure : Option Procedure) (locals : Nat)
    (base : Option FrameId) :
    Ranged (fs.push age caller next procedure locals base).1 points := by
  refine ⟨fun {p i f} hp hi hf => ?_, fun {p c} hp hc => ?_, h.below⟩
  · rw [Frames.get?_push] at hf
    split at hf
    · cases hf
      exact hage p hp
    · exact h.above hp hi hf
  · obtain ⟨hlt, hle⟩ := h.trailed hp hc
    obtain ⟨f, hf⟩ := Frames.exists_get? hlt
    have hf' := hf
    rw [← Frames.get?_push_of_lt age caller next procedure locals base hlt] at hf'
    rw [Frames.ordinal_eq hf] at hle
    rw [Frames.ordinal_eq hf', Frames.size_push]
    exact ⟨Nat.lt_succ_of_lt hlt, hle⟩

/-- The arena is cut back to the mark of a point, and the points above it are
removed. -/
theorem back {above : List ChoicePoint} (h : Ranged fs (above ++ p :: points)) (trail : List Cell)
    (hsize : ((fs.undo trail).truncate p.mark).size = p.mark) :
    Ranged ((fs.undo trail).truncate p.mark) points := by
  have hkept : Ranged fs (p :: points) := h.suffix
  have hrest : Ranged fs ([p] ++ points) := hkept
  apply hrest.suffix.heads (.back fs trail p.mark)
  intro q hq c hc
  rw [hsize]
  exact List.rel_of_pairwise_cons hkept.below hq c hc

end Ranged

/-- The other half for a query. -/
abbrev Query.Ranged (q : Query) : Prop := LogicMachine.Ranged q.frames q.choices.points

-- ================================================== moves

variable {strict : Bool} {q q' : Query} {ball : Term}

/-- Cells that points have trailed are there. -/
theorem Query.Ranged.lt_size (h : q.Ranged) {points : List ChoicePoint}
    (hp : ∀ p ∈ points, p ∈ q.choices.points) {c : Cell} (hc : c ∈ trails points) :
    c.frame < q.frames.size := by
  obtain ⟨p, hmem, hc⟩ := mem_trails.1 hc
  exact (h.trailed (hp p hmem) hc).1

theorem Work.ranged (h : Work strict q q') (hr : q.Ranged) : q'.Ranged := by
  cases h with
  | bind cells hb _ =>
    apply (hr.heads_same (.of_reslots hb.reslots) hb.reslots.size).recordAll
    intro c hc
    obtain ⟨s, hs⟩ := Option.isSome_iff_exists.1 (hb.live c hc)
    rw [hb.reslots.size]
    exact Frames.lt_size_of_slot? hs
  | grow id count => exact hr.heads_same (.expand _ _ _) (Frames.size_expand ..)
  | point alternatives _ _ => exact hr.push rfl rfl
  | collect _ => exact hr

theorem Works.ranged (h : Works strict q q') (hr : q.Ranged) : q'.Ranged := by
  induction h with
  | refl => exact hr
  | tail _ hw ih => exact hw.ranged ih

theorem Query.Ranged.cut (hr : q.Ranged) (ancestry : Nat) (scope : Option (Nat × FrameId)) :
    LogicMachine.Ranged q.frames (q.choices.cut q.frames ancestry scope).points := by
  obtain ⟨gone, kept, cells, hpts, hcells, -, hcut⟩ :=
    q.choices.cut_split q.frames ancestry scope
  have hkept : LogicMachine.Ranged q.frames (gone ++ kept) := hpts ▸ hr
  rw [hcut]
  apply Ranged.recordAll hkept.suffix
  intro c hc
  apply hr.lt_size _ ((hcells c).1 hc)
  intro p hp
  rw [hpts]
  exact List.mem_append_left _ hp

theorem Query.Ranged.settle (hr : q.Ranged) (id : Nat) (rest : Alternatives) :
    (q.settle id rest).Ranged := by
  have hrestored : LogicMachine.Ranged q.frames (q.choices.restore id rest).points := by
    refine hr.congr ((q.choices.forall₂_restore id rest).imp fun a b hab => ?_)
    rcases hab with rfl | ⟨-, rfl⟩
    · exact ⟨.refl _, rfl⟩
    · exact ⟨⟨rfl, rfl, rfl, rfl, rfl⟩, rfl⟩
  unfold Query.settle
  dsimp only
  split
  · exact hrestored
  · obtain ⟨top, below, hpts, -, hdrop⟩ | hdrop :=
      (q.choices.restore id rest).dropTop_cases q.frames id
    · show LogicMachine.Ranged _ (ChoiceStack.dropTop ..).points
      rw [hdrop]
      rw [hpts] at hrestored
      have hbelow : LogicMachine.Ranged q.frames ([top] ++ below) := hrestored
      apply Ranged.recordAll hbelow.suffix
      exact fun c hc => (hrestored.trailed List.mem_cons_self hc).1
    · show LogicMachine.Ranged _ (ChoiceStack.dropTop ..).points
      rw [hdrop]
      exact hrestored

theorem Query.Ranged.retreat {r : Resumption} (hr : q.Ranged) (ho : Moment.Orderly ⟨q, none⟩)
    (h : q.retreat = (some r, q')) : q'.Ranged := by
  obtain ⟨above, p, below, hpts, -, -, -, -, rfl⟩ := Query.retreat_split h
  have hsize := (ho.back hpts (trails (above ++ [p]))).1
  have hkept : LogicMachine.Ranged q.frames (above ++ p :: below) := hpts ▸ hr
  exact (hkept.back _ hsize).push hsize.symm rfl

theorem Query.Ranged.unwind (hr : q.Ranged) (ho : Moment.Orderly ⟨q, none⟩) {id : Nat}
    {choices : ChoiceStack} {frames : Frames}
    (h : q.choices.unwindTo q.frames id = some (choices, frames)) :
    LogicMachine.Ranged frames choices.points := by
  obtain ⟨above, p, below, hpts, -, rfl, rfl⟩ := ChoiceStack.unwindTo_split h
  have hkept : LogicMachine.Ranged q.frames (above ++ p :: below) := hpts ▸ hr
  exact hkept.back _ (ho.back hpts (trails (above ++ [p]))).1

/-- Every move keeps what points have trailed, and the frames from their marks
on. -/
theorem Move.ranged {x y : Moment} (h : Move strict x y) (ho : x.Orderly) (hr : x.query.Ranged) :
    y.query.Ranged := by
  have hage : ∀ p ∈ x.query.choices.points, p.ancestry ≤ x.query.ancestry :=
    fun p hp => (ho.points.point p hp).age
  cases h with
  | work h => exact h.ranged hr
  | fail | skip _ | sole _ | leave _ _ _ | call _ | attempt _ _ | handle _ _ _ => exact hr
  | choose _ | select _ _ => exact hr.push rfl rfl
  | cut _ => exact hr.cut _ _
  | enter procedure locals base code _ _ => exact hr.pushFrame hage _ _ _ _ _
  | @guard q _ catcher handler code _ =>
    have hreslots := q.frames.reslots_pushGuarded q.ancestry q.callee q.next catcher handler
      (q.choices.serial + 1)
    have hentered := hr.pushFrame hage (some q.callee) q.next (some (.framed .guarded)) 3 none
    apply (hentered.heads_same (.of_reslots hreslots) hreslots.size).push
    · exact (Frames.size_pushGuarded ..).symm
    · rfl
  | branch h =>
    have hback := Query.Ranged.retreat hr ho h
    exact hback.settle _ _
  | resume h _ =>
    have hback := Query.Ranged.retreat hr ho h
    exact hback
  | settle => exact hr.settle _ _
  | unwind _ _ _ h _ => exact hr.unwind ho h

theorem Moves.ranged {x y : Moment} (h : Moves strict x y) (ho : x.Orderly)
    (hr : x.query.Ranged) : y.query.Ranged := by
  induction h with
  | refl => exact hr
  | tail hbefore hm ih => exact hm.ranged (Moves.orderly hbefore ho) ih

/-- A query that has come from its start. -/
theorem Query.Got.ranged {entry : Clause} {code : Code}
    (h : q.Got strict entry.outset code) : q.Ranged :=
  h.moves.ranged (orderly_start entry) .nil

-- ================================================== offers

namespace Act

variable {x : Moment} {c : FrameId} {f : Frame}

/-- What a guarded goal does once unwound. -/
theorem does_take_ranged (hq : q.Sound false) (hr : q.Ranged) (hball : ball.Fits .all anyVars)
    {catcher handler : Term} (hcatcher : catcher.Live (q.frames.world false)) :
    Does .loose q (do
      let ball ← rebind ball
      if ← unify catcher ball then return some (Code.run .call [handler] .succeed)
      else return none)
      (fun _ => Query.Ranged) Query.Ranged := by
  refine ((tries_rebind (μ := .loose) hq hball).mono (fun _ _ h => h)
    fun q' h => h.works.ranged hr).bind fun copy q₁ ⟨h₁, hcopy⟩ => ?_
  have hr₁ : q₁.Ranged := h₁.works.ranged hr
  refine ((tries_unify (μ := .loose) h₁.sound (h₁.live hcatcher) hcopy).mono (fun _ _ h => h)
    fun q' h => h.works.ranged hr₁).bind fun ok q₂ ⟨h₂, _⟩ => ?_
  have hr₂ : q₂.Ranged := h₂.works.ranged hr₁
  cases ok with
  | true => exact .pure hr₂
  | false => exact .pure hr₂

theorem does_catchBall_ranged (h : q.Awaits false x c) (hr : q.Ranged) (hc : q.callee = c)
    (hcatch : q.frames.Catches c) (hball : ball.Fits .all anyVars) :
    Does .loose q (Control.catchBall ball) (fun _ => Query.Ranged) Query.Ranged := by
  refine .get_bind fun db _ => .get_bind fun db _ => ?_
  dsimp only
  split
  · refine (does_unwindTo q _).bind fun ok q₁ hu => ?_
    obtain ⟨rfl, rfl⟩ | ⟨choices, frames, hu, rfl, rfl⟩ := hu
    · exact .pure hr
    · have hunwound := hr.unwind (h.sound hc).orderly hu
      simp only [Bool.not_true]
      refine .get_bind fun db _ => ?_
      by_cases hlive : c < frames.size
      · have hsound : Query.Sound false { q with choices, frames } := by
          have hgot := h.unwound hcatch .refl hu hlive
          rw [← hc] at hgot
          exact hgot.sound
        split
        · rename_i catcher handler hcatcher hhandler
          exact does_take_ranged hsound hunwound hball (live_of_value? (μ := .loose) hsound hcatcher)
        · exact .pure hunwound
      · -- the frame is gone, so that its slots show nothing
        have hshown : frames.value? q.callee Control.catcherSlot = none := by
          have hle := Nat.le_of_not_lt hlive
          have hnone : frames.get? c = none := Array.getElem?_eq_none hle
          rw [Frames.value?, hc, Frames.owner_of_le hle, Frames.slot?_eq, hnone]
          rfl
        simp only [hshown]
        exact .pure hunwound
  · exact .pure hr

/-- Whether or not a frame takes the ball. -/
theorem does_askFrame_ranged (h : q.Awaits false x c) (hr : q.Ranged) (hc : q.callee = c)
    (hf : q.frames.get? c = some f) (hball : ball.Fits .all anyVars) :
    Does .loose q (askFrame f ball) (fun _ => Query.Ranged) Query.Ranged := by
  unfold askFrame
  split
  · rename_i procedure hp
    unfold Procedure.catchBall
    split
    · exact does_catchBall_ranged h hr hc ⟨f, hf, .inl hp⟩ hball
    · refine .get_bind fun db _ => .read (reads_note _) hr fun _ _ => ?_
      split
      · exact .pure hr
      · exact .pure hr
    · exact .pure hr
  · exact .pure hr

end Act

-- ================================================== phases

namespace Act

/-- Going back leads nowhere only where no point is left. -/
theorem nil_of_backtrack {env : Env} {m m' : Machine} (h : backtrack env m = .ok false m') :
    m'.query.choices.points = [] := by
  rw [backtrack_eq] at h
  cases hretreat : m.query.retreat with
  | mk resumed q =>
    rw [hretreat] at h
    cases resumed with
    | none =>
      cases h
      rw [Query.retreat_none hretreat]
    | some r =>
      dsimp only at h
      split at h <;> cases h

/-- So does a step that finds nothing left to try. -/
theorem nil_of_exhausted {env : Env} {m m' : Machine} (h : step env m = .ok .exhausted m') :
    m'.query.choices.points = [] := by
  obtain ⟨code, m₁, htake, h⟩ := bind_ok h
  cases htake
  cases hnext : m.query.next with
  | fail =>
    rw [hnext] at h
    obtain ⟨found, m₂, hback, h⟩ := bind_ok h
    cases found with
    | true => cases h
    | false =>
      cases h
      exact nil_of_backtrack hback
  | succeed =>
    rw [hnext] at h
    obtain ⟨m₂, m₃, hget, h⟩ := bind_ok h
    cases hget
    cases hf : m.query.frames.get? m.query.callee with
    | none =>
      simp only [hf] at h
      obtain ⟨s, m₄, -, h⟩ := bind_ok h
      cases h
    | some f =>
      cases hcaller : f.caller with
      | none =>
        simp only [hf, hcaller] at h
        obtain ⟨s, m₄, -, h⟩ := bind_ok h
        cases h
      | some caller =>
        simp only [hf, hcaller] at h
        obtain ⟨-, m₄, -, h⟩ := bind_ok h
        cases h
  | _ =>
    rw [hnext] at h
    obtain ⟨next, m₂, -, h⟩ := bind_ok h
    obtain ⟨-, m₃, -, h⟩ := bind_ok h
    cases h

end Act

/-- A query without points. -/
theorem Query.ranged_of_nil (h : q.choices.points = []) : q.Ranged := by
  show LogicMachine.Ranged q.frames q.choices.points
  rw [h]
  exact .nil

namespace Act

variable {env : Env} {entry : Clause} {db : Database} {m : Machine} {phase : Phase}

/-- A step that fails leaves the points ranged, as does one that does not. -/
theorem ranged_running (henv : env.Sound false) (hsteps : 0 < env.steps) (hdb : db.Sound)
    (h : Phase.Holds false entry q .running)
    (hadvance : advance .running env ⟨db, q⟩ = .ok phase m) : m.query.Ranged := by
  have hstep := ends_step (μ := .loose) henv hsteps (orderly_start entry) hdb h nofun nofun
  rw [advance_running] at hadvance
  cases hended : step env ⟨db, q⟩ with
  | ok progress m₁ =>
    rw [hended] at hadvance hstep
    cases progress with
    | running =>
      cases hadvance
      exact hstep.2.ranged
    | found s =>
      cases hadvance
      exact hstep.2.1.ranged
    | exhausted =>
      cases hadvance
      have hnil := nil_of_exhausted hended
      exact Query.ranged_of_nil hnil
  | error e m₁ =>
    rw [hended] at hadvance hstep
    obtain ⟨-, hgot, -⟩ := hstep
    cases e with
    | thrown raw =>
      dsimp only at hadvance
      cases hcopy : detach raw env m₁ with
      | error e m₂ => exact nomatch hcopy
      | ok ball m₂ =>
        rw [hcopy] at hadvance
        cases hadvance
        have hsame : m.query = m₁.query := by
          cases hcopy
          rfl
        rw [hsame]
        exact hgot.ranged
    | fatal reason =>
      cases hadvance
      exact Query.ranged_of_nil rfl
    | unfinished =>
      cases hadvance
      exact Query.ranged_of_nil rfl

/-- So does an offer, whether or not the frame takes the ball. -/
theorem ranged_offering (henv : env.Sound false) (hdb : db.Sound) {id : FrameId}
    (h : Phase.Holds false entry q (.offering ball id)) (hr : q.Ranged)
    (hadvance : advance (.offering ball id) env ⟨db, q⟩ = .ok phase m) : m.query.Ranged := by
  rw [advance_offering] at hadvance
  cases hf : q.frames.get? id with
  | none =>
    rw [hf] at hadvance
    cases hadvance
    exact Query.ranged_of_nil rfl
  | some f =>
    have hr : Query.Ranged { q with callee := id } := hr
    have hawaits : Query.Awaits false entry.outset { q with callee := id } id :=
      h.2.2 (.inr (Frames.lt_size_of_get? hf))
    have hasked := (does_askFrame_ranged hawaits hr rfl hf h.1).ends env db henv hdb
    rw [hf] at hadvance
    dsimp only at hadvance
    cases hask : askFrame f ball env ⟨db, { q with callee := id }⟩ with
    | error e m₁ =>
      rw [hask] at hadvance
      cases hadvance
      exact Query.ranged_of_nil rfl
    | ok r m₁ =>
      rw [hask] at hadvance hasked
      cases r with
      | some code =>
        cases hadvance
        exact hasked.2
      | none =>
        cases hcaller : f.caller with
        | none =>
          rw [hcaller] at hadvance
          cases hadvance
          exact Query.ranged_of_nil rfl
        | some caller =>
          rw [hcaller] at hadvance
          cases hadvance
          exact hasked.2

end Act

namespace Query

variable {x y : Query × Phase}

/-- In whatever phase a query is, going on keeps its points ranged. -/
theorem Reached.ranged_step (h : Reached x) (hx : x.1.Ranged) (hp : Proceeds x y) :
    y.1.Ranged := by
  obtain ⟨entry, hholds⟩ := h.holds
  obtain ⟨q, phase⟩ := x
  obtain ⟨q', phase'⟩ := y
  obtain ⟨db, db', steps, thunks, hdb, hsteps, hadvance⟩ := hp
  have henv := Env.sound_nested steps thunks
  cases phase with
  | running =>
    have hsteps : 0 < (Env.nested steps thunks).steps := by cases thunks <;> exact hsteps
    exact Act.ranged_running henv hsteps hdb hholds hadvance
  | offering ball id => exact Act.ranged_offering henv hdb hholds hx hadvance
  | ended =>
    cases hadvance
    exact hx

theorem Reached.ranged (h : Reached x) : x.1.Ranged := by
  induction h with
  | start _ => exact .nil
  | step h hp ih => exact h.ranged_step ih hp

/-- In every phase the query is sound, but for the frame that is running. -/
theorem Reached.rests (h : Reached x) : x.1.Rests false := by
  obtain ⟨entry, hholds⟩ := h.holds
  obtain ⟨q, phase⟩ := x
  cases phase with
  | running => exact hholds.sound.rests
  | offering ball id => exact hholds.2.1
  | ended => exact hholds.rests

-- ================================================== all of it

/-- How frames, choice points and trails lie by age. The topmost point comes
first. -/
structure Aged (q : Query) : Prop where
  /-- A frame is younger than those below it. -/
  frames : ∀ {i j f g}, q.frames.get? i = some f → q.frames.get? j = some g → i < j →
    f.ancestry < g.ancestry
  youngest : ∀ {i f}, q.frames.get? i = some f → f.ancestry ≤ q.ancestry
  /-- A frame that has slots is the owner of those it uses, and no two owners
  are of one ordinal. -/
  owner : ∀ {i f}, q.frames.get? i = some f → f.slots ≠ #[] → f.owner = i
  ordinals : ∀ {i j f g}, q.frames.get? i = some f → q.frames.get? j = some g → f.owner = i →
    g.owner = j → f.ordinal = g.ordinal → i = j
  points : q.choices.points.Pairwise fun p p' => p'.mark ≤ p.mark ∧ p'.ancestry ≤ p.ancestry
  frame : ∀ {p}, p ∈ q.choices.points → p.frame < p.mark
  /-- The mark of a point divides the arena. -/
  below : ∀ {p i f}, p ∈ q.choices.points → i < p.mark → q.frames.get? i = some f →
    f.ancestry ≤ p.ancestry
  above : ∀ {p i f}, p ∈ q.choices.points → p.mark ≤ i → q.frames.get? i = some f →
    p.ancestry ≤ f.ancestry
  trail : ∀ {p c}, p ∈ q.choices.points → c ∈ p.trail →
    ∃ f, q.frames.get? c.frame = some f ∧ f.ordinal ≤ p.ancestry

namespace Reached

/-- In whatever state a query is, in a session or for a thunk, its frames and
choice points lie by age, and a point has trailed cells of frames only that
are there and as old as itself. -/
theorem ancestry_ordered (h : Reached x) : x.1.Aged := by
  obtain ⟨c, hsound, -⟩ := h.rests
  have hladder := hsound.orderly.frames
  have hstacked := hsound.orderly.points
  have hranged := h.ranged
  have hframe : ∀ {i f}, x.1.frames.get? i = some f → f.owner = i →
      (x.1.frames.world false).frame i := by
    intro i f hf howner
    have hlive := Frames.lt_size_of_get? hf
    exact ⟨hlive, hlive, (Frames.owner_eq hf).trans howner⟩
  constructor
  · exact hladder.ladder
  · exact fun hf => (hladder.top hf).1
  · exact fun hf hslots => (hsound.arena.owned hf).2.1 hslots
  · intro i j f g hf hg hi hj hordinal
    apply hsound.arena.eq_of_ordinal hladder (hframe hf hi) (hframe hg hj)
    show x.1.frames.ordinal i = x.1.frames.ordinal j
    rw [Frames.ordinal_eq hf, Frames.ordinal_eq hg, hordinal]
  · exact hstacked.ordered.imp fun hover => hover.2
  · exact fun hp => (hstacked.point _ hp).frame
  · exact fun hp hi hf => ((hstacked.point _ hp).frames hi hf).1
  · exact hranged.above
  · intro p c hp hc
    obtain ⟨hlt, hle⟩ := hranged.trailed hp hc
    obtain ⟨f, hf⟩ := Frames.exists_get? hlt
    rw [Frames.ordinal_eq hf] at hle
    exact ⟨f, hf, hle⟩

/-- After `p(a). p(b).` the goal `p(X), p(Y)` comes to a state with a point for
either call, each of which has trailed the variable bound since. -/
theorem ancestry_ordered_trailing : ∃ q, Reached (q, .running) ∧ q.frames.size = 3
    ∧ q.choices.points.map (fun p => (p.ancestry, p.mark, p.trail.map (·.slot)))
      = [(3, 2, [1]), (2, 1, [0])]
    ∧ q.Aged := by
  obtain ⟨db₀, hdb₀, hrun⟩ : ∃ db₀, Session.Reached true ⟨db₀, []⟩
      ∧ (Session.opening? (.compound (.template 2) "," [.compound (.template 0) "p"
          [.var (.named "X")], .compound (.template 1) "p" [.var (.named "Y")]]) db₀).any (fun o =>
        (o.2.after o.1 3).any fun q => q.frames.size == 3
          && q.choices.points.map (fun p => (p.ancestry, p.mark, p.trail.map (·.slot)))
            == [(3, 2, [1]), (2, 1, [0])]) = true :=
    ⟨_, .step (.step (.start false 1)
        (.request (.assert (.compound .plain "p" [.atom "a"]) .back)
          (by simp [Request.Detached, Term.fits_compound, Term.isPlain])))
      (.request (.assert (.compound .plain "p" [.atom "b"]) .back)
        (by simp [Request.Detached, Term.fits_compound, Term.isPlain])), by cbv⟩
  simp only [Option.any_eq_true, Bool.and_eq_true, beq_iff_eq] at hrun
  obtain ⟨⟨db, q₀⟩, hopen, q, hq, hsize, hpoints⟩ := hrun
  have hopened := hdb₀.opening
    (by simp [Term.fits_compound, Term.fits_var, Var.name, anyVars]) hopen
  have hdb := hopened.holds.db
  have hreached : Reached (q, .running) := (hopened.query _ List.mem_cons_self).after hdb hq
  exact ⟨q, hreached, hsize, hpoints, ancestry_ordered hreached⟩

end Reached

end Query

end LogicMachine
