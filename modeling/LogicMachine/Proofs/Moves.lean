/-
The moves of a query, one by one.

A step of the engine does a good deal at once: it may go back to a choice
point, enter a frame, unify and leave a further point. Here a step is
taken apart into moves, each of which does one thing to the frames, the
choice points and the code to run next. What the moves leave out is data:
which terms are bound to what, which rows a table has, what a built-in
decides. So a query may have moves that no run of it ever makes; but every
run is a sequence of moves, and what holds along moves holds along runs.

While the alternatives of a choice point are tried they are out of the
point. A `Moment` is a query together with the alternatives that are in
flight in this sense.

Whether a binding overwrites another one is the only thing said of data,
and only in `strict` moves: there, bindings are made to unbound cells.
-/
import LogicMachine.Proofs.Stack

namespace LogicMachine

-- ================================================== what is left out

namespace Alternatives

/-- Trying the alternatives runs no code in a frame: each trial is a
unification or the like. -/
def IsLeaf : Alternatives → Prop
  | .branches _ | .rows .. => False
  | _ => True

end Alternatives

/-- The code that a trial goes on with in the frame of its choice point,
if it does not fail. -/
def Trial.held : Trial → Code
  | .code c => c
  | .row _ _ _ next _ => next
  | _ => .succeed

namespace Frames

/-- The frame `b` called the frame `a`. -/
def CalledBy (fs : Frames) (a b : FrameId) : Prop :=
  ∃ f, fs.get? a = some f ∧ f.caller = some b

/-- The frame `b` is on the chain of callers that starts with `a`. -/
def Chain (fs : Frames) : FrameId → FrameId → Prop := Relation.ReflTransGen fs.CalledBy

/-- The frame is one that errors are offered to. -/
def Catches (fs : Frames) (id : FrameId) : Prop :=
  ∃ f, fs.get? id = some f
    ∧ (f.procedure = some (.framed .guarded) ∨ ∃ target, f.procedure = some (.shield target))

/-- The arena with the frame of a guarded goal, whose slots hold the
catcher, the handler and the number of the barrier. -/
def pushGuarded (fs : Frames) (ancestry : Nat) (caller : FrameId) (next : Code)
    (catcher handler : Term) (barrier : Nat) : Frames :=
  let entered := (fs.push ancestry (some caller) next (some (.framed .guarded)) 3 none).1
  ((entered.setValue fs.size Control.catcherSlot catcher).setValue fs.size
    Control.handlerSlot handler).setValue fs.size Control.barrierSlot (.ofNat barrier)

section

variable (fs : Frames) (ancestry : Nat) (caller : FrameId) (next : Code) (catcher handler : Term)
  (barrier : Nat)

theorem reslots_pushGuarded :
    (fs.push ancestry (some caller) next (some (.framed .guarded)) 3 none).1.Reslots
      (fs.pushGuarded ancestry caller next catcher handler barrier) :=
  ((Reslots.modifySlot ..).trans (.modifySlot ..)).trans (.modifySlot ..)

theorem get?_pushGuarded (id : FrameId) :
    (fs.pushGuarded ancestry caller next catcher handler barrier).get? id
      = if id = fs.size then
          some ((fs.entered ancestry (some caller) next (some (.framed .guarded)) 3 none).withSlots
            #[⟨some catcher, none⟩, ⟨some handler, none⟩, ⟨some (.ofNat barrier), none⟩])
        else fs.get? id := by
  have howner : ∀ fs' : Frames, (fs.push ancestry (some caller) next (some (.framed .guarded)) 3
      none).1.Reslots fs' → fs'.owner fs.size = fs.size := by
    intro fs' h
    rw [h.owner]
    exact owner_eq (f := fs.entered ancestry (some caller) next (some (.framed .guarded)) 3 none)
      (by rw [get?_push, if_pos rfl])
  unfold pushGuarded
  simp only [setValue, howner _ (.refl _), howner _ (.modifySlot ..),
    howner _ ((Reslots.modifySlot ..).trans (.modifySlot ..)), get?_modifySlot, get?_push]
  by_cases h : fs.size = id
  · subst h
    simp only [Option.map_some, if_true]
    rfl
  · have hne : id ≠ fs.size := fun he => h he.symm
    simp [h, hne]

theorem size_pushGuarded :
    (fs.pushGuarded ancestry caller next catcher handler barrier).size = fs.size + 1 := by
  rw [(reslots_pushGuarded ..).size, size_push]

/-- The frames that were there are not touched. -/
theorem restoresBelow_pushGuarded {mark : Nat} (hm : mark ≤ fs.size) :
    RestoresBelow mark fs (fs.pushGuarded ancestry caller next catcher handler barrier) := by
  intro i f hi hf
  refine ⟨0, ?_⟩
  rw [get?_pushGuarded, if_neg (hi.trans_le hm).ne, hf]
  simp

end

end Frames

-- ================================================== moves

/-- What built-ins do to a query: bind cells, make slots, leave choice
points without code, collect. -/
inductive Work (strict : Bool) : Query → Query → Prop
  | bind {q : Query} {fs : Frames} (cells : List Cell) (h : Frames.Binds cells q.frames fs)
      (hu : strict = true → q.frames.Unbound cells) :
      Work strict q { q with frames := fs, choices := q.choices.recordAll fs cells }
  | grow {q : Query} (id : FrameId) (count : Nat) :
      Work strict q { q with frames := (q.frames.expand id count).1 }
  | point {q : Query} (alternatives : Alternatives) (hleaf : alternatives.IsLeaf)
      (hopen : ∀ p ∈ q.choices.points, p.scope.isSome → p.mark ≤ q.callee) :
      Work strict q { q with
        choices := q.choices.push q.callee q.ancestry q.frames.size none alternatives }
  | collect {q : Query} (collectors : Array (List Term)) :
      Work strict q { q with collectors := collectors }

/-- A query and the alternatives in flight. -/
structure Moment where
  query : Query
  flight : Option Resumption := none

namespace Query

/-- The query with other code to run next. -/
abbrev holding (q : Query) (code : Code) : Query := { q with next := code }

/-- No frame and no if-then(-else) is as young as the call about to be
made. -/
structure Fresh (q : Query) : Prop where
  frames : ∀ {i f}, q.frames.get? i = some f → f.ancestry < q.ancestry
  scopes : ∀ p ∈ q.choices.points, p.scope.isSome → p.ancestry < q.ancestry

/-- The frame of a guarded goal is entered, its barrier left, and the
catcher, the handler and the number of the barrier kept in its slots. -/
def guard (q : Query) (catcher handler : Term) : Query :=
  { q with
    frames := q.frames.pushGuarded q.ancestry q.callee q.next catcher handler
      (q.choices.serial + 1)
    choices := q.choices.push q.frames.size q.ancestry (q.frames.size + 1) none .barrier
    callee := q.frames.size }

/-- The topmost choice point is the one named and its frame is running. -/
def AtPoint (q : Query) (id : Nat) : Prop :=
  ∃ p rest, q.choices.points = p :: rest ∧ p.id = id ∧ q.callee = p.frame

end Query

/-- One move. -/
inductive Move (strict : Bool) : Moment → Moment → Prop
  | work {q q' : Query} {fl : Option Resumption} (h : Work strict q q') :
      Move strict ⟨q, fl⟩ ⟨q', fl⟩
  | fail {q : Query} {fl : Option Resumption} : Move strict ⟨q, fl⟩ ⟨q.holding .fail, fl⟩
  | skip {q : Query} {next : Code} (h : q.next = .noop next) :
      Move strict ⟨q, none⟩ ⟨q.holding next, none⟩
  | sole {q : Query} {first : Code} (h : q.next = .choice none [first]) :
      Move strict ⟨q, none⟩ ⟨q.holding first, none⟩
  | choose {q : Query} {scope : Option Nat} {first : Code} {rest : List Code}
      (h : q.next = .choice scope (first :: rest)) :
      Move strict ⟨q, none⟩
        ⟨{ q with
            next := first
            choices := q.choices.push q.callee q.ancestry q.frames.size scope (.branches rest) },
          none⟩
  | cut {q : Query} {scope : Option Nat} {next : Code} (h : q.next = .cut scope next) :
      Move strict ⟨q, none⟩
        ⟨{ q with
            next := next
            choices :=
              q.choices.cut q.frames (q.frames.ancestry q.callee) (scope.map (·, q.callee)) },
          none⟩
  | leave {q : Query} {fl : Option Resumption} {frame : Frame} {c : FrameId}
      (h : q.next = .succeed) (hf : q.frames.get? q.callee = some frame)
      (hc : frame.caller = some c) :
      Move strict ⟨q, fl⟩ ⟨{ q with next := frame.next, callee := c }, fl⟩
  | call {q : Query} {target : Target} {args : List Term} {next : Code}
      (h : q.next = .call target args next) :
      Move strict ⟨q, none⟩ ⟨{ q with ancestry := q.ancestry + 1, next := next }, none⟩
  | select {q : Query} {target : Target} {args : List Term} {next : Code} (rows : Array Row)
      (h : q.next = .call target args next) :
      Move strict ⟨q, none⟩
        ⟨{ q with
            choices := q.choices.push q.callee (q.ancestry + 1) q.frames.size none
              (.rows rows 1 args next q.callee q.ancestry)
            ancestry := q.ancestry + 1
            next := next },
          none⟩
  | enter {q : Query} {fl : Option Resumption} (procedure : Option Procedure) (locals : Nat)
      (base : Option FrameId) (code : Code) (hf : q.Fresh)
      (hp : procedure ≠ some (.framed .guarded)) :
      Move strict ⟨q, fl⟩
        ⟨{ q with
            frames := (q.frames.push q.ancestry (some q.callee) q.next procedure locals base).1
            callee := q.frames.size
            next := code },
          fl⟩
  | guard {q : Query} {fl : Option Resumption} (catcher handler : Term) (code : Code)
      (hf : q.Fresh) :
      Move strict ⟨q, fl⟩ ⟨(q.guard catcher handler).holding code, fl⟩
  | branch {q q' : Query} {id : Nat} {code : Code} {rest : List Code}
      (h : q.retreat = (some ⟨id, .branches (code :: rest)⟩, q')) :
      Move strict ⟨q, none⟩ ⟨(q'.settle id (.branches rest)).holding code, none⟩
  | resume {q q' : Query} {r : Resumption} (h : q.retreat = (some r, q'))
      (hb : ∀ codes, r.alternatives ≠ .branches codes) :
      Move strict ⟨q, none⟩ ⟨q'.holding .fail, some r⟩
  | attempt {q : Query} {id : Nat} {alternatives rest : Alternatives} {trial : Trial}
      (hat : q.AtPoint id) (h : alternatives.next? = some (trial, rest)) :
      Move strict ⟨q, some ⟨id, alternatives⟩⟩ ⟨q.holding trial.held, some ⟨id, rest⟩⟩
  | settle {q : Query} {id : Nat} {alternatives : Alternatives} :
      Move strict ⟨q, some ⟨id, alternatives⟩⟩ ⟨q.settle id alternatives, none⟩
  | unwind {q : Query} {c c' : FrameId} {id : Nat} {choices : ChoiceStack} {frames : Frames}
      (hc : q.frames.Chain q.callee c) (hcatch : q.frames.Catches c)
      (hup : q.frames.Chain c c')
      (h : q.choices.unwindTo q.frames id = some (choices, frames))
      (hlive : c' < frames.size) :
      Move strict ⟨q, none⟩
        ⟨{ q with choices := choices, frames := frames, callee := c', next := .fail }, none⟩
  | handle {q : Query} {c : FrameId} (code : Code) (hc : q.frames.Chain q.callee c)
      (hcatch : q.frames.Catches c) :
      Move strict ⟨q, none⟩ ⟨{ q with callee := c, next := code }, none⟩

/-- Moves one after the other. -/
abbrev Moves (strict : Bool) : Moment → Moment → Prop := Relation.ReflTransGen (Move strict)

/-- Work done by built-ins, one after the other. -/
abbrev Works (strict : Bool) : Query → Query → Prop := Relation.ReflTransGen (Work strict)

theorem Works.moves {strict : Bool} {q q' : Query} (h : Works strict q q')
    (fl : Option Resumption) : Moves strict ⟨q, fl⟩ ⟨q', fl⟩ :=
  Relation.ReflTransGen.lift (fun q => Moment.mk q fl) (fun _ _ h => Move.work h) _ _ h

/-- Work leaves the frames there, the running one as it is, and the code to
run next. -/
theorem Work.steady {strict : Bool} {q q' : Query} (h : Work strict q q') :
    q.frames.Grows q'.frames ∧ q'.callee = q.callee ∧ q'.ancestry = q.ancestry
      ∧ q'.next = q.next := by
  cases h with
  | bind cells hb _ => exact ⟨hb.reslots.grows, rfl, rfl, rfl⟩
  | grow id count => exact ⟨.expand .., rfl, rfl, rfl⟩
  | _ => exact ⟨.refl _, rfl, rfl, rfl⟩

theorem Works.steady {strict : Bool} {q q' : Query} (h : Works strict q q') :
    q.frames.Grows q'.frames ∧ q'.callee = q.callee ∧ q'.ancestry = q.ancestry
      ∧ q'.next = q.next := by
  induction h with
  | refl => exact ⟨.refl _, rfl, rfl, rfl⟩
  | tail _ hw ih =>
    obtain ⟨hg, hc, ha, hn⟩ := hw.steady
    exact ⟨ih.1.trans hg, hc.trans ih.2.1, ha.trans ih.2.2.1, hn.trans ih.2.2.2⟩

/-- Work is the same whatever code is to run next. -/
theorem Work.holding {strict : Bool} {q q' : Query} (h : Work strict q q') (code : Code) :
    Work strict (q.holding code) (q'.holding code) := by
  cases h with
  | bind cells hb hu => exact .bind cells hb hu
  | grow id count => exact .grow id count
  | point alternatives hleaf hopen => exact .point alternatives hleaf hopen
  | collect collectors => exact .collect collectors

theorem Works.holding {strict : Bool} {q q' : Query} (h : Works strict q q') (code : Code) :
    Works strict (q.holding code) (q'.holding code) :=
  Relation.ReflTransGen.lift (Query.holding · code) (fun _ _ h => Work.holding h code) _ _ h

-- ================================================== the same frames, perhaps fewer

namespace Frames

/-- Every frame there is now was there before, but for its slots. -/
def Heads (fs fs' : Frames) : Prop :=
  ∀ i f', fs'.get? i = some f' → ∃ f, fs.get? i = some f ∧ ∃ slots, f' = f.withSlots slots

namespace Heads

theorem refl (fs : Frames) : fs.Heads fs := fun _ f' h => ⟨f', h, f'.slots, rfl⟩

theorem trans {fs₁ fs₂ fs₃ : Frames} (h₁ : fs₁.Heads fs₂) (h₂ : fs₂.Heads fs₃) :
    fs₁.Heads fs₃ := by
  intro i f h
  obtain ⟨f₂, hf₂, slots, rfl⟩ := h₂ _ _ h
  obtain ⟨f₁, hf₁, slots', rfl⟩ := h₁ _ _ hf₂
  exact ⟨f₁, hf₁, slots, rfl⟩

theorem of_reslots {fs fs' : Frames} (h : fs.Reslots fs') : fs.Heads fs' := by
  intro i f' hf'
  obtain ⟨f, hf, heq, -⟩ := h.frame_inv hf'
  exact ⟨f, hf, f'.slots, heq⟩

theorem expand (fs : Frames) (id : FrameId) (count : Nat) : fs.Heads (fs.expand id count).1 := by
  intro i f' hf'
  rw [get?_expand] at hf'
  obtain ⟨f, hf, rfl⟩ := Option.map_eq_some_iff.1 hf'
  refine ⟨f, hf, ?_⟩
  split
  · exact ⟨_, rfl⟩
  · exact ⟨f.slots, rfl⟩

theorem truncate (fs : Frames) (mark : Nat) : fs.Heads (fs.truncate mark) := by
  intro i f' hf'
  rw [get?_truncate] at hf'
  split at hf'
  · exact ⟨f', hf', f'.slots, rfl⟩
  · cases hf'

theorem back (fs : Frames) (trail : List Cell) (mark : Nat) :
    fs.Heads ((fs.undo trail).truncate mark) :=
  (of_reslots (reslots_undo fs trail)).trans (truncate _ mark)

end Heads

/-- The ages of the frames: a frame is younger than all below it and than
its caller, and none is younger than `age`. -/
structure Laddered (fs : Frames) (age : Nat) : Prop where
  callers : ∀ {i f c}, fs.get? i = some f → f.caller = some c → c < i
  ladder : ∀ {i j f g}, fs.get? i = some f → fs.get? j = some g → i < j → f.ancestry < g.ancestry
  top : ∀ {i f}, fs.get? i = some f → f.ancestry ≤ age ∧ f.ordinal ≤ age

namespace Laddered

theorem heads {fs fs' : Frames} {age age' : Nat} (h : fs.Laddered age) (hh : fs.Heads fs')
    (ht : ∀ {i f}, fs'.get? i = some f → f.ancestry ≤ age' ∧ f.ordinal ≤ age') :
    fs'.Laddered age' := by
  refine ⟨fun hf' hc => ?_, fun hf' hg' hij => ?_, ht⟩
  · obtain ⟨f, hf, slots, rfl⟩ := hh _ _ hf'
    exact h.callers hf hc
  · obtain ⟨f, hf, slots, rfl⟩ := hh _ _ hf'
    obtain ⟨g, hg, slots', rfl⟩ := hh _ _ hg'
    simpa using h.ladder hf hg hij

theorem heads_same {fs fs' : Frames} {age : Nat} (h : fs.Laddered age) (hh : fs.Heads fs') :
    fs'.Laddered age := by
  refine h.heads hh fun hf' => ?_
  obtain ⟨f, hf, slots, rfl⟩ := hh _ _ hf'
  simpa using h.top hf

theorem mono {fs : Frames} {age age' : Nat} (h : fs.Laddered age) (ha : age ≤ age') :
    fs.Laddered age' :=
  ⟨h.callers, h.ladder, fun hf => ⟨(h.top hf).1.trans ha, (h.top hf).2.trans ha⟩⟩

theorem ordinal_le {fs : Frames} {age : Nat} (h : fs.Laddered age) (id : FrameId) :
    fs.ordinal id ≤ age := by
  by_cases hid : id < fs.size
  · obtain ⟨f, hf⟩ := exists_get? hid
    rw [ordinal_eq hf]
    exact (h.top hf).2
  · have hn : fs.frames[id]? = none := Array.getElem?_eq_none (Nat.le_of_not_lt hid)
    simp [ordinal, hn]

/-- A frame that is younger than all others joins the ladder. -/
theorem push {fs : Frames} {age : Nat} (h : fs.Laddered age)
    (hfresh : ∀ {i f}, fs.get? i = some f → f.ancestry < age) {caller : FrameId}
    (hc : caller < fs.size) (next : Code) (procedure : Option Procedure) (locals : Nat)
    (base : Option FrameId) :
    (fs.push age (some caller) next procedure locals base).1.Laddered age := by
  have hcases : ∀ {i f}, (fs.push age (some caller) next procedure locals base).1.get? i = some f →
      (i = fs.size ∧ f = fs.entered age (some caller) next procedure locals base)
        ∨ (i < fs.size ∧ fs.get? i = some f) := by
    intro i f hf
    rw [get?_push] at hf
    split at hf
    · rename_i hi
      exact .inl ⟨hi, (Option.some.inj hf).symm⟩
    · exact .inr ⟨lt_size_of_get? hf, hf⟩
  refine ⟨fun hf hcaller => ?_, fun hf hg hij => ?_, fun hf => ?_⟩
  · obtain ⟨rfl, rfl⟩ | ⟨-, hf⟩ := hcases hf
    · cases hcaller
      exact hc
    · exact h.callers hf hcaller
  · obtain ⟨rfl, rfl⟩ | ⟨hi, hf⟩ := hcases hf
    · obtain ⟨rfl, -⟩ | ⟨hj, -⟩ := hcases hg
      · exact absurd hij (lt_irrefl _)
      · exact absurd (hij.trans hj) (lt_irrefl _)
    · obtain ⟨-, rfl⟩ | ⟨-, hg⟩ := hcases hg
      · exact hfresh hf
      · exact h.ladder hf hg hij
  · obtain ⟨-, rfl⟩ | ⟨-, hf⟩ := hcases hf
    · refine ⟨le_rfl, ?_⟩
      cases base with
      | none => exact le_rfl
      | some b => exact h.ordinal_le _
    · exact h.top hf

/-- Going up a chain of callers leads to older frames. -/
theorem le_of_chain {fs : Frames} {age : Nat} (h : fs.Laddered age) {a b : FrameId}
    (hab : fs.Chain a b) : b ≤ a := by
  induction hab with
  | refl => exact le_rfl
  | tail _ hstep ih =>
    obtain ⟨f, hf, hc⟩ := hstep
    exact (h.callers hf hc).le.trans ih

end Laddered

end Frames

/-- Work enters no frame. -/
theorem Work.heads {strict : Bool} {q q' : Query} (h : Work strict q q') :
    q.frames.Heads q'.frames := by
  cases h with
  | bind cells hb _ => exact .of_reslots hb.reslots
  | grow id count => exact .expand _ id count
  | _ => exact .refl _

theorem Works.heads {strict : Bool} {q q' : Query} (h : Works strict q q') :
    q.frames.Heads q'.frames := by
  induction h with
  | refl => exact .refl _
  | tail _ hw ih => exact ih.trans hw.heads

-- ================================================== an orderly stack

namespace Alternatives

/-- Rows are called anew in the frame that called them, at an age that
nothing below their point has reached. Only branches have a scope. -/
def Suits (fs : Frames) (points : List ChoicePoint) (p : ChoicePoint) : Alternatives → Prop
  | .branches _ => True
  | .rows _ _ _ _ caller revision =>
    p.scope = none ∧ caller = p.frame ∧ p.ancestry = revision + 1
      ∧ (∀ {i f}, i < p.mark → fs.get? i = some f → f.ancestry ≤ revision)
      ∧ ∀ p' ∈ points, p'.id < p.id → p'.ancestry ≤ revision
  | _ => p.scope = none

theorem IsLeaf.suits {fs : Frames} {points : List ChoicePoint} {p : ChoicePoint}
    {alternatives : Alternatives} (h : alternatives.IsLeaf) (hp : p.scope = none) :
    alternatives.Suits fs points p := by
  cases alternatives with
  | branches _ | rows _ _ _ _ _ _ => exact h.elim
  | _ => exact hp

/-- What is left after a trial suits the point as well. -/
theorem Suits.next? {fs : Frames} {points : List ChoicePoint} {p : ChoicePoint}
    {alternatives rest : Alternatives} {trial : Trial} (h : alternatives.Suits fs points p)
    (hn : alternatives.next? = some (trial, rest)) : rest.Suits fs points p := by
  unfold Alternatives.next? at hn
  repeat' split at hn
  all_goals first | (cases hn; first | exact h | trivial) | cases hn

/-- Suiting a point is about its frame, its age and what is below it. -/
theorem Suits.congr {fs fs' : Frames} {points points' : List ChoicePoint} {p p' : ChoicePoint}
    {alternatives : Alternatives} (h : alternatives.Suits fs points p) (hp : p.Same p')
    (hframes : ∀ {i f'}, i < p.mark → fs'.get? i = some f' →
      ∃ f, fs.get? i = some f ∧ f'.ancestry = f.ancestry)
    (hpoints : ∀ b' ∈ points', b'.id < p.id →
      ∃ b ∈ points, b.id = b'.id ∧ b.ancestry = b'.ancestry) :
    alternatives.Suits fs' points' p' := by
  cases alternatives with
  | rows snapshot index args next caller revision =>
    obtain ⟨hs, hc, ha, hf, hb⟩ := h
    refine ⟨by rw [hp.scope, hs], by rw [hc, hp.frame], by rw [hp.ancestry, ha], ?_, ?_⟩
    · intro i f' hi hf'
      obtain ⟨f, hf₀, heq⟩ := hframes (by rwa [hp.mark] at hi) hf'
      rw [heq]
      exact hf (by rwa [hp.mark] at hi) hf₀
    · intro b' hb' hid
      rw [hp.id] at hid
      obtain ⟨b, hmem, hbid, hba⟩ := hpoints b' hb' hid
      rw [← hba]
      exact hb b hmem (by rwa [hbid])
  | branches _ => trivial
  | _ => exact hp.scope.trans h

end Alternatives

/-- How a point relates to one further down the stack. -/
def ChoicePoint.Over (p p' : ChoicePoint) : Prop :=
  p'.id < p.id ∧ p'.mark ≤ p.mark ∧ p'.ancestry ≤ p.ancestry

/-- A point that can be resumed: its frame is among those it keeps, all
of which are as old as itself. -/
structure ChoicePoint.Orderly (fs : Frames) (age : Nat) (serial : Nat) (points : List ChoicePoint)
    (p : ChoicePoint) : Prop where
  frame : p.frame < p.mark
  mark : p.mark ≤ fs.size
  age : p.ancestry ≤ age
  id : p.id ≤ serial
  frames : ∀ {i f}, i < p.mark → fs.get? i = some f → f.ancestry ≤ p.ancestry ∧ f.ordinal ≤ p.ancestry
  suits : ∀ {a}, p.alternatives = some a → a.Suits fs points p

/-- A stack whose points can be resumed one after the other. -/
structure Stacked (fs : Frames) (age : Nat) (serial : Nat) (points : List ChoicePoint) : Prop where
  ordered : points.Pairwise ChoicePoint.Over
  point : ∀ p ∈ points, p.Orderly fs age serial points

namespace Stacked

variable {fs fs' : Frames} {age age' serial serial' : Nat} {points points' : List ChoicePoint}

theorem mark_pos (h : Stacked fs age serial points) {p : ChoicePoint} (hp : p ∈ points) :
    0 < p.mark :=
  Nat.zero_lt_of_lt (h.point p hp).frame

/-- Marks against the topmost one. -/
theorem marks {top : ChoicePoint} (h : Stacked fs age serial (top :: points)) :
    ∀ q ∈ top :: points, 0 < q.mark ∧ q.mark ≤ top.mark := by
  intro q hq
  refine ⟨h.mark_pos hq, ?_⟩
  rcases List.mem_cons.1 hq with rfl | hq
  · exact le_rfl
  · exact (List.rel_of_pairwise_cons h.ordered hq).2.1

/-- A point trails every cell of a frame that it keeps. -/
theorem ordinal_le (h : Stacked fs age serial points) {p : ChoicePoint} (hp : p ∈ points)
    {i : FrameId} (hi : i < p.mark) : fs.ordinal i ≤ p.ancestry := by
  have hpt := h.point p hp
  obtain ⟨f, hf⟩ := Frames.exists_get? (hi.trans_le hpt.mark)
  rw [Frames.ordinal_eq hf]
  exact (hpt.frames hi hf).2

/-- Ids tell points apart. -/
theorem eq_of_id (h : Stacked fs age serial points) {p p' : ChoicePoint} (hp : p ∈ points)
    (hp' : p' ∈ points) (hid : p.id = p'.id) : p = p' := by
  by_contra hne
  have hids : points.Pairwise fun p p' => p.id ≠ p'.id := h.ordered.imp fun hp => hp.1.ne'
  have : Std.Symm fun p p' : ChoicePoint => p.id ≠ p'.id := ⟨fun _ _ => Ne.symm⟩
  exact hids.forall hp hp' hne hid

/-- The part of the stack below a point. -/
theorem suffix (h : Stacked fs age serial (points ++ points')) : Stacked fs age serial points' := by
  refine ⟨(List.pairwise_append.1 h.ordered).2.1, fun p hp => ?_⟩
  have hpt := h.point p (List.mem_append_right _ hp)
  refine { hpt with suits := fun ha => (hpt.suits ha).congr (.refl p) ?_ ?_ }
  · exact fun _ hf => ⟨_, hf, rfl⟩
  · exact fun b hb _ => ⟨b, List.mem_append_right _ hb, rfl, rfl⟩

theorem tail {p : ChoicePoint} (h : Stacked fs age serial (p :: points)) :
    Stacked fs age serial points := by
  have h : Stacked fs age serial ([p] ++ points) := h
  exact h.suffix

/-- Slots do not matter, nor do frames that no point keeps. -/
theorem heads (h : Stacked fs age serial points) (hh : fs.Heads fs')
    (hm : ∀ p ∈ points, p.mark ≤ fs'.size) : Stacked fs' age serial points := by
  refine ⟨h.ordered, fun p hp => ?_⟩
  have hpt := h.point p hp
  refine ⟨hpt.frame, hm p hp, hpt.age, hpt.id, fun hi hf' => ?_, fun ha => ?_⟩
  · obtain ⟨f, hf, slots, rfl⟩ := hh _ _ hf'
    simpa using hpt.frames hi hf
  · refine (hpt.suits ha).congr (.refl p) (fun _ hf' => ?_) fun b hb _ => ⟨b, hb, rfl, rfl⟩
    obtain ⟨f, hf, slots, rfl⟩ := hh _ _ hf'
    exact ⟨f, hf, rfl⟩

/-- Entering a frame does not matter either. -/
theorem pushFrame (h : Stacked fs age serial points) (ancestry : Nat) (caller : Option FrameId)
    (next : Code) (procedure : Option Procedure) (locals : Nat) (base : Option FrameId) :
    Stacked (fs.push ancestry caller next procedure locals base).1 age serial points := by
  have hold : ∀ {p i}, p ∈ points → i < p.mark →
      (fs.push ancestry caller next procedure locals base).1.get? i = fs.get? i :=
    fun hp hi => Frames.get?_push_of_lt _ _ _ _ _ _ (hi.trans_le (h.point _ hp).mark)
  refine ⟨h.ordered, fun p hp => ?_⟩
  have hpt := h.point p hp
  refine ⟨hpt.frame, hpt.mark.trans (by simp), hpt.age, hpt.id, fun hi hf => ?_, fun ha => ?_⟩
  · rw [hold hp hi] at hf
    exact hpt.frames hi hf
  · refine (hpt.suits ha).congr (.refl p) (fun hi hf => ?_) fun b hb _ => ⟨b, hb, rfl, rfl⟩
    rw [hold hp hi] at hf
    exact ⟨_, hf, rfl⟩

theorem mono (h : Stacked fs age serial points) (ha : ∀ p ∈ points, p.ancestry ≤ age')
    (hs : ∀ p ∈ points, p.id ≤ serial') : Stacked fs age' serial' points :=
  ⟨h.ordered, fun p hp => { h.point p hp with age := ha p hp, id := hs p hp }⟩

/-- A new point on top. -/
theorem push (h : Stacked fs age serial points) {p : ChoicePoint} (hid : p.id = serial + 1)
    (hmark : p.mark = fs.size) (hframe : p.frame < fs.size) (hage : age ≤ p.ancestry)
    (hframes : ∀ {i f}, fs.get? i = some f → f.ancestry ≤ p.ancestry ∧ f.ordinal ≤ p.ancestry)
    (hsuits : ∀ {a}, p.alternatives = some a → a.Suits fs (p :: points) p) :
    Stacked fs p.ancestry (serial + 1) (p :: points) := by
  refine ⟨List.pairwise_cons.2 ⟨fun q hq => ?_, h.ordered⟩, fun q hq => ?_⟩
  · have hpt := h.point q hq
    exact ⟨by have := hpt.id; omega, by have := hpt.mark; omega, hpt.age.trans hage⟩
  · rcases List.mem_cons.1 hq with rfl | hq
    · exact ⟨hmark ▸ hframe, hmark.le, le_rfl, hid.le, fun _ hf => hframes hf, hsuits⟩
    · have hpt := h.point q hq
      refine { hpt with
        age := hpt.age.trans hage
        id := hpt.id.trans (Nat.le_succ _)
        suits := fun ha => (hpt.suits ha).congr (.refl q) (fun _ hf => ⟨_, hf, rfl⟩) ?_ }
      intro b hb hlt
      rcases List.mem_cons.1 hb with rfl | hb
      · have := hpt.id
        omega
      · exact ⟨b, hb, rfl, rfl⟩

/-- Points may change their trails and their alternatives, if the new
alternatives suit them. -/
theorem congr (h : Stacked fs age serial points)
    (hs : List.Forall₂ ChoicePoint.Same points points')
    (ha : ∀ p' ∈ points', ∀ a, p'.alternatives = some a →
      ∃ p ∈ points, p.Same p' ∧ a.Suits fs points p) :
    Stacked fs age serial points' := by
  have hleft := exists_left_of_forall₂ hs
  refine ⟨?_, fun p' hp' => ?_⟩
  · have hover := h.ordered
    clear h ha hleft
    induction hs with
    | nil => exact .nil
    | cons hp hrest ih =>
      rw [List.pairwise_cons] at hover ⊢
      refine ⟨fun q' hq' => ?_, ih hover.2⟩
      obtain ⟨q, hq, hsame⟩ := exists_left_of_forall₂ hrest q' hq'
      obtain ⟨hid, hmark, hanc⟩ := hover.1 q hq
      exact ⟨by rwa [hsame.id, hp.id], by rwa [hsame.mark, hp.mark],
        by rwa [hsame.ancestry, hp.ancestry]⟩
  · obtain ⟨p, hp, hsame⟩ := hleft p' hp'
    have hpt := h.point p hp
    refine ⟨by rw [hsame.frame, hsame.mark]; exact hpt.frame, by rw [hsame.mark]; exact hpt.mark,
      by rw [hsame.ancestry]; exact hpt.age, by rw [hsame.id]; exact hpt.id, fun hi hf => ?_,
      fun halt => ?_⟩
    · rw [hsame.mark] at hi
      rw [hsame.ancestry]
      exact hpt.frames hi hf
    · obtain ⟨q, hq, hqsame, hsuits⟩ := ha p' hp' _ halt
      refine hsuits.congr hqsame (fun _ hf => ⟨_, hf, rfl⟩) fun b' hb' _ => ?_
      obtain ⟨b, hb, hbsame⟩ := hleft b' hb'
      exact ⟨b, hb, hbsame.id.symm, hbsame.ancestry.symm⟩

theorem samePoints (h : Stacked fs age serial points) (hp : SamePoints points points') :
    Stacked fs age serial points' := by
  refine h.congr (hp.imp fun _ _ hs => hs.same) fun p' hp' a ha => ?_
  obtain ⟨p, hmem, hs⟩ := exists_left_of_forall₂ hp p' hp'
  exact ⟨p, hmem, hs.same, (h.point p hmem).suits (hs.alternatives ▸ ha)⟩

end Stacked

-- ================================================== orderly moments

/-- What holds of every moment of a run, whatever the program: the frames
are laddered by age and the points stacked; alternatives in flight belong
to a point of the stack which is as old as the moment. -/
structure Moment.Orderly (x : Moment) : Prop where
  live : x.query.callee < x.query.frames.size
  frames : x.query.frames.Laddered x.query.ancestry
  points : Stacked x.query.frames x.query.ancestry x.query.choices.serial x.query.choices.points
  flight : ∀ {r}, x.flight = some r → ∃ p ∈ x.query.choices.points, p.id = r.id
    ∧ p.ancestry = x.query.ancestry
    ∧ r.alternatives.Suits x.query.frames x.query.choices.points p

/-- Alternatives in flight aside, the moment is orderly too. -/
theorem Moment.Orderly.grounded {q : Query} {fl : Option Resumption}
    (h : Moment.Orderly ⟨q, fl⟩) : Moment.Orderly ⟨q, none⟩ :=
  { h with flight := fun hr => (nomatch hr) }

/-- The start of a query. -/
theorem orderly_start (entry : Clause) : Moment.Orderly ⟨Query.start entry, none⟩ := by
  have hget : ∀ {i f}, (Query.start entry).frames.get? i = some f →
      i = 0 ∧ f.ancestry = 1 ∧ f.ordinal = 1 ∧ f.caller = none := by
    intro i f hf
    simp only [Query.start, Frames.push, Frames.get?, Frames.size, Array.getElem?_push] at hf
    split at hf
    · rename_i hi
      cases hf
      exact ⟨hi, rfl, rfl, rfl⟩
    · simp at hf
  refine ⟨Nat.one_pos, ⟨fun hf hc => ?_, fun hf hg hij => ?_, fun hf => ?_⟩,
    ⟨.nil, fun p hp => absurd hp (List.not_mem_nil)⟩, fun hr => ?_⟩
  · rw [(hget hf).2.2.2] at hc
    cases hc
  · rw [(hget hf).1, (hget hg).1] at hij
    exact absurd hij (lt_irrefl _)
  · obtain ⟨-, ha, ho, -⟩ := hget hf
    exact ⟨ha.le, ho.le⟩
  · cases hr

namespace Moment.Orderly

variable {strict : Bool}

/-- A change of slots, and of trails, keeps a moment orderly. -/
theorem reslot {q q' : Query} {fl : Option Resumption} (h : Orderly ⟨q, fl⟩)
    (hh : q.frames.Heads q'.frames) (hsize : q'.frames.size = q.frames.size)
    (hcallee : q'.callee = q.callee) (hage : q'.ancestry = q.ancestry)
    (hserial : q'.choices.serial = q.choices.serial)
    (hpoints : SamePoints q.choices.points q'.choices.points) : Orderly ⟨q', fl⟩ := by
  have hleft := exists_left_of_forall₂ hpoints
  refine ⟨?_, ?_, ?_, fun hr => ?_⟩
  · show q'.callee < q'.frames.size
    rw [hcallee, hsize]
    exact h.live
  · show q'.frames.Laddered q'.ancestry
    rw [hage]
    exact h.frames.heads_same hh
  · show Stacked q'.frames q'.ancestry q'.choices.serial q'.choices.points
    rw [hage, hserial]
    exact (h.points.heads hh fun p hp => hsize ▸ (h.points.point p hp).mark).samePoints hpoints
  · obtain ⟨p, hp, hid, hanc, hsuits⟩ := h.flight hr
    obtain ⟨p', hp', hs⟩ := exists_left_of_forall₂ hpoints.flip p hp
    have hs : p.SameButTrail p' := hs
    refine ⟨p', hp', hs.same.id.trans hid, hs.same.ancestry.trans (hanc.trans hage.symm), ?_⟩
    refine hsuits.congr hs.same (fun _ hf' => ?_) fun b' hb' _ => ?_
    · obtain ⟨f, hf, slots, rfl⟩ := hh _ _ hf'
      exact ⟨f, hf, rfl⟩
    · obtain ⟨b, hb, hbs⟩ := hleft b' hb'
      exact ⟨b, hb, hbs.same.id.symm, hbs.same.ancestry.symm⟩

/-- With nothing in flight, any orderly stack will do. -/
theorem onto {q : Query} (h : Orderly ⟨q, none⟩) {points : List ChoicePoint}
    (hp : Stacked q.frames q.ancestry q.choices.serial points) :
    Orderly ⟨{ q with choices := { q.choices with points := points } }, none⟩ :=
  ⟨h.live, h.frames, hp, fun hr => (nomatch hr)⟩

theorem recorded {q : Query} {fl : Option Resumption} (h : Orderly ⟨q, fl⟩) (fs : Frames)
    (cells : List Cell) : Orderly ⟨{ q with choices := q.choices.recordAll fs cells }, fl⟩ :=
  h.reslot (.refl _) rfl rfl rfl (ChoiceStack.serial_recordAll ..)
    (ChoiceStack.samePoints_recordAll ..)

/-- Code is no part of what is orderly, and the running frame may be any
that is there. -/
theorem goto {q : Query} {fl : Option Resumption} (h : Orderly ⟨q, fl⟩) {c : FrameId}
    (hc : c < q.frames.size) (code : Code) :
    Orderly ⟨{ q with next := code, callee := c }, fl⟩ :=
  ⟨hc, h.frames, h.points, h.flight⟩

/-- A point may be left that is as old as the moment. -/
theorem point {q : Query} {fl : Option Resumption} (h : Orderly ⟨q, fl⟩) (scope : Option Nat)
    (alternatives : Alternatives)
    (hs : ∀ p points, p.scope = scope → alternatives.Suits q.frames points p) :
    Orderly ⟨{ q with
      choices := q.choices.push q.callee q.ancestry q.frames.size scope alternatives }, fl⟩ := by
  refine ⟨h.live, h.frames, ?_, fun hr => ?_⟩
  · refine h.points.push (p := ⟨q.choices.serial + 1, q.callee, q.ancestry, scope,
      q.frames.size, some alternatives, []⟩) rfl rfl h.live le_rfl (fun hf => h.frames.top hf) ?_
    intro a ha
    cases ha
    exact hs _ _ rfl
  · obtain ⟨p, hp, hid, hanc, hsuits⟩ := h.flight hr
    refine ⟨p, List.mem_cons_of_mem _ hp, hid, hanc, ?_⟩
    refine hsuits.congr (.refl p) (fun _ hf => ⟨_, hf, rfl⟩) fun b hb hlt => ?_
    rcases List.mem_cons.1 hb with rfl | hb
    · have hle : p.id ≤ q.choices.serial := (h.points.point p hp).id
      have hlt : q.choices.serial + 1 < p.id := hlt
      omega
    · exact ⟨b, hb, rfl, rfl⟩

/-- A frame may be entered that is younger than all others. -/
theorem enter {q : Query} {fl : Option Resumption} (h : Orderly ⟨q, fl⟩) (hf : q.Fresh)
    (procedure : Option Procedure) (locals : Nat) (base : Option FrameId) :
    Orderly ⟨{ q with
      frames := (q.frames.push q.ancestry (some q.callee) q.next procedure locals base).1
      callee := q.frames.size }, fl⟩ := by
  refine ⟨?_, h.frames.push hf.frames h.live _ _ _ _, h.points.pushFrame .., fun hr => ?_⟩
  · show q.frames.size < _
    rw [Frames.size_push]
    exact Nat.lt_succ_self _
  · obtain ⟨p, hp, hid, hanc, hsuits⟩ := h.flight hr
    refine ⟨p, hp, hid, hanc, hsuits.congr (.refl p) (fun hi hf => ?_) fun b hb _ =>
      ⟨b, hb, rfl, rfl⟩⟩
    rw [Frames.get?_push_of_lt _ _ _ _ _ _ (hi.trans_le (h.points.point p hp).mark)] at hf
    exact ⟨_, hf, rfl⟩

/-- So may the frame of a guarded goal, and its barrier be left. -/
theorem guard {q : Query} {fl : Option Resumption} (h : Orderly ⟨q, fl⟩) (hf : q.Fresh)
    (catcher handler : Term) : Orderly ⟨q.guard catcher handler, fl⟩ := by
  have hp := (h.enter hf (some (.framed .guarded)) 3 none).point none .barrier fun _ _ hs => hs
  have hr := q.frames.reslots_pushGuarded q.ancestry q.callee q.next catcher handler
    (q.choices.serial + 1)
  refine hp.reslot (.of_reslots hr) hr.size rfl rfl rfl ?_
  rw [Frames.size_push]
  exact .refl _

/-- A call makes the moment older by one. -/
theorem aged {q : Query} (h : Orderly ⟨q, none⟩) (code : Code) :
    Orderly ⟨{ q with ancestry := q.ancestry + 1, next := code }, none⟩ :=
  ⟨h.live, h.frames.mono (Nat.le_succ _),
    h.points.mono (fun p hp => (h.points.point p hp).age.trans (Nat.le_succ _))
      fun p hp => (h.points.point p hp).id,
    fun hr => (nomatch hr)⟩

/-- The arena is cut back to a point of the stack. -/
theorem back {q : Query} (h : Orderly ⟨q, none⟩) {above below : List ChoicePoint}
    {p : ChoicePoint} (hpoints : q.choices.points = above ++ p :: below) (trail : List Cell) :
    ((q.frames.undo trail).truncate p.mark).size = p.mark
      ∧ ((q.frames.undo trail).truncate p.mark).Laddered p.ancestry
      ∧ Stacked ((q.frames.undo trail).truncate p.mark) p.ancestry q.choices.serial (p :: below) := by
  have hst := h.points
  rw [hpoints] at hst
  have hst : Stacked q.frames q.ancestry q.choices.serial (p :: below) := hst.suffix
  have hpt := hst.point p List.mem_cons_self
  have hheads := Frames.Heads.back q.frames trail p.mark
  have hsize : ((q.frames.undo trail).truncate p.mark).size = p.mark := by
    have hpos : 0 < p.mark := Nat.zero_lt_of_lt hpt.frame
    rw [Frames.size_truncate, Frames.size_undo, Nat.max_eq_left hpos, Nat.min_eq_left hpt.mark]
  have hrel : ∀ b ∈ p :: below, b.mark ≤ p.mark ∧ b.ancestry ≤ p.ancestry := by
    intro b hb
    rcases List.mem_cons.1 hb with rfl | hb
    · exact ⟨le_rfl, le_rfl⟩
    · exact (List.rel_of_pairwise_cons hst.ordered hb).2
  refine ⟨hsize, h.frames.heads hheads fun hf' => ?_, ?_⟩
  · have hlt := Frames.lt_size_of_get? hf'
    rw [hsize] at hlt
    obtain ⟨f, hf, slots, rfl⟩ := hheads _ _ hf'
    simpa using hpt.frames hlt hf
  · exact (hst.heads hheads fun b hb => hsize.symm ▸ (hrel b hb).1).mono (fun b hb => (hrel b hb).2)
      fun b hb => (hst.point b hb).id

/-- Unwinding, with any frame that stays as the running one. -/
theorem unwind {q : Query} (h : Orderly ⟨q, none⟩) {id : Nat} {choices : ChoiceStack}
    {frames : Frames} (hu : q.choices.unwindTo q.frames id = some (choices, frames)) {c : FrameId}
    (hlive : c < frames.size) : Orderly ⟨{ q with choices, frames, callee := c }, none⟩ := by
  obtain ⟨above, p, below, hpts, -, rfl, rfl⟩ := ChoiceStack.unwindTo_split hu
  obtain ⟨-, -, hst⟩ := h.back hpts (trails (above ++ [p]))
  have hage := (h.points.point p (hpts ▸ by simp)).age
  have hbelow := hst.tail
  refine ⟨hlive, h.frames.heads_same (.back _ _ _), ?_, fun hr => (nomatch hr)⟩
  exact hbelow.mono (fun b hb => (hbelow.point b hb).age.trans hage)
    fun b hb => (hbelow.point b hb).id

end Moment.Orderly

/-- Built-ins keep a moment orderly. -/
theorem Work.orderly {strict : Bool} {q q' : Query} (h : Work strict q q')
    {fl : Option Resumption} (ho : Moment.Orderly ⟨q, fl⟩) : Moment.Orderly ⟨q', fl⟩ := by
  cases h with
  | bind cells hb hu =>
    exact ho.reslot (.of_reslots hb.reslots) hb.reslots.size rfl rfl
      (ChoiceStack.serial_recordAll ..) (ChoiceStack.samePoints_recordAll ..)
  | grow id count =>
    exact ho.reslot (.expand _ _ _) (Frames.size_expand ..) rfl rfl rfl (.refl _)
  | point alternatives hleaf _ => exact ho.point none alternatives fun _ _ => hleaf.suits
  | collect _ => exact ⟨ho.live, ho.frames, ho.points, ho.flight⟩

/-- Putting back what is left of the alternatives in flight. -/
theorem Moment.Orderly.restored {q : Query} {r : Resumption} (h : Orderly ⟨q, some r⟩) :
    Stacked q.frames q.ancestry q.choices.serial
      (q.choices.restore r.id r.alternatives).points := by
  obtain ⟨p, hp, hid, -, hsuits⟩ := h.flight rfl
  have hrestore := q.choices.forall₂_restore r.id r.alternatives
  refine h.points.congr (hrestore.imp fun a b hab => ?_) fun b hb a ha => ?_
  · rcases hab with rfl | ⟨-, rfl⟩
    · exact .refl _
    · exact ⟨rfl, rfl, rfl, rfl, rfl⟩
  · obtain ⟨p', hp', rfl | ⟨hid', rfl⟩⟩ := exists_left_of_forall₂ hrestore b hb
    · exact ⟨_, hp', .refl _, (h.points.point _ hp').suits ha⟩
    · cases Option.some.inj ha
      rw [h.points.eq_of_id hp' hp (hid'.trans hid.symm)]
      exact ⟨p, hp, ⟨rfl, rfl, rfl, rfl, rfl⟩, hsuits⟩

theorem Moment.Orderly.settle {q : Query} {r : Resumption} (h : Orderly ⟨q, some r⟩) :
    Orderly ⟨q.settle r.id r.alternatives, none⟩ := by
  have hst := h.restored
  have hdone : Orderly ⟨{ q with choices := q.choices.restore r.id r.alternatives }, none⟩ :=
    ⟨h.live, h.frames, hst, fun hr => (nomatch hr)⟩
  unfold Query.settle
  dsimp only
  split
  · exact hdone
  · obtain ⟨top, rest, hpts, -, hdrop⟩ | hdrop :=
      (q.choices.restore r.id r.alternatives).dropTop_cases q.frames r.id
    · rw [hdrop]
      rw [hpts] at hst
      exact (hdone.onto hst.tail).recorded _ _
    · rw [hdrop]
      exact hdone

/-- Going back to a point, with its alternatives or part of them in
flight. -/
theorem Moment.Orderly.retreat {q q' : Query} {r : Resumption} (ho : Orderly ⟨q, none⟩)
    (h : q.retreat = (some r, q')) {rest : Alternatives}
    (hrest : ∀ {fs points p}, r.alternatives.Suits fs points p → rest.Suits fs points p) :
    Orderly ⟨q', some ⟨r.id, rest⟩⟩ := by
  obtain ⟨above, p, below, hpts, hid, halt, -, -, rfl⟩ := Query.retreat_split h
  obtain ⟨hsize, hladder, hst⟩ := ho.back hpts (trails (above ++ [p]))
  have hpt := hst.point p List.mem_cons_self
  have hsame : ∀ b ∈ ({ p with alternatives := none, trail := [] } : ChoicePoint) :: below,
      ∃ b' ∈ p :: below, b'.Same b ∧ ∀ a, b.alternatives = some a → b'.alternatives = some a := by
    intro b hb
    rcases List.mem_cons.1 hb with rfl | hb
    · exact ⟨p, List.mem_cons_self, ⟨rfl, rfl, rfl, rfl, rfl⟩, fun a ha => (nomatch ha)⟩
    · exact ⟨b, List.mem_cons_of_mem _ hb, .refl b, fun a ha => ha⟩
  refine ⟨?_, hladder, ?_, fun hr => ?_⟩
  · show p.frame < ((_ : Frames).truncate p.mark).size
    rw [hsize]
    exact hpt.frame
  · refine hst.congr (.cons ⟨rfl, rfl, rfl, rfl, rfl⟩ (List.forall₂_same.2 fun b _ => .refl b)) ?_
    intro b hb a ha
    obtain ⟨b', hb', hbs, hba⟩ := hsame b hb
    exact ⟨b', hb', hbs, (hst.point b' hb').suits (hba a ha)⟩
  · cases Option.some.inj hr
    refine ⟨_, List.mem_cons_self, hid, rfl, hrest ?_⟩
    refine (hpt.suits halt).congr ⟨rfl, rfl, rfl, rfl, rfl⟩ (fun _ hf => ⟨_, hf, rfl⟩) ?_
    intro b hb _
    obtain ⟨b', hb', hbs, -⟩ := hsame b hb
    exact ⟨b', hb', hbs.id.symm, hbs.ancestry.symm⟩

/-- Every move keeps a moment orderly. -/
theorem Move.orderly {strict : Bool} {x y : Moment} (h : Move strict x y) (ho : x.Orderly) :
    y.Orderly := by
  cases h with
  | work h => exact h.orderly ho
  | fail => exact ho.goto ho.live _
  | skip _ => exact ho.goto ho.live _
  | sole _ => exact ho.goto ho.live _
  | choose _ => exact (ho.point _ (.branches _) fun _ _ _ => trivial).goto ho.live _
  | cut _ =>
    rename_i q scope next _
    obtain ⟨gone, kept, cells, hpts, -, -, hcut⟩ :=
      q.choices.cut_split q.frames (q.frames.ancestry q.callee) (scope.map (·, q.callee))
    rw [hcut]
    have hst := ho.points
    rw [hpts] at hst
    exact (((ho.onto hst.suffix).recorded _ _).goto ho.live _)
  | leave _ hf hc =>
    exact ho.goto ((ho.frames.callers hf hc).trans ho.live) _
  | call _ => exact ho.aged _
  | select rows _ =>
    rename_i q target args next _
    refine ⟨ho.live, ho.frames.mono (Nat.le_succ _), ?_, fun hr => (nomatch hr)⟩
    refine ho.points.push (p := ⟨q.choices.serial + 1, q.callee, q.ancestry + 1, none,
      q.frames.size, some (.rows rows 1 args next q.callee q.ancestry), []⟩)
      rfl rfl ho.live (Nat.le_succ _) (fun hf => ?_) fun {a} ha => ?_
    · exact ⟨(ho.frames.top hf).1.trans (Nat.le_succ _), (ho.frames.top hf).2.trans (Nat.le_succ _)⟩
    · cases Option.some.inj ha
      refine ⟨rfl, rfl, rfl, fun _ hf => (ho.frames.top hf).1, fun p' hp' hlt => ?_⟩
      rcases List.mem_cons.1 hp' with rfl | hp'
      · exact absurd hlt (lt_irrefl _)
      · exact (ho.points.point p' hp').age
  | enter procedure locals base code hfresh _ =>
    have hentered := ho.enter hfresh procedure locals base
    exact hentered.goto hentered.live code
  | guard catcher handler code hfresh =>
    have hguard := ho.guard hfresh catcher handler
    exact hguard.goto hguard.live code
  | branch h =>
    rename_i q q' id code rest
    have hback : Moment.Orderly ⟨q', some ⟨id, .branches rest⟩⟩ := ho.retreat h fun _ => trivial
    exact hback.settle.goto hback.settle.live _
  | resume h _ => exact (ho.retreat h id).goto (ho.retreat h id).live _
  | attempt _ hn =>
    refine ⟨ho.live, ho.frames, ho.points, fun hr => ?_⟩
    cases Option.some.inj hr
    obtain ⟨p, hp, hid, hanc, hsuits⟩ := ho.flight rfl
    exact ⟨p, hp, hid, hanc, hsuits.next? hn⟩
  | settle => exact ho.settle
  | unwind _ _ _ h hlive =>
    exact (ho.unwind h hlive).goto hlive _
  | handle code hc _ => exact ho.goto ((ho.frames.le_of_chain hc).trans_lt ho.live) _

theorem Moves.orderly {strict : Bool} {x y : Moment} (h : Moves strict x y) (ho : x.Orderly) :
    y.Orderly := by
  induction h with
  | refl => exact ho
  | tail _ hm ih => exact hm.orderly ih

end LogicMachine
