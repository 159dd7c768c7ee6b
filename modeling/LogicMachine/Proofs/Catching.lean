/-
Catching errors.

An error is offered to the frames on the chain of callers. A guarded goal
unwinds to its barrier before it looks at the ball, which drops frames; the
frame of the goal itself is among those that stay, or else the offer goes
on at the first caller that has stayed. So the query that catches the error
has come from the one that failed by moves.
-/
import LogicMachine.Proofs.Running

namespace LogicMachine

/-- An error that arose in the query is offered to the frame `c`: but for
the running frame, the query has come from `x` and is to fail. -/
def Query.Awaits (strict : Bool) (x : Moment) (q : Query) (c : FrameId) : Prop :=
  ∃ callee, Query.Got strict x { q with callee := callee } .fail ∧ q.frames.Chain callee c

/-- How an offer to the frame `f` of the query `q₀` may end: with code to
go on with, or ready for the caller of the frame. No frame is entered. -/
def Query.Answered (strict : Bool) (x : Moment) (f : Frame) (q₀ : Query) :
    Option Code → Query → Prop
  | some code, q => q.Got strict x code ∧ q₀.frames.Heads q.frames
  | none, q => q.Rests strict ∧ q₀.frames.Heads q.frames
    ∧ q.choices.serial = q₀.choices.serial
    ∧ ∀ c, f.caller = some c → strict = true ∨ c < q.frames.size → q.Awaits strict x c

/-- How an offer to a frame of the query `q₀` may fail. -/
def Query.Faulted (strict : Bool) (q₀ q : Query) : Prop :=
  q.Rests strict ∧ q₀.frames.Heads q.frames

namespace Query.Awaits

variable {strict : Bool} {x : Moment} {q : Query} {c : FrameId} {f : Frame}

theorem lt_size (h : q.Awaits strict x c) : c < q.frames.size := by
  obtain ⟨k, hgot, hchain⟩ := h
  exact (hgot.sound.orderly.frames.le_of_chain hchain).trans_lt hgot.sound.orderly.live

theorem sound (h : q.Awaits strict x c) (hc : q.callee = c) : q.Sound strict := by
  have hlt := h.lt_size
  obtain ⟨k, hgot, hchain⟩ := h
  exact hgot.sound.goto (hc ▸ hlt) q.next

/-- The frame did not take the ball, and nothing has changed. -/
theorem passed (h : q.Awaits strict x c) (hc : q.callee = c) (hf : q.frames.get? c = some f) :
    q.Answered strict x f none q := by
  refine ⟨(h.sound hc).rests, .refl _, rfl, fun c' hc' _ => ?_⟩
  obtain ⟨k, hgot, hchain⟩ := h
  exact ⟨k, hgot, hchain.tail ⟨f, hf, hc'⟩⟩

/-- The frame takes the ball where it stands. -/
theorem handled (h : q.Awaits strict x c) (hc : q.callee = c) (hcatch : q.frames.Catches c)
    {code : Code} (hcode : q.Executes strict code) : q.Got strict x code := by
  have hsound := h.sound hc
  obtain ⟨k, hgot, hchain⟩ := h
  subst hc
  exact ⟨hgot.moves.tail (.handle code hchain hcatch), hsound, hcode⟩

/-- Wherever unwinding leads, the root frame stays. -/
theorem rooted (h : q.Awaits strict x c) {id : Nat} {choices : ChoiceStack} {frames : Frames}
    (hu : q.choices.unwindTo q.frames id = some (choices, frames)) :
    Query.Sound strict { q with choices, frames, callee := root } := by
  have hlt := h.lt_size
  obtain ⟨k, hgot, -⟩ := h
  obtain ⟨_, _, _, -, -, -, hframes⟩ := ChoiceStack.unwindTo_split hu
  refine hgot.sound.unwind (q := { q with callee := k }) hu ?_
  rw [hframes, Frames.size_truncate, Frames.size_undo]
  exact Nat.lt_min.2 ⟨Nat.lt_of_lt_of_le Nat.one_pos (Nat.le_max_right _ _), Nat.zero_lt_of_lt hlt⟩

/-- Unwinding leads to a caller of the guarded goal that has stayed. -/
theorem unwound (h : q.Awaits strict x c) (hg : q.frames.Catches c) {c' : FrameId}
    (hup : q.frames.Chain c c') {id : Nat} {choices : ChoiceStack} {frames : Frames}
    (hu : q.choices.unwindTo q.frames id = some (choices, frames)) (hlive : c' < frames.size) :
    Query.Got strict x { q with choices, frames, callee := c' } .fail := by
  obtain ⟨k, hgot, hchain⟩ := h
  exact ⟨hgot.moves.tail (.unwind hchain hg hup hu hlive),
    hgot.sound.unwind (q := { q with callee := k }) hu hlive, executes_fail⟩

end Query.Awaits

namespace Act

section

variable {μ : Rigor} {x : Moment} {q : Query} {c : FrameId} {f : Frame} {ball : Term}

/-- What a slot of the running frame holds can be read. -/
theorem live_of_value? (hq : q.Sound μ.strict) {slot : Nat} {t : Term}
    (h : q.frames.value? c slot = some t) : t.Live (q.frames.world μ.strict) := by
  obtain ⟨s, hs, hv⟩ := Option.bind_eq_some_iff.1 h
  exact hq.arena.value hs (.inl hv)

/-- Once unwound, a guarded goal unifies its catcher with a copy of the
ball. -/
theorem does_take (hgot : q.Got μ.strict x .fail) (hc : q.callee = c)
    (hf : q.frames.get? c = some f) (hg : f.procedure = some (.framed .guarded))
    (hball : ball.Fits .all anyVars) {catcher handler : Term}
    (hcatcher : catcher.Live (q.frames.world μ.strict))
    (hhandler : handler.Live (q.frames.world μ.strict)) :
    Does μ q (do
      let ball ← rebind ball
      if ← unify catcher ball then return some (Code.run .call [handler] .succeed)
      else return none)
      (fun r q' => q.Answered μ.strict x f r q') fun q' => q.Faulted μ.strict q' := by
  have htry : Tries μ q (do
      let ball ← rebind ball
      unify catcher ball) fun _ _ => True :=
    (tries_rebind hgot.sound hball).bind fun copy q₁ h₁ hcopy =>
      tries_unify h₁.sound (h₁.live hcatcher) hcopy
  have hbind : (do
      let ball ← rebind ball
      if ← unify catcher ball then return some (Code.run .call [handler] .succeed)
      else return none : Act (Option Code))
      = (do
        let ball ← rebind ball
        unify catcher ball) >>= fun ok =>
          if ok = true then pure (some (Code.run .call [handler] .succeed)) else pure none := by
    rw [bind_assoc]
  rw [hbind]
  refine (htry.mono (fun _ _ h => h) fun q' h => ⟨h.sound.rests, h.works.heads⟩).bind
    fun ok q' ⟨h, _⟩ => ?_
  have hgot' : q'.Got μ.strict x .fail :=
    hgot.goes ((Query.Goes.refl hgot.sound hgot.executes).effect h.toEffect)
  obtain ⟨hgrows, hcallee, -, -⟩ := h.works.steady
  obtain ⟨slots, hf', -⟩ := hgrows.frame hf
  rw [← hc, ← hcallee] at hf'
  cases ok with
  | true =>
    refine .pure ⟨⟨hgot'.moves.tail (.handle _ .refl ⟨_, hf', .inl hg⟩), h.sound, ?_⟩, h.works.heads⟩
    exact executes_run_call (h.live hhandler) (h.sound.frame_owner h.sound.orderly.live)
      executes_succeed
  | false =>
    refine .pure ⟨h.sound.rests, h.works.heads, h.serial,
      fun c' hc' _ => ⟨q'.callee, hgot', ?_⟩⟩
    exact .single ⟨_, hf', hc'⟩

theorem does_unwindTo (q : Query) (id : Nat) {fails : Query → Prop} :
    Does μ q (unwindTo id) (fun ok q' => ok = false ∧ q' = q
      ∨ ∃ choices frames, q.choices.unwindTo q.frames id = some (choices, frames) ∧ ok = true
        ∧ q' = { q with choices, frames }) fails := by
  refine ⟨fun env db _ hdb => ?_⟩
  simp only [unwindTo, modifyGet_apply]
  cases hu : q.choices.unwindTo q.frames id with
  | none => exact ⟨hdb, .inl ⟨rfl, rfl⟩⟩
  | some back => exact ⟨hdb, .inr ⟨back.1, back.2, rfl, rfl, rfl⟩⟩

/-- A guarded goal is offered a ball. -/
theorem does_catchBall (hx : x.Orderly) (hpledged : μ.strict = true → x.Pledged)
    (h : q.Awaits μ.strict x c) (hserial : μ.strict = true → q.choices.serial < 2 ^ 64)
    (hc : q.callee = c) (hf : q.frames.get? c = some f)
    (hg : f.procedure = some (.framed .guarded)) (hball : ball.Fits .all anyVars) :
    Does μ q (Control.catchBall ball)
      (fun r q' => q.Answered μ.strict x f r q') fun q' => q.Faulted μ.strict q' := by
  have hpassed := h.passed hc hf
  refine .get_bind fun db _ => .get_bind fun db _ => ?_
  dsimp only
  split
  · rename_i barrier hbarrier
    refine (does_unwindTo q _).bind fun ok q₁ hu => ?_
    obtain ⟨rfl, rfl⟩ | ⟨choices, frames, hu, rfl, rfl⟩ := hu
    · exact .pure hpassed
    · simp only [Bool.not_true]
      refine .get_bind fun db _ => ?_
      have hcatch : q.frames.Catches c := ⟨f, hf, .inl hg⟩
      obtain ⟨_, _, _, -, -, hchoices, hframes⟩ := ChoiceStack.unwindTo_split hu
      have hserial' : choices.serial = q.choices.serial := by rw [hchoices]
      have hheads : q.frames.Heads frames := hframes ▸ Frames.Heads.back _ _ _
      by_cases hlive : c < frames.size
      · -- the frame has stayed, with all that it holds
        have hgot : Query.Got μ.strict x { q with choices, frames } .fail := by
          have hgot := h.unwound hcatch .refl hu hlive
          rwa [← hc] at hgot
        obtain ⟨f', hf'⟩ := Frames.exists_get? hlive
        obtain ⟨f₀, hf₀, slots, rfl⟩ := hheads c f' hf'
        obtain rfl : f = f₀ := Option.some.inj (hf.symm.trans hf₀)
        split
        · rename_i catcher handler hcatcher hhandler
          have hdoes := does_take (f := f.withSlots slots) hgot hc hf' hg hball
            (live_of_value? hgot.sound hcatcher) (live_of_value? hgot.sound hhandler)
          refine hdoes.mono (fun r q' hr => ?_) fun q' hq' => ⟨hq'.1, hheads.trans hq'.2⟩
          cases r with
          | some code => exact ⟨hr.1, hheads.trans hr.2⟩
          | none => exact ⟨hr.1, hheads.trans hr.2.1, hr.2.2.1.trans hserial', hr.2.2.2⟩
        · exact .pure ⟨hgot.sound.rests, hheads, hserial', fun c' hc' _ =>
            ⟨c, hc ▸ hgot, .single ⟨_, hf', hc'⟩⟩⟩
      · -- the frame is gone, so that its slots show nothing
        have hshown : frames.value? q.callee Control.catcherSlot = none := by
          have hle := Nat.le_of_not_lt hlive
          rw [Frames.value?, hc, Frames.owner_of_le hle, Frames.slot?_eq]
          have hnone : frames.get? c = none := Array.getElem?_eq_none hle
          rw [hnone]
          rfl
        simp only [hshown]
        have hloose : μ.strict ≠ true := fun hs => by
          obtain ⟨k, hk, hchain⟩ := h
          rw [hs] at hk
          exact hlive ((Moves.pledged hk.moves hx (hpledged hs)).lt_unwindTo
            (hk.moves.orderly hx) (hserial hs) hf hg (hc ▸ hbarrier) hu)
        refine .pure ⟨⟨Query.root, h.rooted hu, fun hs => absurd hs hloose⟩, hheads, hserial',
          fun c' hc' hor => ⟨c', ?_, .refl⟩⟩
        exact h.unwound hcatch (.single ⟨f, hf, hc'⟩) hu (hor.resolve_left hloose)
  · exact .pure hpassed

/-- Whatever procedure the frame runs. -/
theorem does_procedureCatch (hx : x.Orderly) (hpledged : μ.strict = true → x.Pledged)
    (h : q.Awaits μ.strict x c) (hserial : μ.strict = true → q.choices.serial < 2 ^ 64)
    (hc : q.callee = c) (hf : q.frames.get? c = some f) (hball : ball.Fits .all anyVars)
    {procedure : Procedure} (hp : f.procedure = some procedure) :
    Does μ q (procedure.catchBall ball)
      (fun r q' => q.Answered μ.strict x f r q') fun q' => q.Faulted μ.strict q' := by
  unfold Procedure.catchBall
  split
  · exact does_catchBall hx hpledged h hserial hc hf hp hball
  · rename_i target
    refine .get_bind fun db _ => .read (reads_note _) ⟨(h.sound hc).rests, .refl _⟩ fun _ _ => ?_
    split
    · exact .pure ⟨h.handled hc ⟨f, hf, .inr ⟨target, hp⟩⟩ executes_succeed, .refl _⟩
    · exact .pure (h.passed hc hf)
  · exact .pure (h.passed hc hf)

/-- A ball is offered to one frame after the other. -/
theorem does_offer (hx : x.Orderly) (hpledged : μ.strict = true → x.Pledged)
    (hball : ball.Fits .all anyVars) (left : Nat) {q : Query} {c : FrameId}
    (h : μ.strict = true ∨ c < q.frames.size → q.Awaits μ.strict x c)
    (hrests : q.Rests μ.strict)
    (hserial : μ.strict = true → q.choices.serial < 2 ^ 64) :
    Does μ q (offer ball left c)
      (fun r q' => match r with
        | some code => q'.Got μ.strict x code
        | none => q'.Rests μ.strict)
      fun q' => q'.Rests μ.strict := by
  induction left generalizing q c with
  | zero => exact .pure hrests
  | succ left ih =>
    refine .get_bind fun db _ => ?_
    dsimp only
    split
    · exact .pure hrests
    · rename_i f hf
      have hawaits : Query.Awaits μ.strict x { q with callee := c } c :=
        h (.inr (Frames.lt_size_of_get? hf))
      refine .modifyQuery_bind ?_
      split
      on_goal 1 =>
        rename_i procedure hp
        refine .bind ((does_procedureCatch hx hpledged hawaits hserial rfl hf hball hp).mono
          (fun _ _ hr => hr) fun _ hq' => hq'.1) fun r q' hr => ?_
      on_goal 2 =>
        refine .bind (.pure (hawaits.passed rfl hf))
          fun r q' (hr : Query.Answered μ.strict x f { q with callee := c } r q') => ?_
      -- the ball goes on to the caller, unless the frame takes it
      all_goals
        cases r with
        | some code => exact .pure hr.1
        | none =>
          obtain ⟨hrests', -, hserial', hcaller⟩ := hr
          cases hparent : f.caller with
          | none => exact .pure hrests'
          | some parent =>
            exact ih (hcaller parent hparent) hrests' fun hs => hserial' ▸ hserial hs

-- ================================================== giving up

/-- A query that is given up keeps its arena. -/
theorem sound_abandoned {strict : Bool} {q : Query} (h : q.Sound strict) : Query.Sound strict { q with
    choices := { q.choices with points := [] }, next := .fail, done := true } :=
  { h with
    orderly := ⟨h.orderly.live, h.orderly.frames, ⟨.nil, fun _ hp => absurd hp List.not_mem_nil⟩,
      fun hr => nomatch hr⟩
    standing := ⟨trivial, fun _ hp => absurd hp List.not_mem_nil⟩ }

theorem rests_abandoned {strict : Bool} {q : Query} (h : q.Rests strict) : Query.Rests strict { q with
    choices := { q.choices with points := [] }, next := .fail, done := true } := by
  obtain ⟨c, hsound, hc⟩ := h
  exact ⟨c, sound_abandoned hsound, hc⟩

/-- The query is given up, and the failure is its last word. -/
theorem does_abandon {α : Type} {e : Failure} (h : q.Rests μ.strict)
    (he : e.Fits μ.tame) {post : α → Query → Prop} :
    Does μ q (do
      abandon
      throw e) post fun q' => q'.done = true ∧ q'.Over μ.strict :=
  .modifyQuery_bind (.throw he ⟨rfl, rfl, rests_abandoned h⟩)

/-- A query that fails goes on where the error is caught, or is given up.
-/
theorem does_recover (hx : x.Orderly) (hpledged : μ.strict = true → x.Pledged)
    (h : q.Got μ.strict x .fail) (hserial : μ.strict = true → q.choices.serial < 2 ^ 64)
    {e : Failure} (he : e.Fits μ.tame) :
    Does μ q (recover e) (fun _ q' => q'.Got μ.strict x q'.next)
      fun q' => q'.done = true ∧ q'.Over μ.strict := by
  unfold recover
  split
  · rename_i raw
    refine (does_detach h.sound he).bind fun ball q₁ ⟨hsame, hcopy⟩ => .get_bind fun db _ => ?_
    obtain rfl : q₁ = q := hsame
    have hball : Failure.Fits μ.tame (.thrown ball) := hcopy.wellMade
    have hoffer := does_offer hx hpledged hball q₁.frames.size (q := q₁) (c := q₁.callee)
      (fun _ => ⟨q₁.callee, h, .refl⟩) h.sound.rests hserial
    refine (hoffer.attempt.mono (fun _ _ h => h) fun _ hf => hf.elim).bind
      fun r q' ⟨hok, herror⟩ => ?_
    split
    · exact .modifyQuery (hok _ rfl).next
    · exact does_abandon (hok _ rfl) hball
    · exact does_abandon (herror _ rfl).1 (herror _ rfl).2
  · exact does_abandon h.sound.rests he

end

end Act

end LogicMachine
