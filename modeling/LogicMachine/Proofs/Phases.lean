/-
The phases of a run.

Between two steps of the engine an error may be on its way: it is offered
to one frame after the other until one catches it. Here a run is taken
apart so far that these states show. A query is about to take a step, or to
offer a ball to a frame, or it is over; what holds of it in each phase is
kept by going on to the next (`Act.ends_advance`). Searching for a solution
is going on in this way (`Act.advances_search`).
-/
import LogicMachine.Proofs.Catching

namespace LogicMachine

/-- What a query is about to do: to take a step, or to offer a ball to a
frame. -/
inductive Phase where
  | running
  | offering (ball : Term) (frame : FrameId)
  | ended

namespace Act

/-- No frame takes the ball. -/
def giveUp : Act Phase := do
  abandon
  return .ended

/-- Whether the running frame takes a ball. -/
def askFrame (frame : Frame) (ball : Term) : Act (Option Code) :=
  match frame.procedure with
  | some procedure => procedure.catchBall ball
  | none => pure none

/-- Offers a ball to a frame. If it does not take it, the caller is next. -/
def offerTo (ball : Term) (id : FrameId) : Act Phase := do
  match (← frames).get? id with
  | none => giveUp
  | some frame =>
    modifyQuery fun q => { q with callee := id }
    match ← attempt (askFrame frame ball), frame.caller with
    | .ok (some code), _ =>
      modifyQuery fun q => { q with next := code }
      return .running
    | .ok none, some caller => return .offering ball caller
    | .ok none, none => giveUp
    | .error _, _ => giveUp

/-- Goes on to the next phase. -/
def advance : Phase → Act Phase
  | .running => do
    match ← attempt step with
    | .ok .exhausted =>
      modifyQuery fun q => { q with done := true }
      return .ended
    | .ok _ => return .running
    | .error (.thrown raw) => do
      let ball ← detach raw
      return .offering ball (← callee)
    | .error _ => giveUp
  | .offering ball id => offerTo ball id
  | .ended => return .ended

end Act

/-- Where a query begins that has been given the entry. -/
abbrev Clause.outset (entry : Clause) : Moment := ⟨Query.start entry, none⟩

/-- A bare variable is read in going on, which only a step may do. -/
def Phase.ReadsBare (env : Env) (m : Machine) : Phase → Prop
  | .running => Machine.ReadsBare env m
  | _ => False

/-- What holds of a query in a phase of its run. -/
def Phase.Holds (strict : Bool) (entry : Clause) (q : Query) : Phase → Prop
  | .running => q.Got strict entry.outset q.next
  | .offering ball id => ball.Fits .all anyVars ∧ q.Rests strict
    ∧ (strict = true ∨ id < q.frames.size → q.Awaits strict entry.outset id)
  | .ended => q.Over strict

namespace Act

section

variable {μ : Rigor} {entry : Clause} {q : Query}

theorem rests_done {strict : Bool} {q : Query} (h : q.Rests strict) :
    Query.Rests strict { q with done := true } := by
  obtain ⟨c, hsound, hc⟩ := h
  exact ⟨c, { hsound with orderly := { hsound.orderly with flight := fun hr => nomatch hr } }, hc⟩

theorem does_giveUp (h : q.Rests μ.strict) {fails : Query → Prop} :
    Does μ q giveUp (fun phase q' => phase.Holds μ.strict entry q') fails :=
  .modifyQuery_bind (.pure ⟨rfl, rests_abandoned h⟩)

theorem does_askFrame {ball : Term} {id : FrameId} {f : Frame}
    (h : q.Awaits μ.strict entry.outset id)
    (hserial : μ.strict = true → q.choices.serial < 2 ^ 64) (hc : q.callee = id)
    (hf : q.frames.get? id = some f) (hball : ball.Fits .all anyVars) :
    Does μ q (askFrame f ball) (fun r q' => q.Answered μ.strict entry.outset f r q')
      fun q' => q.Faulted μ.strict q' := by
  unfold askFrame
  split
  · rename_i procedure hp
    exact does_procedureCatch (orderly_start entry) (fun _ => pledged_start entry) h hserial hc hf
      hball hp
  · exact .pure (h.passed hc hf)

theorem does_offerTo {ball : Term} {id : FrameId}
    (h : Phase.Holds μ.strict entry q (.offering ball id))
    (hserial : μ.strict = true → q.choices.serial < 2 ^ 64) :
    Does μ q (offerTo ball id) (fun phase q' => phase.Holds μ.strict entry q') fun _ => False := by
  obtain ⟨hball, hrests, hawaits⟩ := h
  refine .get_bind fun db _ => ?_
  dsimp only
  split
  · exact does_giveUp hrests
  · rename_i f hf
    have hw : Query.Awaits μ.strict entry.outset { q with callee := id } id :=
      hawaits (.inr (Frames.lt_size_of_get? hf))
    have hcatch := does_askFrame hw hserial rfl hf hball
    refine .modifyQuery_bind ((hcatch.attempt.mono (fun _ _ h => h) fun _ hf => hf.elim).bind
      fun caught q' ⟨hok, herror⟩ => ?_)
    split
    · exact .modifyQuery_bind (.pure (hok _ rfl).1.next)
    · rename_i parent hparent _
      obtain ⟨hrests', -, -, hcaller⟩ := hok _ rfl
      exact .pure ⟨hball, hrests', hcaller parent hparent⟩
    · exact does_giveUp (hok _ rfl).1
    · exact does_giveUp (herror _ rfl).1.1

/-- What holds in a phase is kept by going on, and going on does not fail.
-/
theorem ends_advance {env : Env} (henv : env.Sound μ.tame) (hsteps : 0 < env.steps)
    {db : Database} (hdb : db.Sound) {phase : Phase} (h : phase.Holds μ.strict entry q)
    (hbare : μ.strict = true → ¬ phase.ReadsBare env ⟨db, q⟩)
    (hserial : μ.strict = true → q.choices.serial < 2 ^ 64) :
    Left μ.tame (fun phase' q' => phase'.Holds μ.strict entry q') (fun _ => False)
      (advance phase env ⟨db, q⟩) := by
  cases phase with
  | running =>
    have hroot := h.moves.rooted (rooted_start entry)
    have hstep := ends_step henv hsteps (orderly_start entry) hdb h (fun _ => hroot) hbare
    simp only [advance, bind_apply, attempt_apply]
    cases hended : step env ⟨db, q⟩ with
    | ok progress m =>
      rw [hended] at hstep
      obtain ⟨hdb', hleft⟩ := hstep
      cases progress with
      | running => exact ⟨hdb', hleft⟩
      | found s => exact ⟨hdb', hleft.1⟩
      | exhausted => exact ⟨hdb', hleft.next, rests_done hleft.rests⟩
    | error e m =>
      rw [hended] at hstep
      obtain ⟨hdb', hgot, he⟩ := hstep
      cases e with
      | thrown raw =>
        have hoffer : Does μ m.query (do
            let ball ← detach raw
            return Phase.offering ball (← callee))
            (fun phase' q' => phase'.Holds μ.strict entry q') fun _ => False := by
          refine (does_detach hgot.sound he).bind fun ball q' ⟨hsame, hcopy⟩ => ?_
          obtain rfl := hsame
          exact .get_bind fun db _ =>
            .pure ⟨hcopy.wellMade, hgot.sound.rests, fun _ => ⟨_, hgot, .refl⟩⟩
        exact hoffer.ends env m.db henv hdb'
      | _ => exact Does.ends (does_giveUp hgot.sound.rests) env m.db henv hdb'
  | offering ball id => exact (does_offerTo h hserial).ends env db henv hdb
  | ended => exact ⟨hdb, h⟩

end

-- ================================================== searching

/-- The next phase and the machine then. -/
abbrev Advance (env : Env) (a b : Phase × Machine) : Prop := advance a.1 env a.2 = .ok b.1 b.2

/-- From phase to phase. -/
abbrev Advances (env : Env) : Phase × Machine → Phase × Machine → Prop :=
  Relation.ReflTransGen (Advance env)

section

variable {env : Env} {entry : Clause}

/-- The machine when its query is given up. -/
def abandoned (m : Machine) : Machine :=
  ⟨m.db, { m.query with
    choices := { m.query.choices with points := [] }, next := .fail, done := true }⟩

theorem offer_succ (env : Env) (ball : Term) (left : Nat) (id : FrameId) (db : Database) (q : Query) :
    offer ball (left + 1) id env ⟨db, q⟩ = match q.frames.get? id with
      | none => .ok none ⟨db, q⟩
      | some frame => match askFrame frame ball env ⟨db, { q with callee := id }⟩, frame.caller with
        | .ok (some code) m, _ => .ok (some code) m
        | .ok none m, some caller => offer ball left caller env m
        | .ok none m, none => .ok none m
        | .error e m, _ => .error e m := by
  show (match q.frames.get? id with
    | none => pure none
    | some frame => _ : Act (Option Code)) env ⟨db, q⟩ = _
  cases q.frames.get? id with
  | none => rfl
  | some frame =>
    simp only [askFrame, bind_apply, modifyQuery_apply]
    cases frame.procedure with
    | none => cases frame.caller <;> rfl
    | some procedure =>
      dsimp only
      rw [bind_apply]
      cases procedure.catchBall ball env ⟨db, { q with callee := id }⟩ with
      | ok r m => cases r <;> cases frame.caller <;> rfl
      | error e m => rfl

theorem advance_offering (env : Env) (ball : Term) (id : FrameId) (db : Database) (q : Query) :
    advance (.offering ball id) env ⟨db, q⟩ = match q.frames.get? id with
      | none => .ok .ended (abandoned ⟨db, q⟩)
      | some frame => match askFrame frame ball env ⟨db, { q with callee := id }⟩, frame.caller with
        | .ok (some code) m, _ => .ok .running ⟨m.db, m.query.holding code⟩
        | .ok none m, some caller => .ok (.offering ball caller) m
        | .ok none m, none => .ok .ended (abandoned m)
        | .error _ m, _ => .ok .ended (abandoned m) := by
  show (match q.frames.get? id with
    | none => giveUp
    | some frame => _ : Act Phase) env ⟨db, q⟩ = _
  cases q.frames.get? id with
  | none => rfl
  | some frame =>
    simp only [bind_apply, modifyQuery_apply, attempt_apply]
    cases askFrame frame ball env ⟨db, { q with callee := id }⟩ with
    | ok r m => cases r <;> cases frame.caller <;> rfl
    | error e m => cases frame.caller <;> rfl

/-- Offering a ball to a frame and those that called it. -/
theorem advances_offer (henv : env.Sound false) (hsteps : 0 < env.steps) {ball : Term} (left : Nat)
    {id : FrameId} (hlt : id < left) {db : Database} (hdb : db.Sound) {q : Query}
    (h : Phase.Holds false entry q (.offering ball id)) :
    match offer ball left id env ⟨db, q⟩ with
    | .ok (some code) m =>
      Advances env (.offering ball id, ⟨db, q⟩) (.running, ⟨m.db, m.query.holding code⟩)
    | .ok none m => Advances env (.offering ball id, ⟨db, q⟩) (.ended, abandoned m)
    | .error _ m => Advances env (.offering ball id, ⟨db, q⟩) (.ended, abandoned m) := by
  induction left generalizing id db q with
  | zero => exact absurd hlt (Nat.not_lt_zero id)
  | succ left ih =>
    have hstep := advance_offering env ball id db q
    have hholds := ends_advance (μ := .loose) henv hsteps hdb h (fun hs => nomatch hs)
      fun hs => nomatch hs
    rw [offer_succ]
    cases hf : q.frames.get? id with
    | none =>
      rw [hf] at hstep
      exact .single hstep
    | some frame =>
      rw [hf] at hstep
      dsimp only at hstep ⊢
      cases hasked : askFrame frame ball env ⟨db, { q with callee := id }⟩ with
      | error e m =>
        rw [hasked] at hstep
        exact .single hstep
      | ok caught m =>
        rw [hasked] at hstep
        cases caught with
        | some code => exact .single hstep
        | none =>
          cases hcaller : frame.caller with
          | none =>
            rw [hcaller] at hstep
            exact .single hstep
          | some caller =>
            rw [hcaller] at hstep
            have hnext : Advance env (.offering ball id, ⟨db, q⟩) (.offering ball caller, m) := hstep
            rw [hstep] at hholds
            have hawaits := h.2.2 (.inr (Frames.lt_size_of_get? hf))
            obtain ⟨k, hgot, -⟩ := hawaits
            have hold := hgot.sound.orderly.frames.callers hf hcaller
            have hrest := ih (hold.trans_le (Nat.le_of_lt_succ hlt)) hholds.1 hholds.2
            revert hrest
            dsimp only
            cases offer ball left caller env m with
            | ok r m' => cases r <;> exact fun hrest => .head hnext hrest
            | error e m' => exact fun hrest => .head hnext hrest

theorem advance_running (env : Env) (m : Machine) :
    advance .running env m = match step env m with
      | .ok .exhausted m => .ok .ended ⟨m.db, { m.query with done := true }⟩
      | .ok _ m => .ok .running m
      | .error (.thrown raw) m => match detach raw env m with
        | .ok ball m => .ok (.offering ball m.query.callee) m
        | .error e m => .error e m
      | .error _ m => .ok .ended (abandoned m) := by
  simp only [advance, bind_apply, attempt_apply]
  cases step env m with
  | ok progress m => cases progress <;> rfl
  | error e m => cases e <;> rfl

theorem recover_thrown (env : Env) (raw : Term) (m : Machine) :
    recover (.thrown raw) env m = match detach raw env m with
      | .ok ball m => match offer ball m.query.frames.size m.query.callee env m with
        | .ok (some code) m => .ok ⟨⟩ ⟨m.db, m.query.holding code⟩
        | .ok none m => .error (.thrown ball) (abandoned m)
        | .error e m => .error e (abandoned m)
      | .error e m => .error e m := by
  simp only [recover, bind_apply]
  cases detach raw env m with
  | error e m => rfl
  | ok ball m =>
    simp only [get_apply, attempt_apply]
    cases offer ball m.query.frames.size m.query.callee env m with
    | ok r m => cases r <;> rfl
    | error e m => rfl

/-- How a search may end: at a phase that was gone on to, unless the steps
do not suffice. -/
def Arrives (env : Env) (a : Phase × Machine) :
    EStateM.Result Failure Machine (Option Solution) → Prop
  | .ok (some _) m => Advances env a (.running, m)
  | .ok none m => Advances env a (.ended, m)
  | .error e m => e = .unfinished ∨ Advances env a (.ended, m)

theorem Arrives.head {a b : Phase × Machine} {r : EStateM.Result Failure Machine (Option Solution)}
    (h : Advances env a b) (hr : Arrives env b r) : Arrives env a r := by
  match r, hr with
  | .ok (some _) _, hr => exact h.trans hr
  | .ok none _, hr => exact h.trans hr
  | .error _ _, hr => exact hr.imp_right h.trans

/-- Searching for a solution is going on from phase to phase. -/
theorem advances_search (henv : env.Sound false) (hsteps : 0 < env.steps) (steps : Nat)
    {db : Database} (hdb : db.Sound) {q : Query} (h : Phase.Holds false entry q .running) :
    Arrives env (.running, ⟨db, q⟩) (search steps env ⟨db, q⟩) := by
  induction steps generalizing db q with
  | zero => exact .inl rfl
  | succ steps ih =>
    have hnext := advance_running env ⟨db, q⟩
    have hholds := ends_advance (μ := .loose) henv hsteps hdb h (fun hs => nomatch hs)
      fun hs => nomatch hs
    have hstep := ends_step (μ := .loose) henv hsteps (orderly_start entry) hdb h
      (fun hs => nomatch hs) fun hs => nomatch hs
    simp only [search, bind_apply, attempt_apply]
    cases hended : step env ⟨db, q⟩ with
    | ok progress m =>
      rw [hended] at hnext
      cases progress with
      | running =>
        rw [hnext] at hholds
        exact .head (.single hnext) (ih hholds.1 hholds.2)
      | found s => exact .single hnext
      | exhausted => exact .single hnext
    | error e m =>
      rw [hended] at hnext hstep
      obtain ⟨hdb', hgot, he⟩ := hstep
      have hrecover := (does_recover (μ := .loose) (orderly_start entry)
        (fun _ => pledged_start entry) hgot (fun hs => nomatch hs) he).ends env m.db henv hdb'
      dsimp only
      rw [bind_apply]
      cases e with
      | thrown raw =>
        replace hrecover : Left _ _ _ (recover (.thrown raw) env m) := hrecover
        rw [recover_thrown] at hrecover ⊢
        dsimp only at hnext
        cases hcopy : detach raw env m with
        | error e m' => exact nomatch hcopy
        | ok ball m₁ =>
          have hsame : m₁.query = m.query := by
            cases hcopy
            rfl
          have hlive : m₁.query.callee < m₁.query.frames.size := hsame ▸ hgot.sound.orderly.live
          rw [hcopy] at hnext hrecover
          have hoffering : Advance env (.running, ⟨db, q⟩) (.offering ball m₁.query.callee, m₁) := hnext
          rw [hnext] at hholds
          have hoffer := advances_offer henv hsteps m₁.query.frames.size hlive hholds.1 hholds.2
          refine .head (.single hoffering) ?_
          dsimp only at hrecover ⊢
          cases hoffered : offer ball m₁.query.frames.size m₁.query.callee env m₁ with
          | error e m₂ =>
            rw [hoffered] at hoffer
            exact .inr hoffer
          | ok caught m₂ =>
            rw [hoffered] at hoffer hrecover
            cases caught with
            | none => exact .inr hoffer
            | some code => exact .head hoffer (ih hrecover.1 hrecover.2)
      | fatal reason => exact .inr (.single hnext)
      | unfinished => exact .inl rfl

end

end Act

end LogicMachine
