/-
The frames that a query enters.

Going on by one phase, a query enters at most one frame, and only if it is
about to make a call (`Query.Calls`): one that is the code to run next, or
one that the most recent choice point makes anew, for its next row. The
frame returns where the call does (`Frames.returnsTo`). All other frames
were there before, but for what their slots hold: built-ins work on slots,
and backtracking and catching only take frames away. This is said of the
running of code, of trying alternatives and of offering a ball, and of a
phase as a whole (`Phase.Holds.extends`).
-/
import LogicMachine.Proofs.Searching

namespace LogicMachine

-- ================================================== one frame more

namespace Frames

/-- Every frame there is now was there before, but for its slots, or is the
one of a call that returns to the frame and the code given. -/
def Enters (fs : Frames) (back : FrameId × Code) (fs' : Frames) : Prop :=
  ∀ i f', fs'.get? i = some f' → (∃ f, fs.get? i = some f ∧ ∃ slots, f' = f.withSlots slots)
    ∨ i = fs.size ∧ f'.caller = some back.1 ∧ f'.next = back.2 ∧ f'.depth = fs.depth back.1 + 1

variable {fs fs' fs'' : Frames} {back : FrameId × Code}

theorem Heads.enters (h : fs.Heads fs') : fs.Enters back fs' :=
  fun i f' hf' => .inl (h i f' hf')

theorem Enters.heads (h : fs.Enters back fs') (hh : fs'.Heads fs'') : fs.Enters back fs'' := by
  intro i f'' hf''
  obtain ⟨f', hf', slots, rfl⟩ := hh i f'' hf''
  rcases h i f' hf' with ⟨f, hf, slots', rfl⟩ | hnew
  · exact .inl ⟨f, hf, slots, rfl⟩
  · exact .inr hnew

theorem Enters.push (fs : Frames) (ancestry : Nat) (caller : FrameId) (next : Code)
    (procedure : Option Procedure) (locals : Nat) (base : Option FrameId) :
    fs.Enters (caller, next) (fs.push ancestry (some caller) next procedure locals base).1 := by
  intro i f' hf'
  rw [get?_push] at hf'
  split at hf'
  · rename_i hi
    cases hf'
    exact .inr ⟨hi, rfl, rfl, rfl⟩
  · exact .inl ⟨f', hf', f'.slots, rfl⟩

end Frames

/-- Whatever has become of a call, it has entered one frame at most. -/
theorem Query.Invoked.enters {strict : Bool} {q q' : Query} {site : CallSite} {code : Code}
    (h : q.Invoked strict site q' code) : q.frames.Enters (q.callee, site.next) q'.frames := by
  cases h with
  | stayed he _ => exact he.works.heads.enters
  | entered locals base _ he _ =>
    exact Frames.Enters.heads (.push _ _ _ _ _ _ _) he.works.heads
  | guarded _ _ _ =>
    exact Frames.Enters.heads (.push _ _ _ _ _ _ _) (.of_reslots (Frames.reslots_pushGuarded ..))

namespace Act

variable {α : Type} {μ : Rigor} {q : Query}

-- ================================================== running code

/-- However it ends, the act enters at most one frame, which returns there.
-/
abbrev Enters (μ : Rigor) (q : Query) (back : FrameId × Code) (act : Act α) : Prop :=
  Does μ q act (fun _ q' => q.frames.Enters back q'.frames) fun q' => q.frames.Enters back q'.frames

theorem enters_procedure {procedure : Procedure} {args : List Term} {caller : FrameId}
    {next : Code} {revision : Nat} (hq : Query.Sound μ.strict { q with ancestry := revision + 1 })
    (hs : CallSite.Suits μ.strict { q with ancestry := revision + 1 }
      ⟨procedure, args, revision + 1, caller, next⟩) :
    Enters μ q (q.frames.returnsTo q.callee next)
      (callProcedure procedure args caller next revision) :=
  (invokes_procedure hq hs).mono (fun _ _ h => h.enters) fun _ h => h.enters

theorem enters_selectRow {x : Moment} {table : Nat} {predicate : Predicate} {args : List Term}
    {next : Code} (h : q.Got μ.strict x (.call (.table table predicate) args next)) :
    Enters μ q (q.frames.returnsTo q.callee next) (selectRow table predicate args next) := by
  obtain ⟨-, ha, hn⟩ := Code.fits_call.1 h.executes
  refine .get_bind fun db hdb => ?_
  dsimp only
  split
  · exact (reads_undefinedPredicate q predicate).does.mono
      (fun code q' hq' => hq'.1 ▸ (Frames.Heads.refl _).enters)
      fun q' hq' => hq' ▸ (Frames.Heads.refl _).enters
  · rename_i first hfirst
    have hrows : ∀ row ∈ db.rowsAt table, row.procedure.Fits .none := hdb.rowsAt
    have hrow : first.procedure.Fits (q.frames.world μ.strict) :=
      (hrows first (Array.mem_of_getElem? hfirst)).mono (World.none_le _)
    split
    · exact .modifyQuery_bind (enters_procedure (q := q.selecting _ args next)
        (got_select h hrows).sound (suits_select h.sound hn hrow ha))
    · exact enters_procedure (got_call h).sound
        (suits_call h.sound hn (fun p hp _ => hp) hrow ha)

theorem enters_call {x : Moment} {target : Target} {args : List Term} {next : Code}
    (h : q.Got μ.strict x (.call target args next)) :
    Enters μ q (q.frames.returnsTo q.callee next) (execute (.call target args next)) := by
  cases target with
  | table index predicate => exact enters_selectRow h
  | procedure procedure =>
    obtain ⟨hp, ha, hn⟩ := Code.fits_call.1 h.executes
    exact .get_bind fun db _ => enters_procedure (got_call h).sound
      (suits_call h.sound hn (fun p hp _ => hp) hp ha)

/-- Only a call changes the arena. -/
theorem frames_execute {code : Code} (h : ∀ target args next, code ≠ .call target args next)
    {fails : Query → Prop} :
    Does μ q (execute code) (fun _ q' => q'.frames = q.frames) fails := by
  cases code with
  | choice scope branches =>
    cases branches with
    | nil => exact .pure rfl
    | cons first rest =>
      by_cases hpoint : (!rest.isEmpty || scope.isSome) = true
      · simp only [execute, hpoint, if_true]
        exact .modifyQuery_bind (.pure rfl)
      · simp only [execute, hpoint]
        exact .pure rfl
  | cut scope next => exact .modifyQuery_bind (.pure rfl)
  | call target args next => exact absurd rfl (h target args next)
  | _ => exact .pure rfl

-- ================================================== trying alternatives

/-- However it ends, the query is then as said. -/
def Ended (post : Query → Prop) : EStateM.Result Failure Machine α → Prop
  | .ok _ m => post m.query
  | .error _ m => post m.query

theorem Left.ended {tame : Bool} {post : Query → Prop} {r : EStateM.Result Failure Machine α}
    (h : Left tame (fun _ q' => post q') post r) : Ended post r := by
  cases r with
  | ok a m => exact h.2
  | error e m => exact h.2.1

theorem Ended.mono {post post' : Query → Prop} {r : EStateM.Result Failure Machine α}
    (h : Ended post r) (hp : ∀ q, post q → post' q) : Ended post' r := by
  cases r with
  | ok a m => exact hp _ h
  | error e m => exact hp _ h

end Act

/-- The alternatives are rows to be called. -/
def Alternatives.IsRows : Alternatives → Prop
  | .rows .. => True
  | _ => False

theorem Alternatives.IsRows.of_next? {a rest : Alternatives} {trial : Trial} (ha : ¬ a.IsRows)
    (hn : a.next? = some (trial, rest)) : ¬ rest.IsRows
      ∧ ∀ procedure args caller next revision, trial ≠ .row procedure args caller next revision := by
  refine ⟨fun hrest => ha ?_, fun procedure args caller next revision he => ha ?_⟩
  · unfold Alternatives.next? at hn
    repeat' split at hn
    all_goals first
      | cases hn; exact hrest
      | cases hn
  · subst he
    obtain ⟨_, _, rfl⟩ := Alternatives.eq_of_next?_row hn
    trivial

section

variable {env : Env} {db : Database} {q : Query}

/-- Alternatives that are no rows enter no frame. -/
theorem heads_start (henv : env.Sound false) (steps : Nat) (hdb : db.Sound) (hq : q.Sound false)
    {a : Alternatives} (ha : ¬ a.IsRows) (hf : a.Fits (q.frames.world false)
      ((q.frames.world false).slotsOf (q.frames.owner q.callee))) :
    Act.Ended (fun q' => q.frames.Heads q'.frames) (a.start steps env ⟨db, q⟩) := by
  induction steps generalizing db q a with
  | zero => exact .refl _
  | succ steps ih =>
    rw [Alternatives.start_succ]
    cases hn : a.next? with
    | none => exact .refl _
    | some next =>
      obtain ⟨trial, rest⟩ := next
      obtain ⟨hrest, hleaf⟩ := Alternatives.IsRows.of_next? ha hn
      obtain ⟨htrial, hfits⟩ := hf.next? hn
      have hrun := (Act.tries_leaf (μ := .loose) hq htrial hleaf nofun).ends env db henv hdb
      dsimp only
      cases hr : trial.run env ⟨db, q⟩ with
      | error e m =>
        rw [hr] at hrun
        exact hrun.2.1.works.heads
      | ok r m =>
        rw [hr] at hrun
        obtain ⟨hdb', htouches, -⟩ := hrun
        cases r with
        | some code => exact htouches.works.heads
        | none =>
          exact (ih hdb' htouches.sound hrest (htouches.fits hq hfits)).mono
            fun q' hheads => htouches.works.heads.trans hheads

/-- Rows enter the frame of the call that is made anew. -/
theorem enters_start (henv : env.Sound false) (steps : Nat) (hdb : db.Sound) {x : Moment}
    (hx : x.Orderly) {id : Nat} {rows : Array Row} {index : Nat} {args : List Term} {next : Code}
    {caller : FrameId} {revision : Nat}
    (h : q.Trying false x ⟨id, .rows rows index args next caller revision⟩) :
    Act.Ended (fun q' => q.frames.Enters (q.frames.returnsTo caller next) q'.frames)
      ((Alternatives.rows rows index args next caller revision).start steps env ⟨db, q⟩) := by
  cases steps with
  | zero => exact (Frames.Heads.refl _).enters
  | succ steps =>
    rw [Alternatives.start_succ]
    cases hrow : rows[index]? with
    | none =>
      have hn : (Alternatives.rows rows index args next caller revision).next? = none := by
        simp [Alternatives.next?, hrow]
      rw [hn]
      exact (Frames.Heads.refl _).enters
    | some row =>
      have hn : (Alternatives.rows rows index args next caller revision).next?
          = some (.row row.procedure args caller next revision,
            .rows rows (index + 1) args next caller revision) := by
        simp [Alternatives.next?, hrow]
      have hready := h.ready hx hn
      obtain ⟨hsame, hsuits⟩ := Act.suits_row (μ := .loose) h.sound (h.fits.next? hn).1 hready
      have hcaller : caller = q.callee := hready.1
      have hcall := (Act.enters_procedure (μ := .loose) (hsame.symm ▸ h.sound)
        (hsame.symm ▸ hsuits)).ends env db henv hdb
      rw [hn, hcaller]
      dsimp only [Trial.run]
      rw [Act.bind_apply]
      rw [hcaller] at hcall
      revert hcall
      cases callProcedure row.procedure args q.callee next revision env ⟨db, q⟩ with
      | ok code m => exact fun hcall => hcall.2
      | error e m => exact fun hcall => hcall.2.1

end

-- ================================================== one step

/-- The query is about to make a call in the frame `id` with `next` to
follow, and the arena is then `fs`: the call is the code to run next, or
the most recent choice point makes it anew. -/
inductive Query.Calls (q : Query) : FrameId → Code → Frames → Prop
  | first {target : Target} {args : List Term} {next : Code} (h : q.next = .call target args next) :
      Calls q q.callee next q.frames
  | redo {id : Nat} {rows : Array Row} {index : Nat} {args : List Term} {next : Code}
      {caller : FrameId} {revision : Nat} {q' : Query} (hn : q.next = .fail)
      (h : q.retreat = (some ⟨id, .rows rows index args next caller revision⟩, q')) :
      Calls q caller next q'.frames

/-- The call that the query is about to make, if there is one: the frame it
is made in, what is to follow and the arena. -/
def Query.nextCall? (q : Query) : Option (FrameId × Code × Frames) :=
  match q.next with
  | .call _ _ next => some (q.callee, next, q.frames)
  | .fail => match q.retreat with
    | (some ⟨_, .rows _ _ _ next caller _⟩, q') => some (caller, next, q'.frames)
    | _ => none
  | _ => none

theorem Query.calls_iff {q : Query} {id : FrameId} {next : Code} {fs : Frames} :
    q.Calls id next fs ↔ q.nextCall? = some (id, next, fs) := by
  constructor
  · intro h
    cases h with
    | first h => simp [nextCall?, h]
    | redo hn h => simp [nextCall?, hn, h]
  · intro h
    unfold nextCall? at h
    split at h
    · rename_i hnext
      cases h
      exact .first hnext
    · rename_i hnext
      split at h
      · rename_i hretreat
        cases h
        exact .redo hnext hretreat
      · cases h
    · cases h

/-- What a step makes of the arena of a query: it enters at most the frame
of the call that is to be made. -/
inductive Query.Extends (q : Query) (fs' : Frames) : Prop
  | calls {id : FrameId} {next : Code} {fs : Frames} (h : q.Calls id next fs)
      (he : fs.Enters (fs.returnsTo id next) fs') : Extends q fs'
  | stays (hn : ∀ id next fs, ¬ q.Calls id next fs) (hh : q.frames.Heads fs') : Extends q fs'

/-- Going back takes frames away. -/
theorem Query.heads_retreat {q q' : Query} {found : Option Resumption}
    (h : q.retreat = (found, q')) : q.frames.Heads q'.frames := by
  cases found with
  | none =>
    obtain rfl := Query.retreat_none h
    exact .of_reslots (Frames.reslots_undo ..)
  | some r =>
    obtain ⟨_, _, _, -, -, -, -, -, rfl⟩ := Query.retreat_split h
    exact .back _ _ _

namespace Query.Calls

variable {q : Query} {id : FrameId} {next : Code} {fs : Frames}

theorem heads (h : q.Calls id next fs) : q.frames.Heads fs := by
  cases h with
  | first _ => exact .refl _
  | redo _ h => exact heads_retreat h

/-- A query is about to make one call at most. -/
theorem unique {id' : FrameId} {next' : Code} {fs' : Frames} (h : q.Calls id next fs)
    (h' : q.Calls id' next' fs') : id = id' ∧ next = next' ∧ fs = fs' := by
  have hsame := (calls_iff.1 h).symm.trans (calls_iff.1 h')
  simpa using hsame

/-- The frame that the call is made in is there. -/
theorem live (h : q.Calls id next fs) (hq : q.Sound false) : id < fs.size := by
  cases h with
  | first _ => exact hq.orderly.live
  | redo hn h =>
    have ho := (hq.orderly.retreat h fun hs => hs).live
    obtain ⟨above, p, below, hpts, -, halt, -, -, rfl⟩ := Query.retreat_split h
    have hsuits := (hq.orderly.points.point p (hpts ▸ by simp)).suits halt
    exact hsuits.2.1 ▸ ho

end Query.Calls

section

variable {env : Env} {db : Database} {q : Query} {x : Moment}

theorem extends_backtrack (henv : env.Sound false) (hx : x.Orderly) (hdb : db.Sound)
    (hq : q.Sound false) (hnext : q.next = .fail) (hm : Moves false x ⟨q, none⟩) :
    Act.Ended (fun q' => q.Extends q'.frames) (backtrack env ⟨db, q⟩) := by
  have hfirst : ∀ target args next, q.next ≠ .call target args next :=
    fun target args next he => nomatch hnext.symm.trans he
  rw [backtrack_eq]
  cases hr : q.retreat with
  | mk found q' =>
    have hheads := Query.heads_retreat hr
    cases found with
    | none =>
      refine .stays (fun id next fs hcall => ?_) hheads
      cases hcall with
      | first h => exact hfirst _ _ _ h
      | redo _ h => exact nomatch hr.symm.trans h
    | some r =>
      obtain ⟨id, a⟩ := r
      obtain ⟨hsound, hfits⟩ := hq.retreat hr
      by_cases hrows : a.IsRows
      · cases a with
        | rows rows index args next caller revision =>
          have htrying := hq.trying hm hr fun codes he => nomatch he
          have hstart := enters_start henv env.steps hdb hx htrying
          dsimp only
          revert hstart
          cases Alternatives.start env.steps _ env ⟨db, q'⟩ with
          | error e m => exact fun hstart => .calls (.redo hnext hr) hstart
          | ok found m =>
            obtain ⟨ended, rest⟩ := found
            cases ended <;> exact fun hstart => .calls (.redo hnext hr) hstart
        | _ => exact hrows.elim
      · have hno : ∀ id next fs, ¬ q.Calls id next fs := by
          intro id' next fs hcall
          cases hcall with
          | first h => exact hfirst _ _ _ h
          | redo _ h =>
            cases hr.symm.trans h
            exact hrows trivial
        have hstart := heads_start henv env.steps hdb hsound hrows hfits
        dsimp only
        revert hstart
        cases a.start env.steps env ⟨db, q'⟩ with
        | error e m => exact fun hstart => .stays hno (hheads.trans hstart)
        | ok found m =>
          obtain ⟨ended, rest⟩ := found
          cases ended <;> exact fun hstart => .stays hno (hheads.trans hstart)

/-- A step that is neither a call nor a failure leaves the arena alone. -/
theorem ended_extends {α : Type} {act : Act α} (henv : env.Sound false) (hdb : db.Sound)
    (hfail : q.next ≠ .fail) (hcall : ∀ target args next, q.next ≠ .call target args next)
    {q₀ : Query} (h : Act.Does .loose q₀ act (fun _ q' => q'.frames = q.frames)
      fun q' => q'.frames = q.frames) :
    Act.Ended (fun q' => q.Extends q'.frames) (act env ⟨db, q₀⟩) := by
  refine (h.ends env db henv hdb).ended.mono fun q' hsame => .stays (fun id next fs hmade => ?_) ?_
  · cases hmade with
    | first h => exact hcall _ _ _ h
    | redo hn _ => exact hfail hn
  · rw [hsame]
    exact .refl _

theorem extends_step (henv : env.Sound false) (hx : x.Orderly) (hdb : db.Sound)
    (h : q.Got false x q.next) : Act.Ended (fun q' => q.Extends q'.frames) (step env ⟨db, q⟩) := by
  have hfound : (q.holding .fail).Got false x .fail := h.failing.next
  have hcode : (q.holding .fail).Got false x q.next := ⟨h.moves, hfound.sound, h.executes⟩
  have hsolution : Act.Does .loose (q.holding .fail) (return .found (← solution))
      (fun (_ : Progress) q' => q'.frames = q.frames) fun q' => q'.frames = q.frames :=
    .read (Act.reads_solution hfound.sound nofun) rfl fun _ _ => .pure rfl
  rw [step, Act.bind_apply]
  simp only [takeNext, Act.modifyGet_apply]
  cases hnext : q.next with
  | fail =>
    have hsame : q.holding .fail = q := by rw [← hnext]
    have hback : Act.Ended (fun q' => q.Extends q'.frames) (backtrack env ⟨db, q.holding .fail⟩) := by
      rw [hsame]
      exact extends_backtrack henv hx hdb h.sound hnext h.moves
    simp only [Act.bind_apply]
    revert hback
    cases backtrack env ⟨db, q.holding .fail⟩ with
    | error e m => exact fun hback => hback
    | ok found m => cases found <;> exact fun hback => hback
  | succeed =>
    refine ended_extends henv hdb (by simp [hnext]) (by simp [hnext]) (.get_bind fun db _ => ?_)
    dsimp only
    split
    · split
      · exact .modifyQuery_bind (.pure rfl)
      · exact hsolution
    · exact hsolution
  | call target args next =>
    rw [hnext] at hcode
    refine (Act.Does.ends (μ := .loose) ?_ env db henv hdb).ended.mono
      fun q' he => .calls (.first hnext) he
    exact (Act.enters_call (μ := .loose) hcode).bind fun _ _ he => .modifyQuery_bind (.pure he)
  | _ =>
    refine ended_extends henv hdb (by simp [hnext]) (by simp [hnext]) ?_
    exact (Act.frames_execute (by simp)).bind fun _ _ hsame => .modifyQuery_bind (.pure hsame)

end

-- ================================================== one phase

/-- What going on makes of the arena, phase by phase. -/
def Phase.Extends (q : Query) (fs' : Frames) : Phase → Prop
  | .running => q.Extends fs'
  | _ => q.frames.Heads fs'

theorem Phase.Holds.extends {entry : Clause} {q : Query} {phase : Phase}
    (h : phase.Holds false entry q) {env : Env} (henv : env.Sound false) {db : Database}
    (hdb : db.Sound) :
    Act.Ended (fun q' => phase.Extends q q'.frames) (Act.advance phase env ⟨db, q⟩) := by
  cases phase with
  | running =>
    have hstep := extends_step henv (orderly_start entry) hdb h
    rw [Act.advance_running]
    revert hstep
    cases step env ⟨db, q⟩ with
    | ok progress m => cases progress <;> exact fun hstep => hstep
    | error e m => cases e <;> exact fun hstep => hstep
  | offering ball id =>
    rw [Act.advance_offering]
    cases hf : q.frames.get? id with
    | none => exact .refl _
    | some frame =>
      have hawaits : Query.Awaits false entry.outset { q with callee := id } id :=
        h.2.2 (.inr (Frames.lt_size_of_get? hf))
      have hasked := (Act.does_askFrame (μ := .loose) hawaits nofun rfl hf h.1).ends env db henv hdb
      dsimp only
      revert hasked
      cases Act.askFrame frame ball env ⟨db, { q with callee := id }⟩ with
      | error e m => exact fun hasked => hasked.2.1.2
      | ok caught m =>
        cases caught with
        | some code => exact fun hasked => hasked.2.2
        | none => cases frame.caller <;> exact fun hasked => hasked.2.2.1
  | ended => exact .refl _

end LogicMachine
