/-
What a query does in a turn.

A query takes turns with the others of its session. In its own turn it goes
on to its next phase, and either it does no more than an act of the library
may do, or it calls a procedure, or it goes back to its topmost choice point
that has something left and tries what is on offer there (`Act.turned_advance`).
A procedure is called because the code says so, or as the first row of a table,
with the others put on offer, or as the next of such rows (`Machine.Invokes`).

Not all that is called does as acts do: two built-ins put rows on offer, and so
does the call of a table. But whatever is done, points are numbered in order
and the database evolves (`Act.Wends`); and forcing a thunk, which runs a query
of its own, leaves the query that needs its value alone (`Env.steady_nested`).
-/
import LogicMachine.Proofs.Deeds
import LogicMachine.Proofs.Entering

namespace LogicMachine

-- ================================================== whatever is done

/-- What holds of the points of a query whatever is done. -/
structure Machine.Went (m m' : Machine) : Prop where
  db : m.db.Evolves m'.db
  serial : m.query.choices.serial ≤ m'.query.choices.serial
  ordered : m.query.choices.Ordered → m'.query.choices.Ordered

theorem Deed.went {m m' : Machine} (h : Deed m m') : m.Went m' := ⟨h.db, h.serial, h.ordered⟩

theorem Machine.Went.trans {m m' m'' : Machine} (h : m.Went m') (h' : m'.Went m'') : m.Went m'' :=
  ⟨h.db.trans h'.db, h.serial.trans h'.serial, fun ho => h'.ordered (h.ordered ho)⟩

namespace Act

variable {α β : Type} {act : Act α}

/-- Whatever becomes of the act, the database has evolved and points have been
numbered in order. -/
structure Wends (act : Act α) : Prop where
  ends : ∀ (env : Env) (m : Machine), env.Steady → m.Went (left (act env m))

theorem Deeds.wends (h : Deeds act) : Wends act := ⟨fun env m henv => (h.ends env m henv).went⟩

namespace Wends

theorem bind {next : α → Act β} (h : Wends act) (hn : ∀ a, Wends (next a)) :
    Wends (act >>= next) := by
  refine ⟨fun env m henv => ?_⟩
  have hact := h.ends env m henv
  rw [bind_apply]
  cases hr : act env m with
  | ok a m' =>
    rw [hr] at hact
    exact hact.trans ((hn a).ends env m' henv)
  | error e m' =>
    rw [hr] at hact
    exact hact

theorem attempt (h : Wends act) : Wends (Act.attempt act) := by
  refine ⟨fun env m henv => ?_⟩
  have hact := h.ends env m henv
  rw [attempt_apply]
  cases hr : act env m with
  | ok a m' =>
    rw [hr] at hact
    exact hact
  | error e m' =>
    rw [hr] at hact
    exact hact

end Wends

end Act

/-- The query with the rows of a call on offer, apart from the first. -/
def Query.offeringRest (q : Query) (rows : Array Row) (args : List Term) (next : Code) : Query :=
  if rows.size > 1 then
    { q with
      choices := q.choices.push q.callee (q.ancestry + 1) q.frames.size none
        (.rows rows 1 args next q.callee q.ancestry) }
  else q

theorem Query.went_offeringRest (db : Database) (q : Query) (rows : Array Row) (args : List Term)
    (next : Code) : Machine.Went ⟨db, q⟩ ⟨db, q.offeringRest rows args next⟩ := by
  unfold Query.offeringRest
  split
  · exact ⟨.refl db, Nat.le_succ _, fun ho => ho.push ..⟩
  · exact ⟨.refl db, le_rfl, id⟩

namespace Act

-- ================================================== calls

theorem deeds_boundArgs (site : CallSite) : Deeds site.boundArgs :=
  .bind deeds_frames fun _ => .pure _

theorem deeds_enter (site : CallSite) (locals : Nat) (base : Option FrameId) :
    Deeds (enter site locals base) := .modifyQuery fun _ => rfl

theorem deeds_compileGoal (goal : Term) (template : Bool) :
    Deeds (Database.compileGoal goal template : Act Clause) :=
  .store (Database.evolves_compileGoal goal template)

theorem deeds_runGoal (site : CallSite) (goal : Term) : Deeds (runGoal site goal) := by
  refine .bind (deeds_strip goal) fun t => ?_
  split
  · exact .throw _
  · exact .throw _
  · exact .bind (deeds_compileGoal _ _) fun _ => .bind (deeds_enter _ _ _) fun _ => .pure _
  · exact .bind (deeds_compileGoal _ _) fun _ => .bind (deeds_enter _ _ _) fun _ => .pure _
  · exact .bind (deeds_compileGoal _ _) fun _ => .bind (deeds_enter _ _ _) fun _ => .pure _
  · exact .throw _

theorem deeds_extendGoal (goal : Term) (extra : List Term) : Deeds (extendGoal goal extra) := by
  refine .bind (deeds_strip goal) fun t => ?_
  split
  · exact .throw _
  · exact .throw _
  · exact deeds_term _ _
  · exact deeds_term _ _
  · exact deeds_term _ _
  · exact .throw _

theorem deeds_callGoal (site : CallSite) : Deeds (callGoal site) := by
  refine .bind (deeds_boundArgs site) fun args => ?_
  split
  · exact .throw _
  · exact deeds_runGoal site _
  · exact .bind (deeds_extendGoal _ _) fun _ => deeds_runGoal site _

/-- The rows that the predicate has are put on offer. -/
theorem wends_matching (head body : Term) (remove : Bool) :
    Wends (Clauses.matching head body remove) := by
  refine .bind (Deeds.checked _).wends fun p => .bind deeds_get.wends fun m => ?_
  dsimp only
  split
  · exact (Deeds.pure _).wends
  · exact .bind (deeds_term _ _).wends fun _ =>
      .bind ⟨fun _ m _ => ⟨.refl m.db, Nat.le_succ _, fun ho => ho.push ..⟩⟩ fun _ =>
        (Deeds.pure _).wends

theorem wends_retract (c : Term) : Wends (Clauses.retract c) :=
  .bind (deeds_headAndBody c).wends fun _ => wends_matching _ _ _

theorem wends_clause (head body : Term) : Wends (Clauses.clause head body) := by
  refine .bind (deeds_headAndBody head).wends fun _ => .bind (deeds_strip body).wends fun body => ?_
  dsimp only
  split
  · exact (Deeds.throw_bind _).wends
  · exact wends_matching _ _ _

theorem wends_framed (builtin : Framed) (args : List Term) : Wends (builtin.run args) := by
  cases hlooks : builtin.looksUp with
  | false => exact (deeds_framed hlooks args).wends
  | true =>
    unfold Framed.run
    split
    case h_4 => exact wends_retract _
    case h_5 => exact wends_clause _ _
    all_goals first
      | exact (Deeds.throw _).wends
      | cases hlooks

end Act

/-- Whether a procedure puts the clauses of a predicate on offer. -/
def Procedure.looksUp : Procedure → Bool
  | .framed builtin => builtin.looksUp
  | _ => false

theorem Procedure.exists_framed {procedure : Procedure} (h : procedure.looksUp = true) :
    ∃ builtin : Framed, procedure = .framed builtin ∧ builtin.looksUp = true := by
  cases procedure with
  | framed builtin => exact ⟨builtin, rfl, h⟩
  | _ => cases h

namespace Act

theorem deeds_invoke {site : CallSite} (h : site.procedure.looksUp = false) :
    Deeds site.invoke := by
  unfold CallSite.invoke
  split
  · refine .bind (deeds_enter _ _ _) fun _ => .bind deeds_callee fun _ =>
      .bind (deeds_unifyArgs _ _ _ _) fun ok => ?_
    split <;> exact .pure _
  · refine .bind (deeds_boundArgs site) fun args => .bind (deeds_direct _ _) fun ok => ?_
    split <;> exact .pure _
  · rename_i builtin hbuiltin
    rw [hbuiltin] at h
    split
    · exact .throw_bind _
    · exact .bind (deeds_enter _ _ _) fun _ => .bind (deeds_boundArgs site) fun args =>
        deeds_framed h args
  · exact deeds_callGoal site
  · exact .bind (deeds_collect _ _) fun _ => .pure _
  · exact .bind (deeds_enter _ _ _) fun _ => .bind (deeds_boundArgs site) fun _ => .pure _

theorem wends_invoke (site : CallSite) : Wends site.invoke := by
  cases hlooks : site.procedure.looksUp with
  | false => exact (deeds_invoke hlooks).wends
  | true =>
    obtain ⟨builtin, hbuiltin, -⟩ := Procedure.exists_framed hlooks
    unfold CallSite.invoke
    rw [hbuiltin]
    dsimp only
    split
    · exact (Deeds.throw_bind _).wends
    · exact .bind (deeds_enter _ _ _).wends fun _ => .bind (deeds_boundArgs site).wends fun args =>
        wends_framed builtin args

section

variable {procedure : Procedure} {args : List Term} {caller : FrameId} {next : Code} {revision : Nat}

theorem deed_calling (next : Code) (revision : Nat) (db : Database) (q : Query) :
    Deed ⟨db, q⟩ ⟨db, q.calling next revision⟩ := .of_choices (.refl db) rfl

theorem deeds_callProcedure (h : procedure.looksUp = false) :
    Deeds (callProcedure procedure args caller next revision) := by
  refine ⟨fun env m henv => ?_⟩
  obtain ⟨db, q⟩ := m
  rw [callProcedure_apply]
  exact (deed_calling next revision db q).trans ((deeds_invoke h).ends env _ henv)

theorem wends_callProcedure : Wends (callProcedure procedure args caller next revision) := by
  refine ⟨fun env m henv => ?_⟩
  obtain ⟨db, q⟩ := m
  rw [callProcedure_apply]
  exact (deed_calling next revision db q).went.trans ((wends_invoke _).ends env _ henv)

end

theorem deeds_undefinedPredicate (p : Predicate) : Deeds (undefinedPredicate p) := by
  refine .bind deeds_get fun m => ?_
  split
  · exact .pure _
  · exact .pure _
  · exact .throw _

/-- Calling a table calls the first row that it has at that moment, with the
others on offer. -/
theorem selectRow_eq (table : Nat) (predicate : Predicate) (args : List Term) (next : Code)
    (env : Env) (m : Machine) :
    selectRow table predicate args next env m = match (m.db.rowsAt table)[0]? with
      | none => undefinedPredicate predicate env m
      | some first => callProcedure first.procedure args m.query.callee next m.query.ancestry env
        ⟨m.db, m.query.offeringRest (m.db.rowsAt table) args next⟩ := by
  rw [selectRow, bind_apply, get_apply]
  dsimp only
  cases (m.db.rowsAt table)[0]? with
  | none => rfl
  | some first =>
    unfold Query.offeringRest
    dsimp only
    split
    · rw [bind_apply, modifyQuery_apply]
    · rfl

theorem wends_selectRow (table : Nat) (predicate : Predicate) (args : List Term) (next : Code) :
    Wends (selectRow table predicate args next) := by
  refine ⟨fun env m henv => ?_⟩
  rw [selectRow_eq]
  cases (m.db.rowsAt table)[0]? with
  | none => exact (deeds_undefinedPredicate predicate).wends.ends env m henv
  | some first =>
    exact (Query.went_offeringRest m.db m.query _ args next).trans
      (wends_callProcedure.ends env _ henv)

-- ================================================== trials

theorem deeds_runClause (p : Predicate) (row : Row) (pattern : Term) (remove : Bool) :
    Deeds (Trial.runClause p row pattern remove) := by
  have hunify : ∀ stored : Term, Deeds (do
      if ← Act.unify pattern stored then return some Code.succeed else return none) := by
    refine fun stored => .bind (deeds_unify _ _) fun ok => ?_
    split <;> exact .pure _
  unfold Trial.runClause
  split
  · exact .pure _
  · refine .bind (deeds_term _ _) fun _ => .bind (deeds_rebind _) fun stored =>
      .bind (deeds_unifiable _ _) fun ok => ?_
    dsimp only
    split
    · exact .pure _
    · split
      · refine .bind (.store (Database.evolves_remove p row.id)) fun found => ?_
        split
        · exact .pure _
        · exact hunify stored
      · exact hunify stored

theorem deeds_trial {trial : Trial} (h : ∀ procedure args caller next revision,
    trial ≠ .row procedure args caller next revision) : Deeds trial.run := by
  cases trial with
  | code c => exact .pure _
  | row procedure args caller next revision => exact absurd rfl (h _ _ _ _ _)
  | deliver collector target => exact .bind (deeds_deliver _ _) fun _ => .pure _
  | unify left right => exact .bind (deeds_unify _ _) fun _ => .pure _
  | candidate left right =>
    refine .bind (deeds_unify _ _) fun ok => ?_
    split <;> exact .pure _
  | clause predicate stored pattern remove => exact deeds_runClause _ _ _ _

theorem wends_trial (trial : Trial) : Wends trial.run := by
  cases trial with
  | row procedure args caller next revision =>
    exact .bind wends_callProcedure fun _ => (Deeds.pure _).wends
  | _ => exact (deeds_trial (by simp)).wends

/-- Trying alternatives that are no rows to be called does no more than the
trials do. -/
theorem deeds_start (steps : Nat) {a : Alternatives} (ha : ¬ a.IsRows) : Deeds (a.start steps) := by
  induction steps generalizing a with
  | zero => exact .pure _
  | succ steps ih =>
    unfold Alternatives.start
    split
    · exact .pure _
    · rename_i trial rest hnext
      obtain ⟨hrest, htrial⟩ := Alternatives.IsRows.of_next? ha hnext
      refine .bind (deeds_trial htrial).attempt fun ended => ?_
      split
      · exact .pure _
      · exact ih hrest
      · exact .pure _

theorem wends_start (steps : Nat) (a : Alternatives) : Wends (a.start steps) := by
  induction steps generalizing a with
  | zero => exact (Deeds.pure _).wends
  | succ steps ih =>
    unfold Alternatives.start
    split
    · exact (Deeds.pure _).wends
    · refine .bind (wends_trial _).attempt fun ended => ?_
      split
      · exact (Deeds.pure _).wends
      · exact ih _
      · exact (Deeds.pure _).wends

-- ================================================== code

theorem deeds_execute {code : Code} (h : ∀ target args next, code ≠ .call target args next) :
    Deeds (execute code) := by
  cases code with
  | succeed | fail | noop => exact .pure _
  | choice scope branches =>
    cases branches with
    | nil => exact .pure _
    | cons first rest =>
      unfold execute
      dsimp only
      split
      · exact .bind ⟨fun _ _ _ => .push (.refl _) _ _ _ _ rfl rfl⟩ fun _ => .pure _
      · exact .pure _
  | cut scope next =>
    refine .bind ⟨fun _ m _ => ?_⟩ fun _ => .pure _
    obtain ⟨gone, kept, cells, hpoints, -, -, hcut⟩ := m.query.choices.cut_split m.query.frames
      (m.query.frames.ancestry m.query.callee) (scope.map (·, m.query.callee))
    have hkept : Deed m
        ⟨m.db, { m.query with choices := { m.query.choices with points := kept } }⟩ :=
      .of_kept (.refl _) rfl (hpoints ▸ List.sublist_append_right gone kept)
    exact hkept.trans (.of_recorded (.refl _) _ _ hcut)
  | call target args next => exact absurd rfl (h target args next)

theorem wends_execute (code : Code) : Wends (execute code) := by
  cases code with
  | call target args next =>
    cases target with
    | procedure procedure => exact .bind deeds_get.wends fun _ => wends_callProcedure
    | table table predicate => exact wends_selectRow _ _ _ _
  | _ => exact (deeds_execute (by simp)).wends

theorem deeds_solution : Deeds solution :=
  .bind deeds_get fun _ => .bind (.mapM (fun _ => deeds_strip _) _) fun _ =>
    .bind (deeds_detachAll _) fun _ => .pure _

/-- The code that succeeds returns to the caller, or reads off a solution. -/
theorem deeds_return : Deeds (do
    let q := (← get).query
    match q.frames.get? q.callee with
    | some frame =>
      match frame.caller with
      | some caller =>
        modifyQuery fun q => { q with next := frame.next, callee := caller }
        return .running
      | none => return .found (← solution)
    | none => return .found (← solution) : Act Progress) := by
  refine .bind deeds_get fun _ => ?_
  dsimp only
  split
  · split
    · exact .bind (.modifyQuery fun _ => rfl) fun _ => .pure _
    · exact .bind deeds_solution fun _ => .pure _
  · exact .bind deeds_solution fun _ => .pure _

-- ================================================== balls

theorem deeds_askFrame (frame : Frame) (ball : Term) : Deeds (askFrame frame ball) := by
  unfold askFrame Procedure.catchBall
  split
  · split
    · exact deeds_catchBall ball
    · exact deeds_shieldBall ball
    · exact .pure _
  · exact .pure _

/-- A frame is asked when it is the running one. -/
theorem deed_asked {env : Env} (henv : env.Steady) (frame : Frame) (ball : Term) (id : FrameId)
    (m : Machine) :
    Deed m (left (askFrame frame ball env ⟨m.db, { m.query with callee := id }⟩)) := by
  have hentered : Deed m ⟨m.db, { m.query with callee := id }⟩ := .of_choices (.refl _) rfl
  exact hentered.trans ((deeds_askFrame frame ball).ends env _ henv)

/-- Dropping all choice points. -/
theorem deed_abandoned (m : Machine) : Deed m (abandoned m) :=
  .of_kept (.refl _) rfl (List.nil_sublist _)

theorem deed_offering {env : Env} (henv : env.Steady) (ball : Term) (id : FrameId) (m : Machine) :
    Deed m (left (advance (.offering ball id) env m)) := by
  rw [advance_offering]
  cases m.query.frames.get? id with
  | none => exact deed_abandoned m
  | some frame =>
    have hasked := deed_asked henv frame ball id m
    dsimp only
    cases hr : askFrame frame ball env ⟨m.db, { m.query with callee := id }⟩ with
    | error e m' =>
      rw [hr] at hasked
      exact hasked.trans (deed_abandoned m')
    | ok caught m' =>
      rw [hr] at hasked
      cases caught with
      | some code => exact hasked.trans (.of_choices (.refl _) rfl)
      | none =>
        cases frame.caller with
        | some caller => exact hasked
        | none => exact hasked.trans (deed_abandoned m')

end Act

-- ================================================== one turn

/-- In its next turn the query calls the procedure, and by then the machine is
`m₀`. -/
inductive Machine.Invokes (m : Machine) :
    Procedure → List Term → FrameId → Code → Nat → Machine → Prop
  /-- As the first row of a table, with the others on offer. -/
  | table {table : Nat} {predicate : Predicate} {args : List Term} {next : Code} {first : Row}
      (hcode : m.query.next = .call (.table table predicate) args next)
      (hfirst : (m.db.rowsAt table)[0]? = some first) :
    Invokes m first.procedure args m.query.callee next m.query.ancestry
      ⟨m.db, Query.offeringRest { m.query with next := .fail } (m.db.rowsAt table) args next⟩
  /-- By itself. -/
  | direct {procedure : Procedure} {args : List Term} {next : Code}
      (hcode : m.query.next = .call (.procedure procedure) args next) :
    Invokes m procedure args m.query.callee next m.query.ancestry
      ⟨m.db, { m.query with next := .fail }⟩
  /-- As the next of the rows that the query goes back to. -/
  | redo {id index revision : Nat} {rows : Array Row} {row : Row} {args : List Term} {next : Code}
      {caller : FrameId} {q : Query} (hfail : m.query.next = .fail)
      (hback : m.query.retreat = (some ⟨id, .rows rows index args next caller revision⟩, q))
      (hrow : rows[index]? = some row) :
    Invokes m row.procedure args caller next revision ⟨m.db, q⟩

/-- The query calls a table: the first of its rows is called, with the
others on offer. -/
structure Machine.Calls (env : Env) (m : Machine) (table : Nat) (args : List Term) (next : Code)
    (first : Row) (m' : Machine) : Prop where
  code : ∃ predicate, m.query.next = .call (.table table predicate) args next
  row : (m.db.rowsAt table)[0]? = some first
  called : Act.left (callProcedure first.procedure args m.query.callee next m.query.ancestry env
    ⟨m.db, Query.offeringRest { m.query with next := .fail } (m.db.rowsAt table) args next⟩) = m'

/-- The query goes back to its topmost choice point that has something left
and tries what is on offer there, until `rest` is left. -/
structure Machine.Resumes (env : Env) (m : Machine) (r : Resumption) (q : Query)
    (ended : Except Failure Code) (rest : Alternatives) (m' : Machine) : Prop where
  fails : m.query.next = .fail
  back : m.query.retreat = (some r, q)
  tried : r.alternatives.start env.steps env ⟨m.db, q⟩ = .ok (ended, rest) m'

/-- What a turn leads to: no more than an act may do, or what calling a
procedure leaves, or trying the alternatives of a point. -/
inductive Machine.Turned (env : Env) (m m' : Machine) : Prop
  | plain (hback : m.query.next = .fail → m.query.retreat.1 = none)
      (hcall : ∀ table predicate args next, m.query.next = .call (.table table predicate) args next →
        (m.db.rowsAt table)[0]? = none)
      (h : Deed m m')
  | called {procedure : Procedure} {args : List Term} {caller : FrameId} {next : Code}
      {revision : Nat} {m₀ : Machine} (hgo : m.query.next ≠ .fail)
      (h : m.Invokes procedure args caller next revision m₀)
      (hd : Deed (Act.left (callProcedure procedure args caller next revision env m₀)) m')
  | resumed {r : Resumption} {q : Query} {ended : Except Failure Code} {rest : Alternatives}
      {m₁ : Machine} (h : m.Resumes env r q ended rest m₁)
      (hd : Deed ⟨m₁.db, m₁.query.settle r.id rest⟩ m')

theorem Machine.Turned.trans {env : Env} {m m' m'' : Machine} (h : m.Turned env m')
    (hd : Deed m' m'') : m.Turned env m'' := by
  cases h with
  | plain hback hcall h => exact .plain hback hcall (h.trans hd)
  | called hgo h hd' => exact .called hgo h (hd'.trans hd)
  | resumed h hd' => exact .resumed h (hd'.trans hd)

namespace Act

variable {env : Env} {m : Machine}

theorem start_ok (steps : Nat) (a : Alternatives) (env : Env) (m : Machine) :
    ∃ ended rest m', a.start steps env m = .ok (ended, rest) m' := by
  induction steps generalizing a m with
  | zero => exact ⟨_, _, _, rfl⟩
  | succ steps ih =>
    rw [Alternatives.start_succ]
    cases a.next? with
    | none => exact ⟨_, _, _, rfl⟩
    | some next =>
      obtain ⟨trial, rest⟩ := next
      dsimp only
      cases trial.run env m with
      | error e m' => exact ⟨_, _, _, rfl⟩
      | ok code m' =>
        cases code with
        | some code => exact ⟨_, _, _, rfl⟩
        | none => exact ih rest m'

/-- With nothing left to go back to, all choice points are undone and dropped. -/
theorem deed_retreat {q q' : Query} (h : q.retreat = (none, q')) (db : Database) :
    Deed ⟨db, q⟩ ⟨db, q'⟩ := by
  obtain rfl := Query.retreat_none h
  exact .of_kept (.refl _) rfl (List.nil_sublist _)

theorem turned_backtrack (hfail : m.query.next = .fail) :
    m.Turned env (left (backtrack env m)) := by
  rw [backtrack_eq]
  cases hr : m.query.retreat with
  | mk found q =>
    cases found with
    | none =>
      exact .plain (fun _ => by rw [hr]) (fun _ _ _ _ hcode => nomatch hfail.symm.trans hcode)
        (deed_retreat hr m.db)
    | some r =>
      obtain ⟨ended, rest, m₁, hstart⟩ := start_ok env.steps r.alternatives env ⟨m.db, q⟩
      have hresumes : m.Resumes env r q ended rest m₁ := ⟨hfail, hr, hstart⟩
      simp only [hstart]
      cases ended with
      | ok code => exact .resumed hresumes (.of_choices (.refl _) rfl)
      | error e => exact .resumed hresumes (.refl _)

theorem deed_next (code : Code) (m : Machine) :
    Deed m ⟨m.db, { m.query with next := code }⟩ := .of_choices (.refl _) rfl

theorem turned_selectRow (henv : env.Steady) {table : Nat} {predicate : Predicate}
    {args : List Term} {next : Code} (hnext : m.query.next = .call (.table table predicate) args next) :
    m.Turned env (left (selectRow table predicate args next env
      ⟨m.db, { m.query with next := .fail }⟩)) := by
  have hgo : m.query.next ≠ .fail := by simp [hnext]
  rw [selectRow_eq]
  dsimp only
  cases hfirst : (m.db.rowsAt table)[0]? with
  | none =>
    refine .plain (fun hfail => absurd hfail hgo) (fun _ _ _ _ hcode => ?_)
      ((deed_next .fail m).trans ((deeds_undefinedPredicate predicate).ends env _ henv))
    cases hnext.symm.trans hcode
    exact hfirst
  | some first => exact .called hgo (.table hnext hfirst) (.refl _)

/-- Running a piece of code that is not failure or success. -/
theorem turned_execute (henv : env.Steady) {code : Code} (hnext : m.query.next = code)
    (hfail : code ≠ .fail) :
    m.Turned env (left (execute code env ⟨m.db, { m.query with next := .fail }⟩)) := by
  by_cases hcall : ∃ target args next, code = .call target args next
  · obtain ⟨target, args, next, rfl⟩ := hcall
    cases target with
    | table table predicate => exact turned_selectRow henv hnext
    | procedure procedure => exact .called (hnext ▸ hfail) (.direct hnext) (.refl _)
  · have hexecute : Deeds (execute code) :=
      deeds_execute fun target args next he => hcall ⟨target, args, next, he⟩
    exact .plain (fun hf => absurd (hnext.symm.trans hf) hfail)
      (fun table predicate args next hcode =>
        absurd ⟨.table table predicate, args, next, hnext.symm.trans hcode⟩ hcall)
      ((deed_next .fail m).trans (hexecute.ends env _ henv))

theorem turned_step (henv : env.Steady) : m.Turned env (left (step env m)) := by
  rw [step, bind_apply]
  simp only [takeNext, modifyGet_apply]
  cases hnext : m.query.next with
  | fail =>
    have hsame : (⟨m.db, { m.query with next := .fail }⟩ : Machine) = m := by rw [← hnext]
    have hback : m.Turned env (left (backtrack env m)) := turned_backtrack hnext
    rw [hsame]
    simp only [bind_apply]
    cases hr : backtrack env m with
    | error e m' =>
      rw [hr] at hback
      exact hback
    | ok found m' =>
      rw [hr] at hback
      cases found <;> exact hback
  | succeed =>
    refine .plain (fun hf => absurd (hnext.symm.trans hf) (by simp))
      (fun _ _ _ _ hcode => absurd (hnext.symm.trans hcode) (by simp))
      ((deed_next .fail m).trans (deeds_return.ends env _ henv))
  | noop | choice | cut | call =>
    have hrun := turned_execute henv hnext (by simp)
    dsimp only
    rw [bind_apply]
    revert hrun
    cases execute _ env ⟨m.db, { m.query with next := .fail }⟩ with
    | error e m' => exact id
    | ok code m' => exact fun hrun => hrun.trans (deed_next code m')

/-- What is true after a step and whatever acts do then is true after the turn. -/
theorem left_advance (henv : env.Steady) {after : Machine → Prop}
    (hafter : ∀ {m' m'' : Machine}, after m' → Deed m' m'' → after m'')
    (h : after (left (step env m))) : after (left (advance .running env m)) := by
  rw [advance_running]
  cases hr : step env m with
  | ok progress m' =>
    rw [hr] at h
    cases progress with
    | exhausted => exact hafter h (.of_choices (.refl _) rfl)
    | _ => exact h
  | error e m' =>
    rw [hr] at h
    cases e with
    | thrown raw =>
      have hcopy := (deeds_detach raw).ends env m' henv
      dsimp only
      cases hc : detach raw env m' with
      | ok ball m'' =>
        rw [hc] at hcopy
        exact hafter h hcopy
      | error e m'' =>
        rw [hc] at hcopy
        exact hafter h hcopy
    | _ => exact hafter h (deed_abandoned m')

/-- In its turn a query does what acts may do, or it calls a procedure, or it
resumes a choice point. -/
theorem turned_advance (henv : env.Steady) (phase : Phase) :
    (phase = .running ∧ m.Turned env (left (advance phase env m)))
      ∨ (phase ≠ .running ∧ Deed m (left (advance phase env m))) := by
  cases phase with
  | running => exact .inl ⟨rfl, left_advance henv Machine.Turned.trans (turned_step henv)⟩
  | offering ball id => exact .inr ⟨nofun, deed_offering henv ball id m⟩
  | ended => exact .inr ⟨nofun, .refl m⟩

end Act

-- ================================================== the step of a call

/-- A call of a table with rows is a call of the first. -/
theorem Act.step_table {m : Machine} {table : Nat} {predicate : Predicate} {args : List Term}
    {next : Code} {first : Row} (hcode : m.query.next = .call (.table table predicate) args next)
    (hfirst : (m.db.rowsAt table)[0]? = some first) (env : Env) :
    step env m = match callProcedure first.procedure args m.query.callee next m.query.ancestry env
        ⟨m.db, Query.offeringRest { m.query with next := .fail } (m.db.rowsAt table) args next⟩ with
      | .ok code m' => .ok .running ⟨m'.db, m'.query.holding code⟩
      | .error e m' => .error e m' := by
  rw [step, Act.bind_apply]
  simp only [takeNext, Act.modifyGet_apply, hcode, execute]
  rw [Act.bind_apply, Act.selectRow_eq]
  simp only [hfirst]
  cases callProcedure first.procedure args m.query.callee next m.query.ancestry env
    ⟨m.db, Query.offeringRest { m.query with next := .fail } (m.db.rowsAt table) args next⟩ <;> rfl

/-- Of rows to be called the next is, and the others are left. -/
theorem Alternatives.start_rows {rows : Array Row} {index : Nat} {row : Row} {args : List Term}
    {next : Code} {caller : FrameId} {revision steps : Nat} (hrow : rows[index]? = some row)
    (hsteps : 0 < steps) (env : Env) (m : Machine) :
    (Alternatives.rows rows index args next caller revision).start steps env m
      = match callProcedure row.procedure args caller next revision env m with
        | .ok code m' => .ok (.ok code, .rows rows (index + 1) args next caller revision) m'
        | .error e m' => .ok (.error e, .rows rows (index + 1) args next caller revision) m' := by
  obtain ⟨steps, rfl⟩ := Nat.exists_eq_succ_of_ne_zero hsteps.ne'
  have hnext : (Alternatives.rows rows index args next caller revision).next?
      = some (.row row.procedure args caller next revision,
        .rows rows (index + 1) args next caller revision) := by simp only [next?, hrow]
  rw [start_succ, hnext]
  dsimp only [Trial.run]
  rw [Act.bind_apply]
  cases callProcedure row.procedure args caller next revision env m <;> rfl

/-- After a call what is left of the rows that the query has gone back to is put
back, if it has gone back to any, into a point of at most this number. -/
inductive Query.PutsBack (serial : Nat) (q : Query) : Query → Prop
  | nothing : PutsBack serial q q
  | rows (id : Nat) (rest : Alternatives) (h : id ≤ serial) : PutsBack serial q (q.settle id rest)

/-- A step in which a procedure is called ends as the call does. -/
theorem Machine.Invokes.step_ends {m m₀ : Machine} {procedure : Procedure} {args : List Term}
    {caller : FrameId} {next : Code} {revision : Nat}
    (h : m.Invokes procedure args caller next revision m₀) (ho : m.query.choices.Ordered) {env : Env}
    (hsteps : 0 < env.steps) : match callProcedure procedure args caller next revision env m₀ with
      | .ok code m₁ => ∃ q, m₁.query.PutsBack m₀.query.choices.serial q
        ∧ step env m = .ok .running ⟨m₁.db, q.holding code⟩
      | .error e m₁ => ∃ q, m₁.query.PutsBack m₀.query.choices.serial q
        ∧ step env m = .error e ⟨m₁.db, q⟩ := by
  have hends : ∀ (put : Query → Query) {n : Nat} {r : EStateM.Result Failure Machine Code},
      (∀ q : Query, q.PutsBack n (put q)) → step env m = (match r with
        | .ok code m₁ => .ok .running ⟨m₁.db, (put m₁.query).holding code⟩
        | .error e m₁ => .error e ⟨m₁.db, put m₁.query⟩) →
      match r with
        | .ok code m₁ => ∃ q, m₁.query.PutsBack n q
          ∧ step env m = .ok .running ⟨m₁.db, q.holding code⟩
        | .error e m₁ => ∃ q, m₁.query.PutsBack n q ∧ step env m = .error e ⟨m₁.db, q⟩ := by
    intro put n r hback hstep
    cases r with
    | ok code m₁ => exact ⟨_, hback _, hstep⟩
    | error e m₁ => exact ⟨_, hback _, hstep⟩
  cases h with
  | @table table predicate args next first hcode hfirst =>
    exact hends id (fun q => .nothing) (Act.step_table hcode hfirst env)
  | @direct procedure args next hcode =>
    refine hends id (fun q => .nothing) ?_
    rw [step, Act.bind_apply]
    simp only [takeNext, Act.modifyGet_apply, hcode, execute, Act.bind_apply, Act.get_apply]
    cases callProcedure procedure args m.query.callee next m.query.ancestry env _ <;> rfl
  | @redo id index revision rows row args next caller q hfail hback hrow =>
    have hid : id ≤ q.choices.serial := by
      obtain ⟨above, p, below, hpoints, rfl, -, -, -, rfl⟩ := Query.retreat_split hback
      exact ho.le_serial p (hpoints ▸ by simp)
    have hsame : (⟨m.db, { m.query with next := .fail }⟩ : Machine) = m := by rw [← hfail]
    refine hends (·.settle id (.rows rows (index + 1) args next caller revision))
      (fun q => .rows id _ hid) ?_
    rw [step, Act.bind_apply]
    simp only [takeNext, Act.modifyGet_apply, hfail]
    rw [hsame, Act.bind_apply, backtrack_eq, hback]
    simp only [Alternatives.start_rows hrow hsteps]
    cases callProcedure row.procedure args caller next revision env ⟨m.db, q⟩ <;> rfl

/-- Going back to rows to be called calls the next of them. -/
theorem Machine.Resumes.calls {env : Env} {m m' : Machine} {id index : Nat} {rows : Array Row}
    {args : List Term} {next : Code} {caller : FrameId} {revision : Nat} {q : Query}
    {ended : Except Failure Code} {rest : Alternatives}
    (h : m.Resumes env ⟨id, .rows rows index args next caller revision⟩ q ended rest m')
    (hsteps : 0 < env.steps) :
    ∃ row, rows[index]? = some row
      ∧ m.Invokes row.procedure args caller next revision ⟨m.db, q⟩
      ∧ rest = .rows rows (index + 1) args next caller revision
      ∧ callProcedure row.procedure args caller next revision env ⟨m.db, q⟩ = match ended with
        | .ok code => .ok code m'
        | .error e => .error e m' := by
  obtain ⟨-, -, -, -, -, -, hmore, -, -⟩ := Query.retreat_split h.back
  have hlt : index < rows.size := by simpa [Alternatives.hasNext] using hmore
  have hrow : rows[index]? = some rows[index] := Array.getElem?_eq_getElem hlt
  have htried := h.tried
  dsimp only at htried
  rw [Alternatives.start_rows hrow hsteps] at htried
  refine ⟨rows[index], hrow, .redo h.fails h.back hrow, ?_⟩
  cases hr : callProcedure rows[index].procedure args caller next revision env ⟨m.db, q⟩ with
  | ok code m₁ | error e m₁ =>
    rw [hr] at htried
    cases htried
    exact ⟨rfl, rfl⟩

-- ================================================== the points after a turn

namespace ChoiceStack.Ordered

variable {q q' : Query}

theorem settle (h : q.choices.Ordered) (id : Nat) (rest : Alternatives) :
    (q.settle id rest).choices.Ordered := by
  have hrestored : (q.choices.restore id rest).Ordered := by
    refine h.congr rfl ((q.choices.forall₂_restore id rest).imp fun p p' hp => ?_)
    rcases hp with rfl | ⟨-, rfl⟩ <;> rfl
  unfold Query.settle
  dsimp only
  split
  · exact hrestored
  · obtain ⟨top, below, hpoints, -, hdrop⟩ | hdrop :=
      (q.choices.restore id rest).dropTop_cases q.frames id
    · have hbelow : Ordered { q.choices.restore id rest with points := below } :=
        hrestored.sublist rfl (hpoints ▸ List.sublist_cons_self top below)
      rw [hdrop]
      exact hbelow.recordAll _ _
    · rw [hdrop]
      exact hrestored

theorem retreat (h : q.choices.Ordered) {r : Resumption} (hr : q.retreat = (some r, q')) :
    q'.choices.Ordered := by
  obtain ⟨above, p, below, hpoints, -, -, -, -, rfl⟩ := Query.retreat_split hr
  have hkept : ChoiceStack.Ordered { q.choices with points := p :: below } :=
    h.sublist rfl (hpoints ▸ List.sublist_append_right above _)
  exact hkept.congr rfl (.cons rfl (List.forall₂_same.2 fun _ _ => rfl))

/-- Alternatives are put back into the one point that has the number. -/
theorem mem_restore {cs : ChoiceStack} (h : cs.Ordered) {id : Nat} {a : Alternatives}
    {p' : ChoicePoint} (hp' : p' ∈ (cs.restore id a).points) :
    p'.id = id ∧ p'.alternatives = some a ∨ p'.id ≠ id ∧ p' ∈ cs.points := by
  have hgo : ∀ points : List ChoicePoint,
      (points.map ChoicePoint.id).Pairwise (fun i j => j < i) → p' ∈ restore.go id a points →
        p'.id = id ∧ p'.alternatives = some a ∨ p'.id ≠ id ∧ p' ∈ points := by
    intro points hids hmem
    induction points with
    | nil => exact absurd hmem List.not_mem_nil
    | cons p rest ih =>
      unfold restore.go at hmem
      split at hmem
      · rename_i hid
        rcases List.mem_cons.1 hmem with rfl | hmem
        · exact .inl ⟨hid, rfl⟩
        · have hlt := List.rel_of_pairwise_cons hids (List.mem_map_of_mem hmem)
          exact .inr ⟨(hlt.trans_eq hid).ne, List.mem_cons_of_mem _ hmem⟩
      · rename_i hid
        rcases List.mem_cons.1 hmem with rfl | hmem
        · exact .inr ⟨hid, List.mem_cons_self⟩
        · exact (ih hids.of_cons hmem).imp_right fun h => ⟨h.1, List.mem_cons_of_mem _ h.2⟩
  exact hgo cs.points h.falling hp'

/-- The points after what is left of some alternatives was put back. -/
theorem mem_settle (h : q.choices.Ordered) {id : Nat} {rest : Alternatives} {p' : ChoicePoint}
    (hp' : p' ∈ (q.settle id rest).choices.points) :
    p'.id = id ∧ p'.alternatives = some rest
      ∨ p'.id ≠ id ∧ ∃ p ∈ q.choices.points, p.id = p'.id ∧ p.alternatives = p'.alternatives := by
  have hrestored : ∀ p ∈ (q.choices.restore id rest).points, p.id = id ∧ p.alternatives = some rest
      ∨ p.id ≠ id ∧ ∃ p₀ ∈ q.choices.points, p₀.id = p.id ∧ p₀.alternatives = p.alternatives :=
    fun p hp => (h.mem_restore hp).imp_right fun h => ⟨h.1, p, h.2, rfl, rfl⟩
  unfold Query.settle at hp'
  dsimp only at hp'
  split at hp'
  · exact hrestored p' hp'
  · obtain ⟨top, below, hpoints, -, hdrop⟩ | hdrop :=
      (q.choices.restore id rest).dropTop_cases q.frames id
    · rw [hdrop] at hp'
      obtain ⟨p, hp, hsame⟩ := exists_left_of_forall₂
        (ChoiceStack.samePoints_recordAll q.frames top.trail _) p' hp'
      rw [hsame.same.id, hsame.alternatives]
      exact hrestored p (hpoints ▸ List.mem_cons_of_mem _ hp)
    · rw [hdrop] at hp'
      exact hrestored p' hp'

end ChoiceStack.Ordered

/-- A turn in which a table with rows is called calls the first. -/
theorem Machine.Turned.calls {env : Env} {m m' : Machine} (h : m.Turned env m') {table : Nat}
    {predicate : Predicate} {args : List Term} {next : Code} {first : Row}
    (hcode : m.query.next = .call (.table table predicate) args next)
    (hfirst : (m.db.rowsAt table)[0]? = some first) :
    ∃ m₁, m.Calls env table args next first m₁ ∧ Deed m₁ m' := by
  cases h with
  | plain _ hcall _ => exact nomatch (hcall _ _ _ _ hcode).symm.trans hfirst
  | called hgo h hd =>
    cases h with
    | table hcode' hfirst' =>
      cases hcode.symm.trans hcode'
      cases hfirst.symm.trans hfirst'
      exact ⟨_, ⟨⟨predicate, hcode⟩, hfirst, rfl⟩, hd⟩
    | direct hcode' => exact nomatch hcode.symm.trans hcode'
    | redo hfail => exact absurd hfail hgo
  | resumed h _ => exact nomatch hcode.symm.trans h.fails

/-- Going back to a point makes none. -/
theorem Query.went_retreat {db : Database} {q q' : Query} {r : Resumption}
    (h : q.retreat = (some r, q')) : Machine.Went ⟨db, q⟩ ⟨db, q'⟩ := by
  refine ⟨.refl _, ?_, fun ho => ho.retreat h⟩
  obtain ⟨-, -, -, -, -, -, -, -, rfl⟩ := Query.retreat_split h
  exact le_rfl

theorem Machine.Invokes.went {m m₀ : Machine} {procedure : Procedure} {args : List Term}
    {caller : FrameId} {next : Code} {revision : Nat}
    (h : m.Invokes procedure args caller next revision m₀) : m.Went m₀ := by
  cases h with
  | table => exact (Act.deed_next .fail m).went.trans (Query.went_offeringRest m.db _ _ _ _)
  | direct => exact (Act.deed_next .fail m).went
  | redo _ hback _ => exact Query.went_retreat hback

namespace Act

/-- Going back and trying what is on offer there. -/
theorem wends_backtrack : Wends backtrack := by
  refine ⟨fun env m henv => ?_⟩
  rw [backtrack_eq]
  cases hr : m.query.retreat with
  | mk found q =>
    cases found with
    | none => exact (deed_retreat hr m.db).went
    | some r =>
      have hback : m.Went ⟨m.db, q⟩ := Query.went_retreat hr
      have htried := (wends_start env.steps r.alternatives).ends env ⟨m.db, q⟩ henv
      obtain ⟨ended, rest, m₁, hstart⟩ := start_ok env.steps r.alternatives env ⟨m.db, q⟩
      rw [hstart] at htried
      have hsettled : m₁.Went ⟨m₁.db, m₁.query.settle r.id rest⟩ :=
        ⟨.refl _, (serial_settle ..).ge, fun ho => ho.settle r.id rest⟩
      simp only [hstart]
      cases ended with
      | ok code => exact ((hback.trans htried).trans hsettled).trans (deed_next code _).went
      | error e => exact (hback.trans htried).trans hsettled

theorem wends_step : Wends step := by
  have hnext : ∀ code, Deeds (modifyQuery fun q => { q with next := code }) :=
    fun _ => .modifyQuery fun _ => rfl
  refine .bind (Deeds.modifyGet fun m => deed_next .fail m).wends fun code => ?_
  cases code with
  | fail => exact .bind wends_backtrack fun _ => (Deeds.pure _).wends
  | succeed => exact deeds_return.wends
  | noop | choice | cut | call =>
    exact .bind (wends_execute _) fun code => ((hnext code).bind fun _ => .pure _).wends

/-- However a query goes on to its next phase. -/
theorem went_advance {env : Env} (henv : env.Steady) (phase : Phase) (m : Machine) :
    m.Went (left (advance phase env m)) := by
  cases phase with
  | running => exact left_advance henv (fun h hd => h.trans hd.went) (wends_step.ends env m henv)
  | offering ball id => exact (deed_offering henv ball id m).went
  | ended => exact (Deed.refl m).went

end Act

-- ================================================== thunks

namespace Act

variable {env : Env} {m : Machine}

theorem deeds_abandon : Deeds abandon := ⟨fun _ m _ => deed_abandoned m⟩

theorem deeds_offer (ball : Term) (frames : Nat) (id : FrameId) :
    Deeds (offer ball frames id) := by
  induction frames generalizing id with
  | zero => exact .pure _
  | succ frames ih =>
    refine ⟨fun env m henv => ?_⟩
    obtain ⟨db, q⟩ := m
    rw [offer_succ]
    cases q.frames.get? id with
    | none => exact .refl _
    | some frame =>
      have hasked := deed_asked henv frame ball id ⟨db, q⟩
      dsimp only at hasked ⊢
      cases hr : askFrame frame ball env ⟨db, { q with callee := id }⟩ with
      | error e m' =>
        rw [hr] at hasked
        exact hasked
      | ok caught m' =>
        rw [hr] at hasked
        cases caught with
        | some code => exact hasked
        | none =>
          cases frame.caller with
          | some caller => exact hasked.trans ((ih caller).ends env m' henv)
          | none => exact hasked

theorem deeds_recover (e : Failure) : Deeds (recover e) := by
  unfold recover
  split
  · refine .bind (deeds_detach _) fun ball => .bind deeds_get fun m =>
      .bind (deeds_offer _ _ _).attempt fun caught => ?_
    split
    · exact .modifyQuery fun _ => rfl
    · exact .bind deeds_abandon fun _ => .throw _
    · exact .bind deeds_abandon fun _ => .throw _
  · exact .bind deeds_abandon fun _ => .throw _

theorem evolves_search (henv : env.Steady) (steps : Nat) (m : Machine) :
    m.db.Evolves (left (search steps env m)).db := by
  induction steps generalizing m with
  | zero => exact .refl m.db
  | succ steps ih =>
    have hstep := (wends_step.ends env m henv).db
    simp only [search, bind_apply, attempt_apply]
    cases hr : step env m with
    | ok progress m' =>
      rw [hr] at hstep
      cases progress with
      | running => exact hstep.trans (ih m')
      | _ => exact hstep
    | error e m' =>
      rw [hr] at hstep
      have hrecover := (deeds_recover e).ends env m' henv
      dsimp only
      rw [bind_apply]
      cases hc : recover e env m' with
      | ok _ m'' =>
        rw [hc] at hrecover
        exact (hstep.trans hrecover.db).trans (ih m'')
      | error e' m'' =>
        rw [hc] at hrecover
        exact hstep.trans hrecover.db

theorem evolves_answer (henv : env.Steady) (m : Machine) :
    m.db.Evolves (left (answer env m)).db := by
  rw [answer_eq]
  split
  · exact .refl m.db
  · exact evolves_search henv env.steps m

/-- How work ends that leaves the query alone. -/
structure Aside (m m' : Machine) : Prop where
  query : m'.query = m.query
  db : m.db.Evolves m'.db

theorem aside_solveApart (henv : env.Steady) (goal : Term) (m : Machine) :
    Aside m (left (solveApart env goal m)) := by
  have hentry := (Clause.evolves_ofGoal goal false).ends m.db
  unfold Store.after at hentry
  unfold solveApart
  dsimp only
  cases hr : Clause.ofGoal goal false m.db with
  | error e db =>
    rw [hr] at hentry
    exact ⟨rfl, hentry⟩
  | ok entry db =>
    rw [hr] at hentry
    have hanswer := evolves_answer henv ⟨db, Query.start entry⟩
    dsimp only
    cases ha : answer env ⟨db, Query.start entry⟩ with
    | ok found m' =>
      rw [ha] at hanswer
      exact ⟨rfl, hentry.trans hanswer⟩
    | error e m' =>
      rw [ha] at hanswer
      exact ⟨rfl, hentry.trans hanswer⟩

theorem aside_produce (henv : env.Steady) (producer : Producer) (m : Machine) :
    Aside m (left (produce env producer m)) := by
  cases producer with
  | given value => exact ⟨rfl, .of_eq rfl rfl le_rfl rfl⟩
  | failing failure => exact ⟨rfl, .refl m.db⟩
  | solving goal =>
    have hsolved := aside_solveApart henv goal m
    show Aside m (left (EStateM.bind (solveApart env goal)
      (fun found => pure (Control.resultOf found)) m))
    unfold EStateM.bind
    cases hr : solveApart env goal m with
    | ok found m' =>
      rw [hr] at hsolved
      exact hsolved
    | error e m' =>
      rw [hr] at hsolved
      exact hsolved

theorem aside_forceThunk (henv : env.Steady) (id : Nat) (m : Machine) :
    Aside m (left (forceThunk env id m)) := by
  have hsame : Aside m m := ⟨rfl, .refl m.db⟩
  rw [forceThunk_eq]
  cases m.db.thunks[id]? with
  | none => exact hsame
  | some thunk =>
    dsimp only
    cases thunk.value with
    | some value => exact hsame
    | none =>
      have hproduced := aside_produce henv thunk.producer m
      dsimp only
      cases hr : produce env thunk.producer m with
      | error e m' =>
        rw [hr] at hproduced
        exact hproduced
      | ok value m' =>
        rw [hr] at hproduced
        have hsettled := (Database.evolves_settleThunk id value).ends m'.db
        unfold Store.after at hsettled
        dsimp only
        rw [store_apply]
        cases hs : Database.settleThunk id value m'.db with
        | ok kept db =>
          rw [hs] at hsettled
          exact ⟨hproduced.query, hproduced.db.trans hsettled⟩
        | error e db =>
          rw [hs] at hsettled
          exact ⟨hproduced.query, hproduced.db.trans hsettled⟩

end Act

/-- However deep thunks are nested, forcing one leaves the query alone. -/
theorem Env.steady_nested (steps thunks : Nat) : (Env.nested steps thunks).Steady := by
  induction thunks with
  | zero => exact ⟨fun _ _ => rfl, fun _ m => .refl m.db⟩
  | succ thunks ih =>
    exact ⟨fun id m => (Act.aside_forceThunk ih id m).query,
      fun id m => (Act.aside_forceThunk ih id m).db⟩

end LogicMachine
