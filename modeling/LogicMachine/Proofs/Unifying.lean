/-
Acts that bind cells and make slots.

While equations are solved the query differs from what it was in tentative
bindings alone (`Solving`). Ending them, in one way or the other, touches
it, and so do fresh variables and copies with variables of their own.
-/
import LogicMachine.Proofs.Acts

namespace LogicMachine

namespace Act

-- ================================================== solving equations

/-- The query while equations are solved. -/
structure Solving (strict : Bool) (q q' : Query) : Prop where
  eq : q' = { q with frames := q'.frames, pending := q'.pending }
  tentative : Frames.Tentative strict q.frames q'.frames q'.pending
  arena : q'.frames.Sound strict

namespace Solving

variable {strict : Bool} {q q' : Query}

theorem start (hq : q.Sound strict) : Solving strict q q :=
  ⟨rfl, hq.pending ▸ .refl strict q.frames, hq.arena⟩

/-- One more binding. -/
theorem bind (h : Solving strict q q') {cell : Cell} {s : Slot} {value : Term}
    (hs : q'.frames.slot? cell = some s) (hv : value.Live (q'.frames.world strict))
    (hu : (strict = true → ∃ s, q'.frames.slot? cell = some s ∧ Frames.Slot.shown true s = none)
      ∧ ∀ d name, value = .ref d name → d.Before cell) :
    Solving strict q
      { q' with
        frames := q'.frames.modifySlot cell fun s => { s with scratch := some value }
        pending := cell :: q'.pending } := by
  refine ⟨by rw [h.eq], h.tentative.bind hs (fun hst => ?_) value,
    h.arena.bind cell hv hu.2⟩
  obtain ⟨s', hs', hshown⟩ := hu.1 hst
  cases hs.symm.trans hs'
  exact hshown

/-- Taken back, the bindings leave the query as it was. -/
theorem rollback (h : Solving strict q q') (hq : q.Sound strict) :
    { q' with frames := q'.frames.rollback q'.pending, pending := [] } = q := by
  rw [h.eq, (h.tentative.rollback hq.blank).eq_of_nil]
  show { q with pending := _ } = q
  rw [← hq.pending]

/-- Made permanent, they are in order. -/
theorem commit (h : Solving strict q q') (hq : q.Sound strict) :
    Touches strict q
      { q' with
        choices := q'.choices.recordAll (q'.frames.commit q'.pending) q'.pending
        frames := q'.frames.commit q'.pending
        pending := [] } := by
  have heq : ({ q' with
        choices := q'.choices.recordAll (q'.frames.commit q'.pending) q'.pending
        frames := q'.frames.commit q'.pending
        pending := [] } : Query)
      = { q with
          frames := q'.frames.commit q'.pending
          choices := q.choices.recordAll (q'.frames.commit q'.pending) q'.pending } := by
    rw [h.eq]
    show _ = { q with frames := _, choices := _ }
    rw [← hq.pending]
  rw [heq]
  exact touches_bind hq h.tentative.commit (h.tentative.unbound hq.blank) (h.arena.commit _)
    (h.tentative.blank hq.blank fun _ => rfl)

end Solving

-- ================================================== one step of solving

theorem bindTentatively_eq (cell : Cell) (name : String) (value : Term) (env : Env) (m : Machine) :
    bindTentatively cell name value env m
      = if (m.query.frames.slot? cell).isNone then .error (Frames.lostCell cell name) m
        else .ok ⟨⟩ ⟨m.db, { m.query with
          frames := m.query.frames.modifySlot cell fun s => { s with scratch := some value }
          pending := cell :: m.query.pending }⟩ := by
  rw [bindTentatively, bind_apply, frames_apply]
  dsimp only
  split <;> rfl

theorem solveWithin_cons (steps : Nat) (e : Equation) (rest : List Equation) (env : Env)
    (m : Machine) :
    solveWithin (steps + 1) (e :: rest) env m = match e.decide m.query.frames with
      | .solved => solveWithin steps rest env m
      | .clash => .ok false m
      | .bind cell name value => match bindTentatively cell name value env m with
        | .ok _ m' => solveWithin steps rest env m'
        | .error e m' => .error e m'
      | .split equations => solveWithin steps (equations ++ rest) env m
      | .forceLeft thunk right => match env.force thunk m with
        | .ok left m' => solveWithin steps (⟨left, none, right, none⟩ :: rest) env m'
        | .error e m' => .error e m'
      | .forceRight left thunk => match env.force thunk m with
        | .ok right m' => solveWithin steps (⟨left, none, right, none⟩ :: rest) env m'
        | .error e m' => .error e m' := by
  rw [solveWithin, bind_apply, frames_apply]
  dsimp only
  cases e.decide m.query.frames with
  | solved | clash | split => rfl
  | bind cell name value =>
    dsimp only
    rw [bind_apply]
    cases bindTentatively cell name value env m <;> rfl
  | forceLeft thunk right =>
    dsimp only
    show EStateM.bind (env.force thunk)
      (fun left => solveWithin steps (⟨left, none, right, none⟩ :: rest) env) m = _
    unfold EStateM.bind
    cases env.force thunk m <;> rfl
  | forceRight left thunk =>
    dsimp only
    show EStateM.bind (env.force thunk)
      (fun right => solveWithin steps (⟨left, none, right, none⟩ :: rest) env) m = _
    unfold EStateM.bind
    cases env.force thunk m <;> rfl

section

variable {μ : Rigor} {q q' : Query}

theorem does_bindTentatively (h : Solving μ.strict q q') {cell : Cell} {name : String} {value : Term}
    (hv : value.Live (q'.frames.world μ.strict))
    (hu : (μ.strict = true → ∃ s, q'.frames.slot? cell = some s ∧ Frames.Slot.shown true s = none)
      ∧ ∀ d name, value = .ref d name → d.Before cell) :
    Does μ q' (bindTentatively cell name value) (fun _ q'' => Solving μ.strict q q''
      ∧ q'.frames.Reslots q''.frames) (Solving μ.strict q) := by
  unfold bindTentatively
  refine .read (reads_frames q') h fun fs hfs => ?_
  obtain rfl := hfs
  split
  · rename_i hnone
    -- in a strict run the cell is there
    refine .throw (fun htame => ?_) h
    obtain ⟨s, hs, -⟩ := hu.1 (μ.strict_of_tame htame)
    rw [hs] at hnone
    cases hnone
  · rename_i hsome
    obtain ⟨s, hs⟩ := Option.ne_none_iff_exists'.1 (mt Option.isNone_iff_eq_none.2 hsome)
    exact .modifyQuery ⟨h.bind hs hv hu, .modifySlot ..⟩

/-- Solving equations binds cells tentatively and does nothing else. -/
theorem does_solveWithin (hq : q.Sound μ.strict) (steps : Nat) (h : Solving μ.strict q q')
    {equations : List Equation} (he : ∀ e ∈ equations, e.Reads μ.strict q'.frames) :
    Does μ q' (solveWithin steps equations) (fun _ => Solving μ.strict q) (Solving μ.strict q) := by
  induction steps generalizing q' equations with
  | zero => exact .throw fits_unfinished h
  | succ steps ih =>
    cases equations with
    | nil => exact .pure h
    | cons e rest =>
      have hrest : ∀ e ∈ rest, e.Reads μ.strict q'.frames :=
        fun e' he' => he e' (List.mem_cons_of_mem _ he')
      have hage := hq.orderly.frames.heads_same (.of_reslots h.tentative.reslots)
      have hwithin := h.tentative.reslots.within h.tentative.made hq.within
      have hsound := Equation.decide_sound h.arena hage hwithin (he e List.mem_cons_self)
      have hforced : ∀ {t u : Term}, t.Fits .none noVars → u.Live (q'.frames.world μ.strict) →
          (∀ e ∈ (⟨t, none, u, none⟩ : Equation) :: rest, e.Reads μ.strict q'.frames)
            ∧ ∀ e ∈ (⟨u, none, t, none⟩ : Equation) :: rest, e.Reads μ.strict q'.frames :=
        fun ht hu => ⟨List.forall_mem_cons.2 ⟨⟨.bare (live_of_detached ht), .bare hu⟩, hrest⟩,
          List.forall_mem_cons.2 ⟨⟨.bare hu, .bare (live_of_detached ht)⟩, hrest⟩⟩
      unfold solveWithin
      refine .read (reads_frames q') h fun fs hfs => ?_
      obtain rfl := hfs
      split
      · exact ih h hrest
      · exact .pure h
      · rename_i cell name value hv
        rw [hv] at hsound
        refine (does_bindTentatively h hsound.1 hsound.2).bind fun _ q'' ⟨h', hr⟩ => ih h' ?_
        exact fun e he => ⟨(hrest e he).left.reslots hr, (hrest e he).right.reslots hr⟩
      · rename_i equations hv
        rw [hv] at hsound
        exact ih h fun e he => (List.mem_append.1 he).elim (hsound e) (hrest e)
      · rename_i thunk right hv
        rw [hv] at hsound
        exact .read_bind fun env henv => .read (Reads.force henv _) h fun t ht =>
          ih h (hforced ht hsound).1
      · rename_i left thunk hv
        rw [hv] at hsound
        exact .read_bind fun env henv => .read (Reads.force henv _) h fun t ht =>
          ih h (hforced ht hsound).2

theorem does_rollback (hq : q.Sound μ.strict) (h : Solving μ.strict q q') {fails : Query → Prop} :
    Does μ q' rollback (fun _ => (· = q)) fails :=
  .modifyQuery (h.rollback hq)

theorem does_commit (hq : q.Sound μ.strict) (h : Solving μ.strict q q') {fails : Query → Prop} :
    Does μ q' commit (fun _ => Touches μ.strict q) fails :=
  .modifyQuery (h.commit hq)

/-- Without a solution the query is as it was. -/
theorem does_solve (hq : q.Sound μ.strict) {equations : List Equation}
    (he : ∀ e ∈ equations, e.Reads μ.strict q.frames) :
    Does μ q (solve equations)
      (fun ok q' => (ok = true → Solving μ.strict q q') ∧ (ok = false → q' = q)) (· = q) := by
  unfold solve
  refine .read (reads_steps q) rfl fun steps _ => ?_
  have htry := (does_solveWithin hq steps (.start hq) he).attempt
  refine (htry.mono (fun _ _ h => h) fun _ hf => hf.elim).bind fun r q' ⟨hok, herr⟩ => ?_
  split
  · exact .pure ⟨fun _ => hok _ rfl, fun hf => (nomatch hf)⟩
  · exact (does_rollback hq (hok _ rfl)).bind fun _ q'' hback =>
      .pure ⟨fun hf => (nomatch hf), fun _ => hback⟩
  · exact (does_rollback hq (herr _ rfl).1).bind fun _ q'' hback => .throw (herr _ rfl).2 hback

-- ================================================== unification

theorem reads_pair {t u : Term} (ht : t.Live (q.frames.world μ.strict))
    (hu : u.Live (q.frames.world μ.strict)) :
    ∀ e ∈ [(⟨t, none, u, none⟩ : Equation)], e.Reads μ.strict q.frames := by
  intro e he
  rw [List.mem_singleton.1 he]
  exact ⟨.bare ht, .bare hu⟩

/-- The act answers whether it has unified. If it has not, or if it fails,
the query is as it was. -/
abbrev Unites (μ : Rigor) (q : Query) (act : Act Bool) : Prop :=
  Does μ q act (fun ok q' => (ok = true → Touches μ.strict q q') ∧ (ok = false → q' = q)) (· = q)

theorem Unites.tries {act : Act Bool} (hq : q.Sound μ.strict) (h : Unites μ q act) :
    Tries μ q act fun _ _ => True := by
  refine h.mono (fun ok q' ⟨hyes, hno⟩ => ⟨?_, trivial⟩) fun q' hback => .of_eq hq hback
  cases ok with
  | true => exact hyes rfl
  | false => exact .of_eq hq (hno rfl)

/-- Two terms that do not unify leave the query as it was. -/
theorem unites_unify (hq : q.Sound μ.strict) {t u : Term} (ht : t.Live (q.frames.world μ.strict))
    (hu : u.Live (q.frames.world μ.strict)) : Unites μ q (unify t u) := by
  unfold unify
  refine (does_solve hq (reads_pair ht hu)).bind fun ok q' ⟨hyes, hno⟩ => ?_
  cases ok with
  | true =>
    exact (does_commit hq (hyes rfl)).bind fun _ _ h => .pure ⟨fun _ => h, fun hf => (nomatch hf)⟩
  | false => exact .pure ⟨fun hf => (nomatch hf), fun _ => hno rfl⟩

theorem tries_unify (hq : q.Sound μ.strict) {t u : Term} (ht : t.Live (q.frames.world μ.strict))
    (hu : u.Live (q.frames.world μ.strict)) : Tries μ q (unify t u) fun _ _ => True :=
  (unites_unify hq ht hu).tries hq

/-- Arguments read in two frames are unified as a whole: after a clash in
one of them, the bindings made for those before it are taken back. -/
theorem unites_unifyArgs (hq : q.Sound μ.strict) {xs ys : List Term} {fx fy : FrameId}
    (hx : ∀ x ∈ xs, q.frames.Reads μ.strict x (some fx))
    (hy : ∀ y ∈ ys, q.frames.Reads μ.strict y (some fy)) :
    Unites μ q (unifyArgs xs fx ys fy) := by
  unfold unifyArgs
  split
  · exact .pure ⟨fun hf => (nomatch hf), fun _ => rfl⟩
  · refine (does_solve hq (Equation.reads_between hx hy)).bind fun ok q' ⟨hyes, hno⟩ => ?_
    cases ok with
    | true =>
      exact (does_commit hq (hyes rfl)).bind fun _ _ h => .pure ⟨fun _ => h, fun hf => (nomatch hf)⟩
    | false => exact .pure ⟨fun hf => (nomatch hf), fun _ => hno rfl⟩

theorem tries_unifyArgs (hq : q.Sound μ.strict) {xs ys : List Term} {fx fy : FrameId}
    (hx : ∀ x ∈ xs, q.frames.Reads μ.strict x (some fx))
    (hy : ∀ y ∈ ys, q.frames.Reads μ.strict y (some fy)) :
    Tries μ q (unifyArgs xs fx ys fy) fun _ _ => True :=
  (unites_unifyArgs hq hx hy).tries hq

/-- Asking whether two terms unify binds nothing, whatever the answer. -/
theorem reads_unifiable (hq : q.Sound μ.strict) {t u : Term} (ht : t.Live (q.frames.world μ.strict))
    (hu : u.Live (q.frames.world μ.strict)) : Reads μ q (unifiable t u) fun _ => True := by
  refine .of_does ?_
  unfold unifiable
  refine (does_solve hq (reads_pair ht hu)).bind fun ok q' ⟨hyes, hno⟩ => ?_
  cases ok with
  | true => exact (does_rollback hq (hyes rfl)).bind fun _ _ h => .pure ⟨h, trivial⟩
  | false =>
    -- after a failure there is nothing left to take back
    obtain rfl := hno rfl
    exact (does_rollback hq (.start hq)).bind fun _ _ h => .pure ⟨h, trivial⟩

-- ================================================== new slots

/-- Fresh variables are cells that are there. -/
theorem tries_freshVars (hq : q.Sound μ.strict) (count : Nat) :
    Tries μ q (freshVars count) fun vars q' => ∀ v ∈ vars, v.Live (q'.frames.world μ.strict) := by
  refine ⟨fun env db _ hdb => ⟨hdb, ?_⟩⟩
  have hlive := hq.orderly.live
  refine ⟨touches_grow hq (q.frames.owner q.callee) count, fun v hv => ?_⟩
  obtain ⟨i, hi, rfl⟩ := List.mem_map.1 hv
  have hframe := hq.frame_owner hlive
  have ⟨hlt, _, hown⟩ := hframe
  have hgrows : q.frames.Grows (q.frames.expand (q.frames.owner q.callee) count).1 := .expand ..
  refine Term.fits_ref.2 ⟨hgrows.world_le.frame _ hframe, fun _ => ?_⟩
  refine Frames.slot?_expand_isSome hlt hown ?_
  show q.frames.locals (q.frames.owner (q.frames.owner q.callee)) + i < _
  rw [hown]
  exact Nat.add_lt_add_left (List.mem_range.1 hi) _

/-- A copy with fresh variables of the running frame can be read there. -/
theorem tries_rebind (hq : q.Sound μ.strict) {t : Term} (ht : t.Fits .all anyVars) :
    Tries μ q (rebind t) fun copy q' => copy.Live (q'.frames.world μ.strict) := by
  refine ⟨fun env db _ hdb => ⟨{ hdb with }, ?_⟩⟩
  obtain ⟨count, hframes, hcopy⟩ := hq.arena.rebind hq.within ht q.callee db.nextTerm
    (hq.frame_owner hq.orderly.live)
  have htouch : Touches μ.strict q { q with frames := (q.frames.rebind t q.callee db.nextTerm).2.2 } :=
    hframes ▸ touches_grow hq _ count
  refine ⟨htouch, ?_⟩
  show (q.frames.rebind t q.callee db.nextTerm).1.Live
    ((q.frames.rebind t q.callee db.nextTerm).2.2.world μ.strict)
  rw [hframes]
  exact hcopy

end

end Act

end LogicMachine
