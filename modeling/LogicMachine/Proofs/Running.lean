/-
Running a query.

A step of the engine is a sequence of moves, and so is what it takes to
recover from an error: the query that is left has come from where it was,
is sound, and can run the code it goes on with (`Query.Got`). A query that
is given up keeps a sound arena.
-/
import LogicMachine.Proofs.Barriers
import LogicMachine.Proofs.Trying

namespace LogicMachine

/-- The query has come from the moment `x` and can go on with the code. -/
structure Query.Got (strict : Bool) (x : Moment) (q : Query) (code : Code) : Prop where
  moves : Moves strict x ⟨q.holding code, none⟩
  sound : q.Sound strict
  executes : q.Executes strict code

/-- The query has been given up, or there was nothing left to try. -/
structure Query.Over (strict : Bool) (q : Query) : Prop where
  next : q.next = .fail
  rests : q.Rests strict

/-- The query variables have slots in the root frame. -/
def Query.Rooted (q : Query) : Prop :=
  ∀ i < q.entry.names.length, (q.frames.slot? ⟨Query.root, i⟩).isSome

/-- What is told of a solution depends on no frame. -/
def Solution.Detached (s : Solution) : Prop :=
  ∀ v ∈ s.values, ∀ t, v.2 = some t → t.Fits .none anyVars

/-- How a step may end. -/
def Progress.Leaves (strict : Bool) (x : Moment) (q : Query) : Progress → Prop
  | .running => q.Got strict x q.next
  | .found s => q.Got strict x q.next ∧ s.Detached
  | .exhausted => q.Over strict

namespace Query.Got

variable {strict : Bool} {x : Moment} {q q' : Query} {code code' : Code}

theorem failing (h : q.Got strict x code) : q.Got strict x .fail :=
  ⟨h.moves.tail .fail, h.sound, executes_fail⟩

theorem goes (h : q.Got strict x code) (hg : Query.Goes strict q code q' code') :
    q'.Got strict x code' :=
  ⟨h.moves.trans (hg.moves none), hg.sound, hg.executes⟩

/-- The code may be put down as what is to be run next. -/
theorem next (h : q.Got strict x code) : (q.holding code).Got strict x code :=
  ⟨h.moves, h.sound.goto h.sound.orderly.live code, h.executes⟩

end Query.Got

-- ================================================== the root frame

theorem rooted_start (entry : Clause) : (Query.start entry).Rooted := by
  intro i hi
  have hi : i < entry.locals := hi
  simp [Query.start, Frames.push, Frames.slot?, Frames.size, Query.root, hi]

/-- The root frame keeps its slots. -/
theorem Move.isSome_root {strict : Bool} {x y : Moment} (h : Move strict x y) :
    y.query.entry = x.query.entry ∧ ∀ {i}, (x.query.frames.slot? ⟨Query.root, i⟩).isSome →
      (y.query.frames.slot? ⟨Query.root, i⟩).isSome := by
  have hback : ∀ {fs : Frames} {i : Nat} (trail : List Cell) (mark : Nat),
      (fs.slot? ⟨Query.root, i⟩).isSome →
        (((fs.undo trail).truncate mark).slot? ⟨Query.root, i⟩).isSome := by
    intro fs i trail mark hs
    have hlt : Query.root < max mark 1 := Nat.lt_of_lt_of_le Nat.one_pos (Nat.le_max_right _ _)
    rw [Frames.slot?_truncate, if_pos hlt, Frames.slot?_undo, Option.isSome_map]
    exact hs
  cases h with
  | work h => exact ⟨by cases h <;> rfl, h.steady.1.isSome_slot?⟩
  | enter _ _ _ _ _ _ => exact ⟨rfl, (Frames.Grows.push ..).isSome_slot?⟩
  | guard _ _ _ _ =>
    exact ⟨rfl, ((Frames.Grows.push ..).trans (Frames.reslots_pushGuarded ..).grows).isSome_slot?⟩
  | branch h =>
    obtain ⟨_, _, _, -, -, -, -, -, rfl⟩ := Query.retreat_split h
    exact ⟨rfl, hback _ _⟩
  | resume h _ =>
    obtain ⟨_, _, _, -, -, -, -, -, rfl⟩ := Query.retreat_split h
    exact ⟨rfl, hback _ _⟩
  | unwind _ _ _ h _ =>
    obtain ⟨_, _, _, -, -, rfl, rfl⟩ := ChoiceStack.unwindTo_split h
    exact ⟨rfl, hback _ _⟩
  | _ => exact ⟨rfl, fun hi => hi⟩

theorem Moves.rooted {strict : Bool} {x y : Moment} (h : Moves strict x y) (hx : x.query.Rooted) :
    y.query.Rooted := by
  induction h with
  | refl => exact hx
  | tail _ hm ih =>
    intro i hi
    obtain ⟨hentry, hslots⟩ := hm.isSome_root
    exact hslots (ih i (hentry ▸ hi))

-- ================================================== failing

/-- With all trails undone and no point left, the query is sound. -/
theorem Query.Sound.exhausted {strict : Bool} {q q' : Query} (h : q.Sound strict)
    (hr : q.retreat = (none, q')) : q'.Sound strict := by
  obtain rfl := Query.retreat_none hr
  have hreslots := Frames.reslots_undo q.frames (trails q.choices.points)
  have hslot : ∀ {c s t}, (q.frames.undo (trails q.choices.points)).slot? c = some s →
      s.value = some t ∨ s.scratch = some t → q.frames.slot? c = some s := by
    intro c s t hs ht
    rw [Frames.slot?_undo] at hs
    obtain ⟨s₀, hs₀, rfl⟩ := Option.map_eq_some_iff.1 hs
    split at ht
    · simp at ht
    · rename_i hc
      rw [if_neg hc]
      exact hs₀
  refine ⟨⟨?_, h.orderly.frames.heads_same (.of_reslots hreslots),
      ⟨.nil, fun p hp => absurd hp List.not_mem_nil⟩, fun hr => nomatch hr⟩,
    h.arena.of_reslots hreslots fun hs ht => h.arena.in_order (hslot hs ht) ht,
    Frames.within_undo h.within _, fun {c s} hs => ?_, h.pending, h.collectors,
    ⟨trivial, fun p hp => absurd hp List.not_mem_nil⟩⟩
  · exact h.orderly.live.trans_eq hreslots.size.symm
  · rw [Frames.slot?_undo] at hs
    obtain ⟨s₀, hs₀, rfl⟩ := Option.map_eq_some_iff.1 hs
    split
    · rfl
    · exact h.blank hs₀

/-- A run reads a bare variable when it resumes the values of flags and
takes one that has such a variable. -/
def Machine.ReadsBare (env : Env) (m : Machine) : Prop :=
  m.query.next = .fail ∧ ∃ r q ended rest m', m.query.retreat = (some r, q)
    ∧ r.alternatives.start env.steps env ⟨m.db, q⟩ = .ok (ended, rest) m'
    ∧ ended ≠ .ok .fail ∧ r.alternatives.TakesBare rest

theorem backtrack_eq (env : Env) (m : Machine) :
    backtrack env m = match m.query.retreat with
      | (none, q) => .ok false ⟨m.db, q⟩
      | (some r, q) => match r.alternatives.start env.steps env ⟨m.db, q⟩ with
        | .ok (.ok code, rest) m' => .ok true ⟨m'.db, (m'.query.settle r.id rest).holding code⟩
        | .ok (.error e, rest) m' => .error e ⟨m'.db, m'.query.settle r.id rest⟩
        | .error e m' => .error e m' := by
  simp only [backtrack, Act.bind_apply, Act.modifyGet_apply]
  cases m.query.retreat with
  | mk found q =>
    cases found with
    | none => rfl
    | some r =>
      simp only [Act.bind_apply, Act.steps_apply]
      cases r.alternatives.start env.steps env ⟨m.db, q⟩ with
      | error e m' => rfl
      | ok found m' =>
        obtain ⟨ended, rest⟩ := found
        cases ended <;> rfl

theorem Query.Sound.resumed {strict : Bool} {q q' : Query} {r : Resumption} (h : q.Sound strict)
    (hr : q.retreat = (some r, q')) : q'.Resumed r.id := by
  obtain ⟨above, p, below, hpts, hid, -, -, -, rfl⟩ := Query.retreat_split hr
  obtain ⟨hsize, -, -⟩ := h.orderly.back hpts (trails (above ++ [p]))
  exact ⟨_, below, rfl, hid, rfl, hsize.symm⟩

/-- Going back leads to where alternatives can be tried. -/
theorem Query.Sound.trying {strict : Bool} {x : Moment} {q q' : Query} {r : Resumption}
    (h : q.Sound strict) (hm : Moves strict x ⟨q, none⟩) (hr : q.retreat = (some r, q'))
    (hb : ∀ codes, r.alternatives ≠ .branches codes) : q'.Trying strict x r := by
  obtain ⟨hsound, hfits⟩ := h.retreat hr
  exact ⟨hm.tail (.resume hr hb), hsound, h.resumed hr, hfits⟩

/-- Going back to a disjunction goes on with its next branch. -/
theorem Query.Sound.branch {strict : Bool} {x : Moment} {q q' : Query} {id : Nat} {code : Code}
    {rest : List Code} (h : q.Sound strict) (hm : Moves strict x ⟨q, none⟩)
    (hr : q.retreat = (some ⟨id, .branches (code :: rest)⟩, q')) :
    (q'.settle id (.branches rest)).Got strict x code := by
  obtain ⟨hsound, hfits⟩ := h.retreat hr
  have ho : Moment.Orderly ⟨q', some ⟨id, .branches rest⟩⟩ := h.orderly.retreat hr fun _ => trivial
  have hrest : (Alternatives.branches rest).Fits (q'.frames.world strict)
      ((q'.frames.world strict).slotsOf (q'.frames.owner q'.callee)) :=
    fun c hc => hfits c (List.mem_cons_of_mem _ hc)
  refine ⟨hm.tail (.branch hr), hsound.settle ((h.resumed hr).offers hsound hrest) ho, ?_⟩
  exact hfits code List.mem_cons_self

/-- What is left of the alternatives is put back. -/
theorem Query.Tried.settle {strict : Bool} {x : Moment} {q : Query} {r : Resumption} {code : Code}
    (h : q.Tried strict x r code) (hx : x.Orderly) :
    (q.settle r.id r.alternatives).Got strict x code := by
  have ho : Moment.Orderly ⟨q, some r⟩ :=
    (h.moves.orderly hx).goto (h.moves.orderly hx).live q.next
  refine ⟨h.moves.tail .settle, h.sound.settle h.offers ho, ?_⟩
  exact h.executes

theorem ends_backtrack {μ : Rigor} {env : Env} (henv : env.Sound μ.tame) (hsteps : 0 < env.steps)
    {x : Moment} (hx : x.Orderly) {db : Database} (hdb : db.Sound) {q : Query}
    (hq : q.Sound μ.strict) (hnext : q.next = .fail) (hm : Moves μ.strict x ⟨q, none⟩)
    (hbare : μ.strict = true → ¬ Machine.ReadsBare env ⟨db, q⟩) :
    Act.Left μ.tame
      (fun found q' => if found = true then q'.Got μ.strict x q'.next else q'.Over μ.strict)
      (fun q' => q'.Got μ.strict x .fail) (backtrack env ⟨db, q⟩) := by
  rw [backtrack_eq]
  cases hr : q.retreat with
  | mk found q' =>
    cases found with
    | none =>
      refine ⟨hdb, ?_, (hq.exhausted hr).rests⟩
      obtain rfl := Query.retreat_none hr
      exact hnext
    | some r =>
      dsimp only
      by_cases hb : ∃ codes, r.alternatives = .branches codes
      · obtain ⟨codes, hcodes⟩ := hb
        obtain ⟨id, alternatives⟩ := r
        obtain rfl : alternatives = .branches codes := hcodes
        obtain ⟨-, -, -, -, -, -, hmore, -, -⟩ := Query.retreat_split hr
        obtain ⟨steps, hsteps⟩ := Nat.exists_eq_add_of_lt hsteps
        cases codes with
        | nil => cases hmore
        | cons code rest =>
          have hstart : (Alternatives.branches (code :: rest)).start env.steps env ⟨db, q'⟩
              = .ok (.ok code, .branches rest) ⟨db, q'⟩ := by
            rw [hsteps, Alternatives.start_succ]
            rfl
          simp only [hstart]
          exact ⟨hdb, (hq.branch hm hr).next⟩
      · have htrying := hq.trying hm hr fun codes he => hb ⟨codes, he⟩
        have hstart := Alternatives.ends_start henv hx env.steps hdb htrying
          fun hs ended rest m hstart hne hbad =>
            hbare hs ⟨hnext, r, q', ended, rest, m, hr, hstart, hne, hbad⟩
        cases hended : r.alternatives.start env.steps env ⟨db, q'⟩ with
        | error e m =>
          simp only [hended] at hstart ⊢
          exact hstart.2.1.elim
        | ok found m =>
          obtain ⟨ended, rest⟩ := found
          simp only [hended] at hstart ⊢
          obtain ⟨hdb', htried, herror⟩ := hstart
          cases ended with
          | ok code => exact ⟨hdb', (htried.settle hx).next⟩
          | error e => exact ⟨hdb', htried.settle hx, herror e rfl⟩

-- ================================================== running code

/-- The query with a point for the rows of a table that come after the
first. -/
abbrev Query.selecting (q : Query) (rows : Array Row) (args : List Term) (next : Code) : Query :=
  { q with
    choices := q.choices.push q.callee (q.ancestry + 1) q.frames.size none
      (.rows rows 1 args next q.callee q.ancestry) }

namespace Act

section

variable {μ : Rigor} {x : Moment} {q : Query} {code : Code}

/-- Everything there is older than a call about to be made. -/
theorem fresh_aged (hq : q.Sound μ.strict) {choices : ChoiceStack}
    (hc : ∀ p ∈ choices.points, p.scope.isSome → p ∈ q.choices.points) :
    Query.Fresh { q with choices := choices, ancestry := q.ancestry + 1 } :=
  ⟨fun hf => Nat.lt_succ_of_le (hq.orderly.frames.top hf).1,
    fun p hp hs => Nat.lt_succ_of_le (hq.orderly.points.point p (hc p hp hs)).age⟩

/-- A call makes the query older by one. -/
theorem got_call {target : Target} {args : List Term} {next : Code}
    (h : q.Got μ.strict x (.call target args next)) :
    Query.Got μ.strict x { q with ancestry := q.ancestry + 1 } next :=
  ⟨h.moves.tail (.call rfl), { h.sound with orderly := h.sound.orderly.aged q.next },
    (Code.fits_call.1 h.executes).2.2⟩

/-- So does leaving the rows that come after the first one. -/
theorem got_select {target : Target} {args : List Term} {next : Code}
    (h : q.Got μ.strict x (.call target args next)) {rows : Array Row}
    (hrows : ∀ row ∈ rows, row.procedure.Fits .none) :
    Query.Got μ.strict x { q.selecting rows args next with ancestry := q.ancestry + 1 } next := by
  obtain ⟨-, ha, hn⟩ := Code.fits_call.1 h.executes
  have hmove : Move μ.strict ⟨q.holding (.call target args next), none⟩ ⟨_, none⟩ :=
    .select rows rfl
  have ho := hmove.orderly (h.sound.orderly.goto h.sound.orderly.live _)
  refine ⟨h.moves.tail hmove, ?_, hn⟩
  refine h.sound.point rfl rfl (fun a hsome => ?_) (ho.goto ho.live q.next)
  cases hsome
  exact ⟨hrows, ha, hn⟩

/-- A procedure can be called from where the query is. -/
theorem suits_call {procedure : Procedure} {args : List Term} {next : Code} {choices : ChoiceStack}
    (hq : q.Sound μ.strict) (hn : q.Executes μ.strict next)
    (hc : ∀ p ∈ choices.points, p.scope.isSome → p ∈ q.choices.points)
    (hp : procedure.Fits (q.frames.world μ.strict))
    (ha : ∀ a ∈ args, a.Fits (q.frames.world μ.strict)
      ((q.frames.world μ.strict).slotsOf (q.frames.owner q.callee))) :
    CallSite.Suits μ.strict { q with choices := choices, ancestry := q.ancestry + 1 }
      ⟨procedure, args, q.ancestry + 1, q.callee, next⟩ :=
  ⟨hp, hq.orderly.live, ha, hn, rfl, fresh_aged hq hc⟩

/-- The first of several rows can be called, too. -/
theorem suits_select {procedure : Procedure} {args : List Term} {next : Code} {rows : Array Row}
    (hq : q.Sound μ.strict) (hn : q.Executes μ.strict next)
    (hp : procedure.Fits (q.frames.world μ.strict))
    (ha : ∀ a ∈ args, a.Fits (q.frames.world μ.strict)
      ((q.frames.world μ.strict).slotsOf (q.frames.owner q.callee))) :
    CallSite.Suits μ.strict { q.selecting rows args next with ancestry := q.ancestry + 1 }
      ⟨procedure, args, q.ancestry + 1, q.callee, next⟩ := by
  refine suits_call (q := q) hq hn (fun p hp hs => ?_) hp ha
  rcases List.mem_cons.1 hp with rfl | hp
  · cases hs
  · exact hp

theorem reads_undefinedPredicate (q : Query) (p : Predicate) :
    Reads μ q (undefinedPredicate p) (· = .fail) := by
  refine .get_bind fun db _ => ?_
  split
  · exact .pure rfl
  · exact .pure rfl
  · have hterm : p.toTerm.Fits .none anyVars := Term.fits_compound.2 ⟨fun _ => rfl, by simp⟩
    exact .throw (fits_existence hterm)

/-- The first row of a table is called, or there is none. -/
theorem does_selectRow {table : Nat} {predicate : Predicate} {args : List Term} {next : Code}
    (h : q.Got μ.strict x (.call (.table table predicate) args next)) :
    Does μ q (selectRow table predicate args next) (fun code' q' => q'.Got μ.strict x code')
      fun q' => q'.Got μ.strict x .fail := by
  obtain ⟨-, ha, hn⟩ := Code.fits_call.1 h.executes
  refine .get_bind fun db hdb => ?_
  dsimp only
  split
  · refine (reads_undefinedPredicate q predicate).does.mono (fun code q' ⟨hq', hcode⟩ => ?_)
      fun q' hq' => ?_
    · rw [hq', hcode]
      exact h.failing
    · rw [hq']
      exact h.failing
  · rename_i first hfirst
    have hrows : ∀ row ∈ db.rowsAt table, row.procedure.Fits .none := hdb.rowsAt
    have hrow : first.procedure.Fits (q.frames.world μ.strict) :=
      (hrows first (Array.mem_of_getElem? hfirst)).mono (World.none_le _)
    split
    · have hgot := got_select h hrows
      exact .modifyQuery_bind ((calls_procedure (q := q.selecting _ args next) hgot.sound
        (suits_select h.sound hn hrow ha)).mono (fun _ _ hg => hgot.goes hg) fun _ hg => hgot.goes hg)
    · have hgot := got_call h
      exact (calls_procedure hgot.sound (suits_call h.sound hn (fun p hp _ => hp) hrow ha)).mono
        (fun _ _ hg => hgot.goes hg) fun _ hg => hgot.goes hg

theorem does_execute (h : q.Got μ.strict x code) :
    Does μ q (execute code) (fun code' q' => q'.Got μ.strict x code')
      fun q' => q'.Got μ.strict x .fail := by
  cases code with
  | succeed => exact .pure h
  | fail => exact .pure h
  | noop next => exact .pure ⟨h.moves.tail (.skip rfl), h.sound, Code.fits_noop.1 h.executes⟩
  | choice scope branches =>
    have hall := Code.fits_choice.1 h.executes
    cases branches with
    | nil => exact .pure h.failing
    | cons first rest =>
      have hfirst := hall first List.mem_cons_self
      by_cases hpoint : (!rest.isEmpty || scope.isSome) = true
      · have hmove : Move μ.strict ⟨q.holding (.choice scope (first :: rest)), none⟩ ⟨_, none⟩ :=
          .choose rfl
        have ho := hmove.orderly (h.sound.orderly.goto h.sound.orderly.live _)
        have hsound : Query.Sound μ.strict { q with
            choices := q.choices.push q.callee q.ancestry q.frames.size scope (.branches rest) } := by
          refine h.sound.point rfl rfl (fun a hsome => ?_) (ho.goto ho.live q.next)
          cases hsome
          exact fun c hc => hall c (List.mem_cons_of_mem _ hc)
        simp only [execute, hpoint, if_true]
        exact .modifyQuery_bind (.pure ⟨h.moves.tail hmove, hsound, hfirst⟩)
      · obtain ⟨rfl, rfl⟩ : rest = [] ∧ scope = none := by
          simpa using hpoint
        exact .pure ⟨h.moves.tail (.sole rfl), h.sound, hfirst⟩
  | cut scope next =>
    have hmove : Move μ.strict ⟨q.holding (.cut scope next), none⟩ ⟨_, none⟩ := .cut rfl
    have ho := hmove.orderly (h.sound.orderly.goto h.sound.orderly.live _)
    exact .modifyQuery_bind (.pure ⟨h.moves.tail hmove, h.sound.cut _ _ (ho.goto ho.live q.next),
      Code.fits_cut.1 h.executes⟩)
  | call target args next =>
    cases target with
    | table index predicate => exact does_selectRow h
    | procedure procedure =>
      obtain ⟨hp, ha, hn⟩ := Code.fits_call.1 h.executes
      have hgot := got_call h
      refine .get_bind fun db hdb => ?_
      exact (calls_procedure hgot.sound (suits_call h.sound hn (fun p hp _ => hp) hp ha)).mono
        (fun _ _ hg => hgot.goes hg) fun _ hg => hgot.goes hg

end

-- ================================================== solutions

theorem reads_solution {μ : Rigor} {q : Query} (hq : q.Sound μ.strict)
    (hroot : μ.strict = true → q.Rooted) : Reads μ q solution Solution.Detached := by
  have hvars : ∀ v ∈ q.answerVars, v.2.Live (q.frames.world μ.strict) := by
    intro v hv
    obtain ⟨⟨name, i⟩, hi, rfl⟩ := List.mem_map.1 hv
    have hlt : i < q.entry.names.length := by
      have := List.mem_zipIdx hi
      omega
    exact Term.fits_ref.2 ⟨hq.frame_root, fun hs => hroot hs i hlt⟩
  refine .get_bind fun db _ => (Reads.mapM fun v hv => reads_strip hq (hvars v hv)).bind
    fun values hvalues => (reads_detachAll hq fun t ht => (hvalues t ht).wellMade).bind
      fun copies hcopies => .pure fun v hv t ht => ?_
  rw [← List.map_uncurry_zip_eq_zipWith] at hv
  obtain ⟨⟨⟨name, value⟩, copy⟩, hmem, rfl⟩ := List.mem_map.1 hv
  dsimp only [Function.uncurry] at ht
  split at ht
  · cases ht
  · cases ht
    exact hcopies _ (List.of_mem_zip hmem).2

-- ================================================== one step

theorem ends_step {μ : Rigor} {env : Env} (henv : env.Sound μ.tame) (hsteps : 0 < env.steps)
    {x : Moment} (hx : x.Orderly) {db : Database} (hdb : db.Sound) {q : Query}
    (h : q.Got μ.strict x q.next) (hroot : μ.strict = true → q.Rooted)
    (hbare : μ.strict = true → ¬ Machine.ReadsBare env ⟨db, q⟩) :
    Left μ.tame (fun progress q' => progress.Leaves μ.strict x q')
      (fun q' => q'.Got μ.strict x .fail) (step env ⟨db, q⟩) := by
  have hfound : (q.holding .fail).Got μ.strict x .fail := h.failing.next
  have hsolution : Does μ (q.holding .fail) (return .found (← solution))
      (fun progress q' => Progress.Leaves μ.strict x q' progress) fun q' => q'.Got μ.strict x .fail :=
    .read (reads_solution hfound.sound hroot) hfound fun s hs => .pure ⟨hfound, hs⟩
  have hcode : (q.holding .fail).Got μ.strict x q.next := ⟨h.moves, hfound.sound, h.executes⟩
  rw [step, bind_apply]
  simp only [takeNext, modifyGet_apply]
  cases hnext : q.next with
  | fail =>
    have hsame : q.holding .fail = q := by rw [← hnext]
    have hback := ends_backtrack henv hsteps hx hdb hfound.sound rfl hfound.moves
      (hsame.symm ▸ hbare)
    simp only [bind_apply]
    cases hended : backtrack env ⟨db, q.holding .fail⟩ with
    | error e m =>
      rw [hended] at hback
      exact hback
    | ok found m =>
      rw [hended] at hback
      obtain ⟨hdb', hleft⟩ := hback
      cases found with
      | true => exact ⟨hdb', hleft⟩
      | false => exact ⟨hdb', hleft⟩
  | succeed =>
    rw [hnext] at hcode
    refine Does.ends ?_ env db henv hdb
    refine .get_bind fun db _ => ?_
    dsimp only
    split
    · rename_i frame hf
      split
      · rename_i parent hparent
        exact .modifyQuery_bind (.pure (hcode.goes (goes_leave hfound.sound hf hparent)).next)
      · exact hsolution
    · exact hsolution
  | _ =>
    rw [hnext] at hcode
    refine Does.ends ?_ env db henv hdb
    exact (does_execute hcode).bind fun next q' h' => .modifyQuery_bind (.pure h'.next)

end Act

end LogicMachine
