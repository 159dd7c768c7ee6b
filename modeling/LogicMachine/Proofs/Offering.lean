/-
Built-ins that leave choice points.

A built-in with a frame of its own works on the query and answers the code
to go on with there. It may leave choice points and keep values, since no
point keeps its frame yet; whatever it leaves behind can be read in the
arena, and the code that it answers can run in its frame.
-/
import LogicMachine.Proofs.Builtins

namespace LogicMachine

-- ================================================== code that can run

/-- The code can run in the frame that is running. -/
def Query.Executes (strict : Bool) (q : Query) (code : Code) : Prop :=
  code.Fits (q.frames.world strict) ((q.frames.world strict).slotsOf (q.frames.owner q.callee))

/-- The running frame was just entered: its slots are its own, and no
choice point keeps it. -/
structure Query.Opened (q : Query) : Prop where
  own : q.frames.owner q.callee = q.callee
  above : ∀ p ∈ q.choices.points, p.mark ≤ q.callee

section

variable {strict : Bool} {q q' : Query}

theorem executes_succeed : q.Executes strict .succeed := Code.fits_succeed

theorem executes_fail : q.Executes strict .fail := Code.fits_fail

theorem executes_ofBool (b : Bool) : q.Executes strict (.ofBool b) := Code.fits_ofBool b

/-- A term that can be read can be an argument of code. -/
theorem Term.Fits.argument {fs : Frames} {t : Term} {f : FrameId} (h : t.Live (fs.world strict))
    (hf : (fs.world strict).frame f) : t.Fits (fs.world strict) ((fs.world strict).slotsOf f) :=
  h.mono (.refl _) fun _ hr => Frames.slotsOf_of_raw hr hf

/-- A goal that can be read can be called. -/
theorem executes_run_call {goal : Term} {next : Code} (hg : goal.Live (q.frames.world strict))
    (hf : (q.frames.world strict).frame (q.frames.owner q.callee)) (hn : q.Executes strict next) : q.Executes strict (.run .call [goal] next) := by
  refine Code.fits_call.2 ⟨?_, List.forall_mem_singleton.2 (hg.argument hf), hn⟩
  rw [Target.Fits, Procedure.Fits]
  trivial

/-- The same frame is running in an arena that has grown. -/
theorem Query.Executes.grow {code : Code} (h : q.Executes strict code)
    (hg : q.frames.Grows q'.frames) (hlive : q.callee < q.frames.size)
    (hc : q'.callee = q.callee) : q'.Executes strict code := by
  unfold Query.Executes at *
  rw [hc, hg.owner hlive]
  exact h.mono hg.world_le fun _ hi => hg.world_le.cell _ hi

theorem Act.Effect.executes (h : Act.Effect strict q q') (hq : q.Sound strict) {code : Code}
    (hc : q.Executes strict code) : q'.Executes strict code :=
  hc.grow h.works.steady.1 hq.orderly.live h.works.steady.2.1

end

-- ================================================== points and values that are left

namespace Act

section

variable {μ : Rigor} {q : Query}

/-- A choice point is left whose alternatives can be read. -/
theorem runs_pushChoice (hq : q.Sound μ.strict) {alternatives : Alternatives}
    (hleaf : alternatives.IsLeaf) (hopen : ∀ p ∈ q.choices.points, p.scope.isSome → p.mark ≤ q.callee)
    (ha : alternatives.Fits (q.frames.world μ.strict)
      ((q.frames.world μ.strict).slotsOf (q.frames.owner q.callee))) :
    Runs μ q (pushChoice alternatives) fun _ _ => True := by
  have hwork : Work μ.strict q { q with
      choices := q.choices.push q.callee q.ancestry q.frames.size none alternatives } :=
    .point alternatives hleaf hopen
  have hs : Query.Sound μ.strict { q with
      choices := q.choices.push q.callee q.ancestry q.frames.size none alternatives } := by
    refine hq.point rfl rfl (fun a hsome => ?_) (hwork.orderly hq.orderly)
    cases hsome
    exact ha
  exact ⟨fun _ _ _ hdb => ⟨hdb, ⟨.single hwork, hs⟩, trivial⟩⟩

/-- Leaving a point is the last thing done. -/
theorem runs_pushChoice_then (hq : q.Sound μ.strict) (ho : q.Opened) (alternatives : Alternatives)
    (hleaf : alternatives.IsLeaf)
    (ha : alternatives.Fits (q.frames.world μ.strict)
      ((q.frames.world μ.strict).slotsOf (q.frames.owner q.callee))) {code : Code}
    (hcode : q.Executes μ.strict code) :
    Runs μ q (do let _ ← pushChoice alternatives; return code)
      fun code q' => q'.Executes μ.strict code :=
  (runs_pushChoice hq hleaf (fun p hp _ => ho.above p hp) ha).bind fun _ _ heffect _ =>
    .pure heffect.sound (heffect.executes hq hcode)

theorem runs_enumerate (hq : q.Sound μ.strict) (ho : q.Opened) {items : List Term} {target : Term}
    (hi : ∀ i ∈ items, i.Fits (q.frames.world μ.strict) anyVars)
    (ht : target.Live (q.frames.world μ.strict)) :
    Runs μ q (enumerate items target) fun code q' => q'.Executes μ.strict code := by
  unfold enumerate
  dsimp only
  split
  · exact runs_pushChoice_then hq ho (.candidates items target) trivial ⟨hi, ht⟩ executes_fail
  · exact .pure hq executes_fail

/-- The collectors hold nothing but copies. -/
theorem runs_collectors (hq : q.Sound μ.strict) {collectors : Array (List Term)}
    (hc : ∀ l ∈ collectors, ∀ t ∈ l, t.Fits .none anyVars) :
    Effect μ.strict q { q with collectors := collectors } :=
  have hwork : Work μ.strict q { q with collectors := collectors } := .collect collectors
  ⟨.single hwork, { hq with orderly := hwork.orderly hq.orderly, collectors := hc }⟩

end

-- ================================================== built-ins with a frame of their own

section

variable {μ : Rigor} {q : Query} {t u v : Term}

theorem runs_findall (hq : q.Sound μ.strict) (ho : q.Opened)
    (ht : t.Live (q.frames.world μ.strict)) (hu : u.Live (q.frames.world μ.strict))
    (hv : v.Live (q.frames.world μ.strict)) :
    Runs μ q (Control.findall t u v) fun code q' => q'.Executes μ.strict code := by
  have hnew : Runs μ q Control.newCollector fun _ q' =>
      ∃ collectors, q' = { q with collectors := collectors } := by
    refine ⟨fun _ _ _ hdb => ⟨hdb, runs_collectors hq fun l hl => ?_, _, rfl⟩⟩
    rcases Array.mem_push.1 hl with hl | rfl
    · exact hq.collectors l hl
    · exact fun _ h => absurd h List.not_mem_nil
  refine hnew.bind fun collector q' heffect ⟨collectors, he⟩ => ?_
  have ho' : q'.Opened := he ▸ ⟨ho.own, ho.above⟩
  refine runs_pushChoice_then heffect.sound ho' (.collected collector v) trivial (heffect.live hv) ?_
  refine executes_run_call (heffect.live hu)
    (heffect.sound.frame_owner heffect.sound.orderly.live) (Code.fits_call.2 ⟨?_, ?_, Code.fits_fail⟩)
  · rw [Target.Fits, Procedure.Fits]
    exact heffect.live ht
  · exact fun _ h => absurd h List.not_mem_nil

theorem runs_between (hq : q.Sound μ.strict) (ho : q.Opened)
    (ht : t.Live (q.frames.world μ.strict)) (hu : u.Live (q.frames.world μ.strict))
    (hv : v.Live (q.frames.world μ.strict)) :
    Runs μ q (Control.between t u v) fun code q' => q'.Executes μ.strict code := by
  refine .read hq (reads_strip hq ht) fun low hl => .read hq (Reads.tame (tame_asInt hl))
    fun _ _ => .read hq (reads_upperEnd hq hu) fun high _ => .read hq (reads_strip hq hv)
      fun x hx => ?_
  split
  · exact .read hq (Reads.tame (tame_asInt hx)) fun _ _ => .pure hq (executes_ofBool _)
  · exact runs_pushChoice_then hq ho (.range _ _ x) trivial hx executes_fail

theorem runs_matching (hq : q.Sound μ.strict) (ho : q.Opened)
    (ht : t.Live (q.frames.world μ.strict)) (hu : u.Live (q.frames.world μ.strict))
    (remove : Bool) :
    Runs μ q (Clauses.matching t u remove) fun code q' => q'.Executes μ.strict code := by
  refine .read hq (Reads.tame (tame_ofTerm ht)) fun p _ => .get_bind fun db hdb => ?_
  have hrows : ∀ row ∈ (db.table? p).elim #[] Table.rows, row.procedure.Fits .none := by
    cases htable : db.table? p with
    | none => exact fun row hrow => absurd hrow (Array.not_mem_empty row)
    | some table => exact hdb.table? htable
  dsimp only
  split
  · exact Runs.pure hq executes_fail
  · have hparts : ∀ a ∈ [t, u], a.Live (q.frames.world μ.strict) :=
      List.forall_mem_cons.2 ⟨ht, List.forall_mem_singleton.2 hu⟩
    exact Runs.read hq (reads_term hparts) fun pattern hp =>
      runs_pushChoice_then hq ho (.matching _ _ _ pattern _) trivial ⟨hrows, hp⟩ executes_fail

theorem runs_retract (hq : q.Sound μ.strict) (ho : q.Opened)
    (ht : t.Live (q.frames.world μ.strict)) :
    Runs μ q (Clauses.retract t) fun code q' => q'.Executes μ.strict code :=
  .read hq (reads_headAndBody hq ht) fun _ hp => runs_matching hq ho hp.1 hp.2 true

theorem runs_clause (hq : q.Sound μ.strict) (ho : q.Opened)
    (ht : t.Live (q.frames.world μ.strict)) (hu : u.Live (q.frames.world μ.strict)) :
    Runs μ q (Clauses.clause t u) fun code q' => q'.Executes μ.strict code := by
  refine .read hq (reads_headAndBody hq ht) fun _ hp => .read hq (reads_strip hq hu) fun b hb => ?_
  dsimp only
  split
  · exact Does.throw_bind (fits_type hb) (.refl hq)
  · exact runs_matching hq ho hp.1 hb false

theorem runs_currentPredicate (hq : q.Sound μ.strict) (ho : q.Opened)
    (ht : t.Live (q.frames.world μ.strict)) :
    Runs μ q (Clauses.currentPredicate t) fun code q' => q'.Executes μ.strict code := by
  refine .read hq (reads_strip hq ht) fun r hr => ?_
  have hlast : Runs μ q (do enumerate ((Clauses.defined (← get).db).map Predicate.toTerm) r)
      fun code q' => q'.Executes μ.strict code := by
    refine .get_bind fun db _ => runs_enumerate hq ho (fun i hi => ?_) hr
    obtain ⟨p, -, rfl⟩ := List.mem_map.1 hi
    exact Term.fits_compound.2 ⟨fun _ => rfl, by simp⟩
  dsimp only
  split
  · split
    · exact Does.throw_bind (fits_type hr) (.refl hq)
    · rename_i hs
      obtain ⟨hn, ha⟩ := hr.split hs
      refine .read hq (reads_strip hq hn) fun _ _ => .read hq (reads_strip hq ha) fun _ _ => ?_
      split
      · exact Does.throw_bind (fits_type hr) (.refl hq)
      · exact hlast
  · exact hlast

theorem runs_atomConcat (hq : q.Sound μ.strict) (ho : q.Opened)
    (ht : t.Live (q.frames.world μ.strict)) (hu : u.Live (q.frames.world μ.strict))
    (hv : v.Live (q.frames.world μ.strict)) :
    Runs μ q (Atoms.atomConcat t u v) fun code q' => q'.Executes μ.strict code := by
  refine .read hq (reads_strip hq hv) fun known hk => ?_
  split
  · refine .read hq (reads_atomText hq ht) fun _ _ => .read hq (reads_atomText hq hu) fun _ _ => ?_
    exact (Runs.of_tries (tries_unify hq hk Term.fits_atom)).bind fun ok _ heffect _ =>
      .pure heffect.sound (executes_ofBool ok)
  · refine .read hq (Reads.tame (tame_asAtom hk)) fun _ _ => ?_
    have hparts : ∀ a ∈ [t, u], a.Live (q.frames.world μ.strict) :=
      List.forall_mem_cons.2 ⟨ht, List.forall_mem_singleton.2 hu⟩
    refine .read hq (reads_term hparts) fun pair hp => runs_enumerate hq ho (fun i hi => ?_) hp
    obtain ⟨_, -, rfl⟩ := List.mem_map.1 hi
    exact Term.fits_compound.2 ⟨fun _ => rfl, by simp⟩

theorem runs_subAtom (hq : q.Sound μ.strict) (ho : q.Opened) {a before length after part : Term}
    (ha : a.Live (q.frames.world μ.strict)) (hb : before.Live (q.frames.world μ.strict))
    (hl : length.Live (q.frames.world μ.strict)) (hf : after.Live (q.frames.world μ.strict))
    (hp : part.Live (q.frames.world μ.strict)) :
    Runs μ q (Atoms.subAtom a before length after part) fun code q' => q'.Executes μ.strict code := by
  refine .read hq (reads_atomText hq ha) fun text _ =>
    .read hq (reads_optionalLength hq hb) fun _ _ => .read hq (reads_optionalLength hq hf)
      fun _ _ => .read hq (reads_optionalLength hq hl) fun known _ =>
        .read hq (reads_strip hq hp) fun part hpart => ?_
  have hlast : ∀ known : Option Nat, Runs μ q (do
      let target ← Database.term "sub" [before, length, after, part]
      let _ ← pushChoice (.substrings text.toList.toArray 0 (known.getD 0) known target)
      return .fail) fun code q' => q'.Executes μ.strict code := by
    intro known
    have hparts : ∀ a ∈ [before, length, after, part], a.Live (q.frames.world μ.strict) := by
      simp only [List.forall_mem_cons]
      exact ⟨hb, hl, hf, hpart, fun _ h => absurd h List.not_mem_nil⟩
    exact .read hq (reads_term hparts) fun target htarget =>
      runs_pushChoice_then hq ho (.substrings _ _ _ _ target) trivial htarget executes_fail
  split
  · exact hlast known
  · exact .read hq (Reads.tame (tame_asAtom hpart)) fun name _ => hlast _

/-- The flags on offer are as they were stored, with the variables that
they have. -/
theorem runs_currentFlag (hq : q.Sound μ.strict) (ho : q.Opened)
    (ht : t.Live (q.frames.world μ.strict)) (hu : u.Live (q.frames.world μ.strict)) :
    Runs μ q (Settings.currentFlag t u) fun code q' => q'.Executes μ.strict code := by
  refine .read hq (reads_atomOrVar hq ht) fun _ _ => .get_bind fun db hdb => ?_
  have hflag : ∀ f ∈ db.flags, Reads μ q (Database.term "flag" [.atom f.1, f.2] : Act Term)
      (·.Fits .none anyVars) := fun f hf =>
    reads_term (List.forall_mem_cons.2 ⟨Term.fits_atom, List.forall_mem_singleton.2 (hdb.flags f hf)⟩)
  have hparts : ∀ a ∈ [t, u], a.Live (q.frames.world μ.strict) :=
    List.forall_mem_cons.2 ⟨ht, List.forall_mem_singleton.2 hu⟩
  exact Runs.read hq (Reads.mapM hflag) fun flags hflags => .read hq (reads_term hparts)
    fun pair hp => runs_enumerate hq ho (fun i hi => (hflags i hi).of_none fun _ h => h) hp

theorem runs_currentOperator (hq : q.Sound μ.strict) (ho : q.Opened)
    (ht : t.Live (q.frames.world μ.strict)) (hu : u.Live (q.frames.world μ.strict))
    (hv : v.Live (q.frames.world μ.strict)) :
    Runs μ q (Settings.currentOperator t u v) fun code q' => q'.Executes μ.strict code := by
  have hlast : Runs μ q (do
      let _ ← Settings.atomOrVar v
      let found := (← get).db.operators.definitions.map fun d =>
        Term.compound .plain "op" [.int d.priority, .atom d.kind.name, .atom d.name]
      enumerate found (← Database.term "op" [t, u, v]))
      fun code q' => q'.Executes μ.strict code := by
    refine .read hq (reads_atomOrVar hq hv) fun _ _ => .get_bind fun db _ => ?_
    have hparts : ∀ a ∈ [t, u, v], a.Live (q.frames.world μ.strict) :=
      List.forall_mem_cons.2 ⟨ht, List.forall_mem_cons.2 ⟨hu, List.forall_mem_singleton.2 hv⟩⟩
    refine Runs.read hq (reads_term hparts) fun pair hp => runs_enumerate hq ho (fun i hi => ?_) hp
    obtain ⟨_, -, rfl⟩ := List.mem_map.1 hi
    exact Term.fits_compound.2 ⟨fun _ => rfl, by simp⟩
  have hkind : Runs μ q (do
      let k ← Settings.atomOrVar u
      if !k.isVar then
        let k ← checked k.asAtom
        let _ ← checked (OperatorType.ofName k)
      let _ ← Settings.atomOrVar v
      let found := (← get).db.operators.definitions.map fun d =>
        Term.compound .plain "op" [.int d.priority, .atom d.kind.name, .atom d.name]
      enumerate found (← Database.term "op" [t, u, v]))
      fun code q' => q'.Executes μ.strict code := by
    refine .read hq (reads_atomOrVar hq hu) fun k hk => ?_
    dsimp only
    split
    · exact .read hq (Reads.tame (tame_asAtom hk)) fun name _ =>
        .read hq (Reads.tame (tame_ofName name)) fun _ _ => hlast
    · exact hlast
  refine .read hq (reads_strip hq ht) fun p hp => ?_
  dsimp only
  split
  · refine .read hq (Reads.tame (tame_asInt hp)) fun value _ => ?_
    split
    · exact Does.throw_bind (fits_domain hp) (.refl hq)
    · exact hkind
  · exact hkind

theorem runs_each (hq : q.Sound μ.strict) (ho : q.Opened)
    (ht : t.Live (q.frames.world μ.strict)) (hu : u.Live (q.frames.world μ.strict)) :
    Runs μ q (Probes.each t u) fun code q' => q'.Executes μ.strict code := by
  refine .read hq (reads_listItems hq hu) fun items hitems => ?_
  exact runs_pushChoice_then hq ho (.candidates items t) trivial
    ⟨fun i hi => (hitems i hi).mono (.refl _) fun _ _ => trivial, ht⟩ executes_fail

theorem fits_sample {w : World} {vars : Nat → Prop} (name : String) :
    (Probes.sample name).Fits w vars := by
  unfold Probes.sample
  split <;> simp [Code.fits_choice]

/-- A built-in that has a frame of its own works on the query and answers
code that can run there; a guarded goal is another matter. -/
theorem runs_framed (hq : q.Sound μ.strict) (ho : q.Opened) {builtin : Framed}
    (hb : ∀ name, builtin ≠ .uninvokable name) (hguarded : builtin ≠ .guarded) {args : List Term}
    (hlive : ∀ a ∈ args, a.Live (q.frames.world μ.strict)) :
    Runs μ q (builtin.run args) fun code q' => q'.Executes μ.strict code := by
  unfold Framed.run
  split <;> try simp only [List.forall_mem_cons] at hlive
  case h_1 => exact absurd rfl hguarded
  case h_2 => exact runs_findall hq ho hlive.1 hlive.2.1 hlive.2.2.1
  case h_3 => exact runs_between hq ho hlive.1 hlive.2.1 hlive.2.2.1
  case h_4 => exact runs_retract hq ho hlive.1
  case h_5 => exact runs_clause hq ho hlive.1 hlive.2.1
  case h_6 => exact runs_currentPredicate hq ho hlive.1
  case h_7 => exact runs_atomConcat hq ho hlive.1 hlive.2.1 hlive.2.2.1
  case h_8 => exact runs_subAtom hq ho hlive.1 hlive.2.1 hlive.2.2.1 hlive.2.2.2.1 hlive.2.2.2.2.1
  case h_9 => exact runs_currentFlag hq ho hlive.1 hlive.2.1
  case h_10 => exact runs_currentOperator hq ho hlive.1 hlive.2.1 hlive.2.2.1
  case h_11 => exact absurd rfl (hb _)
  case h_12 => exact runs_each hq ho hlive.1 hlive.2.1
  case h_13 =>
    exact runs_pushChoice_then hq ho (.once _ _) trivial ⟨hlive.1, hlive.2.1⟩ executes_succeed
  case h_14 =>
    exact .read hq (reads_strip hq hlive.1) fun _ hr => .read hq (Reads.tame (tame_asAtom hr))
      fun name _ => .pure hq (fits_sample name)
  case h_15 => exact .throw hq (fits_fatal (by decide))

end

end Act

end LogicMachine
