/-
What acts may have done.

An act changes the database as every computation does, and it leaves the
choice points that were there as they were, but for their trails, or drops
them. The points that it makes have something on offer, but no rows (`Deed`).
This holds of every act of the library however it ends (`Act.Deeds`), whatever
the query looks like, except for the two built-ins that put the clauses of a
predicate on offer (`Framed.looksUp`). These go beyond it, as do calling a table
and trying the alternatives of a point; they come with the steps of a query.
-/
import LogicMachine.Proofs.Evolving

namespace LogicMachine

-- ================================================== what may have been done

/-- The rows that alternatives have still to come, if they are rows. -/
def Alternatives.rows? : Alternatives → Option (List Row)
  | .rows snapshot index _ _ _ _ => some (snapshot.toList.drop index)
  | .matching _ snapshot index _ _ => some (snapshot.toList.drop index)
  | _ => none

/-- Whether a built-in puts the clauses of a predicate on offer. -/
def Framed.looksUp : Framed → Bool
  | .retract | .clause => true
  | _ => false

/-- The points are numbered in the order in which they were made. -/
structure ChoiceStack.Ordered (cs : ChoiceStack) : Prop where
  falling : (cs.points.map ChoicePoint.id).Pairwise fun i j => j < i
  le_serial : ∀ p ∈ cs.points, p.id ≤ cs.serial

namespace ChoiceStack.Ordered

variable {cs cs' : ChoiceStack}

theorem sublist (h : cs.Ordered) (hs : cs'.serial = cs.serial)
    (hp : cs'.points.Sublist cs.points) : cs'.Ordered :=
  ⟨h.falling.sublist (hp.map _), fun p hmem => hs ▸ h.le_serial p (hp.subset hmem)⟩

/-- Only the numbers matter. -/
theorem congr (h : cs.Ordered) (hs : cs'.serial = cs.serial)
    (hp : List.Forall₂ (fun p p' : ChoicePoint => p.id = p'.id) cs.points cs'.points) :
    cs'.Ordered := by
  refine ⟨?_, fun p' hp' => ?_⟩
  · have hids : cs.points.map ChoicePoint.id = cs'.points.map ChoicePoint.id := by
      rw [← List.forall₂_eq_eq_eq, List.forall₂_map_left_iff, List.forall₂_map_right_iff]
      exact hp
    exact hids ▸ h.falling
  · obtain ⟨p, hmem, hid⟩ := exists_left_of_forall₂ hp p' hp'
    exact hs ▸ hid ▸ h.le_serial p hmem

theorem recordAll (h : cs.Ordered) (fs : Frames) (cells : List Cell) :
    (cs.recordAll fs cells).Ordered :=
  h.congr (ChoiceStack.serial_recordAll ..) ((ChoiceStack.samePoints_recordAll fs cells cs).imp
    fun _ _ hsame => hsame.same.id.symm)

theorem push (h : cs.Ordered) (frame : FrameId) (ancestry mark : Nat) (scope : Option Nat)
    (a : Alternatives) : (cs.push frame ancestry mark scope a).Ordered := by
  refine ⟨List.pairwise_cons.2 ⟨fun i hi => ?_, h.falling⟩, fun p hp => ?_⟩
  · obtain ⟨p, hp, rfl⟩ := List.mem_map.1 hi
    exact Nat.lt_succ_of_le (h.le_serial p hp)
  · rcases List.mem_cons.1 hp with rfl | hp
    · exact le_rfl
    · exact (h.le_serial p hp).trans (Nat.le_succ _)

/-- Points are told apart by their numbers. -/
theorem eq_of_id (h : cs.Ordered) {p p' : ChoicePoint} (hp : p ∈ cs.points) (hp' : p' ∈ cs.points)
    (hid : p.id = p'.id) : p = p' :=
  List.inj_on_of_nodup_map (h.falling.imp fun hlt => hlt.ne') hp hp' hid

end ChoiceStack.Ordered

/-- What an act may have done to a machine. -/
structure Deed (m m' : Machine) : Prop where
  db : m.db.Evolves m'.db
  serial : m.query.choices.serial ≤ m'.query.choices.serial
  ordered : m.query.choices.Ordered → m'.query.choices.Ordered
  points : ∀ p' ∈ m'.query.choices.points,
    (∃ p ∈ m.query.choices.points, p.id = p'.id ∧ p.alternatives = p'.alternatives)
      ∨ (m.query.choices.serial < p'.id ∧ ∃ a, p'.alternatives = some a ∧ a.rows? = none)

namespace Deed

variable {m m' m'' : Machine}

/-- The points are some of those that were there. -/
theorem of_kept (hdb : m.db.Evolves m'.db)
    (hserial : m'.query.choices.serial = m.query.choices.serial)
    (hpoints : m'.query.choices.points.Sublist m.query.choices.points) : Deed m m' :=
  ⟨hdb, hserial.ge, fun h => h.sublist hserial hpoints, fun p hp =>
    .inl ⟨p, hpoints.subset hp, rfl, rfl⟩⟩

theorem of_choices (hdb : m.db.Evolves m'.db) (h : m'.query.choices = m.query.choices) :
    Deed m m' :=
  .of_kept hdb (by rw [h]) (by rw [h])

theorem refl (m : Machine) : Deed m m := .of_choices (.refl _) rfl

theorem of_recorded (hdb : m.db.Evolves m'.db) (fs : Frames) (cells : List Cell)
    (h : m'.query.choices = m.query.choices.recordAll fs cells) : Deed m m' := by
  refine ⟨hdb, by rw [h, ChoiceStack.serial_recordAll], fun ho => h ▸ ho.recordAll fs cells,
    fun p' hp' => ?_⟩
  rw [h] at hp'
  obtain ⟨p, hp, hsame⟩ :=
    exists_left_of_forall₂ (ChoiceStack.samePoints_recordAll fs cells m.query.choices) p' hp'
  exact .inl ⟨p, hp, hsame.same.id.symm, hsame.alternatives.symm⟩

theorem push (hdb : m.db.Evolves m'.db) (frame : FrameId) (ancestry mark : Nat)
    (scope : Option Nat) {a : Alternatives} (ha : a.rows? = none)
    (h : m'.query.choices = m.query.choices.push frame ancestry mark scope a) : Deed m m' := by
  refine ⟨hdb, ?_, fun ho => h ▸ ho.push .., fun p' hp' => ?_⟩
  · rw [h]
    exact Nat.le_succ _
  · rw [h] at hp'
    rcases List.mem_cons.1 hp' with rfl | hp'
    · exact .inr ⟨Nat.lt_succ_self _, a, rfl, ha⟩
    · exact .inl ⟨p', hp', rfl, rfl⟩

theorem trans (h : Deed m m') (h' : Deed m' m'') : Deed m m'' := by
  refine ⟨h.db.trans h'.db, h.serial.trans h'.serial, fun ho => h'.ordered (h.ordered ho),
    fun p'' hp'' => ?_⟩
  rcases h'.points p'' hp'' with ⟨p', hp', hid', ha'⟩ | ⟨hnew, a, ha, hrows⟩
  · rcases h.points p' hp' with ⟨p, hp, hid, ha⟩ | ⟨hnew, a, ha, hrows⟩
    · exact .inl ⟨p, hp, hid.trans hid', ha.trans ha'⟩
    · exact .inr ⟨hid' ▸ hnew, a, ha' ▸ ha, hrows⟩
  · exact .inr ⟨h.serial.trans_lt hnew, a, ha, hrows⟩

end Deed

namespace Act

variable {α β : Type} {act : Act α}

/-- The machine that a run leaves behind, whether or not it failed. -/
def left : EStateM.Result Failure Machine α → Machine
  | .ok _ m => m
  | .error _ m => m

end Act

/-- Forcing a thunk leaves the query alone, and the database evolves. -/
structure Env.Steady (env : Env) : Prop where
  query : ∀ (id : Nat) (m : Machine), (Act.left (env.force id m)).query = m.query
  db : ∀ (id : Nat) (m : Machine), m.db.Evolves (Act.left (env.force id m)).db

theorem Env.Steady.deed {env : Env} (h : env.Steady) (id : Nat) (m : Machine) :
    Deed m (Act.left (env.force id m)) :=
  .of_choices (h.db id m) (congrArg Query.choices (h.query id m))

namespace Act

variable {α β : Type} {act : Act α}

theorem store_apply (work : Store α) (env : Env) (m : Machine) :
    Act.store work env m = match work m.db with
      | .ok a db => .ok a ⟨db, m.query⟩
      | .error e db => .error e ⟨db, m.query⟩ := rfl

/-- From this machine on, the act does no more than an act may. -/
def DeedsFrom (m : Machine) (act : Act α) : Prop :=
  ∀ env : Env, env.Steady → Deed m (left (act env m))

/-- Whatever becomes of the act, it has done no more than an act may. -/
structure Deeds (act : Act α) : Prop where
  ends : ∀ (env : Env) (m : Machine), env.Steady → Deed m (left (act env m))

theorem DeedsFrom.bind {m : Machine} {next : α → Act β} (h : DeedsFrom m act)
    (hn : ∀ a, Deeds (next a)) : DeedsFrom m (act >>= next) := by
  intro env henv
  have hact := h env henv
  rw [bind_apply]
  cases hr : act env m with
  | ok a m' =>
    rw [hr] at hact
    exact hact.trans ((hn a).ends env m' henv)
  | error e m' =>
    rw [hr] at hact
    exact hact

namespace Deeds

theorem pure (a : α) : Deeds (pure a : Act α) := ⟨fun _ m _ => .refl m⟩

theorem throw (e : Failure) : Deeds (throw e : Act α) := ⟨fun _ m _ => .refl m⟩

/-- Nothing comes after a failure. -/
theorem throw_bind {next : α → Act β} (e : Failure) :
    Deeds (MonadExcept.throw e >>= next) := ⟨fun _ m _ => .refl m⟩

theorem bind {next : α → Act β} (h : Deeds act) (hn : ∀ a, Deeds (next a)) :
    Deeds (act >>= next) := ⟨fun env m => DeedsFrom.bind (h.ends · m) hn env⟩

theorem read_bind {next : Env → Act β} (hn : ∀ env : Env, env.Steady → Deeds (next env)) :
    Deeds (read >>= next) := ⟨fun env m henv => (hn env henv).ends env m henv⟩

theorem force {env : Env} (henv : env.Steady) (id : Nat) :
    Deeds (liftM (env.force id) : Act Term) := ⟨fun _ m _ => henv.deed id m⟩

theorem store {work : Store α} (h : work.Evolves) : Deeds (Act.store work) := by
  refine ⟨fun env m _ => ?_⟩
  have hw := h.ends m.db
  unfold Store.after at hw
  rw [store_apply]
  cases hr : work m.db with
  | ok a db' =>
    rw [hr] at hw
    exact .of_choices hw rfl
  | error e db' =>
    rw [hr] at hw
    exact .of_choices hw rfl

theorem checked (r : Except Failure α) : Deeds (Act.checked r) := by
  cases r with
  | ok a => exact .pure a
  | error e => exact .throw e

theorem attempt (h : Deeds act) : Deeds (Act.attempt act) := by
  refine ⟨fun env m henv => ?_⟩
  have hact := h.ends env m henv
  rw [attempt_apply]
  cases hr : act env m with
  | ok a m' =>
    rw [hr] at hact
    exact hact
  | error e m' =>
    rw [hr] at hact
    exact hact

theorem modifyGet {f : Machine → α × Machine} (h : ∀ m, Deed m (f m).2) :
    Deeds (modifyGet f : Act α) := ⟨fun _ m _ => h m⟩

/-- A change of the query that is none of its choice points. -/
theorem modifyQuery {change : Query → Query} (h : ∀ q, (change q).choices = q.choices) :
    Deeds (Act.modifyQuery change) := ⟨fun _ m _ => .of_choices (.refl m.db) (h m.query)⟩

theorem mapM {γ : Type} {f : γ → Act α} (h : ∀ i, Deeds (f i)) (items : List γ) :
    Deeds (items.mapM f) := by
  induction items with
  | nil => exact .pure _
  | cons i items ih =>
    rw [List.mapM_cons]
    exact (h i).bind fun _ => ih.bind fun _ => .pure _

end Deeds

theorem deeds_get : Deeds (get : Act Machine) := ⟨fun _ m _ => .refl m⟩

theorem deeds_frames : Deeds frames := .bind deeds_get fun _ => .pure _

theorem deeds_callee : Deeds callee := .bind deeds_get fun _ => .pure _

theorem deeds_steps : Deeds steps := .read_bind fun _ _ => .pure _

theorem deeds_lens : Deeds lens := .bind deeds_get fun _ => .pure _

-- ================================================== reading terms

theorem deeds_resolve (t : Term) : Deeds (resolve t) := .bind deeds_frames fun _ => .pure _

theorem deeds_stripWithin (steps : Nat) (t : Term) : Deeds (stripWithin steps t) := by
  induction steps generalizing t with
  | zero => exact .throw _
  | succ steps ih =>
    unfold stripWithin
    split
    · exact .read_bind fun env henv => .bind (.force henv _) fun value =>
        .bind (deeds_resolve value) fun _ => ih _
    · exact .pure _

theorem deeds_strip (t : Term) : Deeds (strip t) :=
  .bind deeds_steps fun _ => .bind (deeds_resolve t) fun _ => deeds_stripWithin _ _

theorem deeds_listItemsWithin (list : Term) (steps : Nat) (rest : Term) (items : List Term) :
    Deeds (listItemsWithin list steps rest items) := by
  induction steps generalizing rest items with
  | zero => exact .throw _
  | succ steps ih =>
    unfold listItemsWithin
    split
    · split
      · exact .pure _
      · exact .throw _
    · exact .throw _
    · exact .throw _
    · split
      · exact .bind (deeds_strip _) fun _ => ih _ _
      · exact .throw _

theorem deeds_listItems (list : Term) : Deeds (listItems list) :=
  .bind deeds_steps fun _ => .bind (deeds_strip list) fun _ => deeds_listItemsWithin _ _ _ _

theorem deeds_compareWithin (steps : Nat) (pairs : List (Term × Term)) :
    Deeds (compareWithin steps pairs) := by
  induction steps generalizing pairs with
  | zero => exact .throw _
  | succ steps ih =>
    cases pairs with
    | nil => exact .pure _
    | cons e rest =>
      refine .bind (deeds_strip _) fun _ => .bind (deeds_strip _) fun _ => .bind deeds_frames fun _ => ?_
      split
      · exact ih _
      · exact .pure _

theorem deeds_compareTerms (a b : Term) : Deeds (compareTerms a b) :=
  .bind deeds_steps fun _ => deeds_compareWithin _ _

-- ================================================== unification

theorem deeds_bindTentatively (cell : Cell) (name : String) (value : Term) :
    Deeds (bindTentatively cell name value) := by
  refine .bind deeds_frames fun _ => ?_
  split
  · exact .throw_bind _
  · exact .modifyQuery fun _ => rfl

theorem deeds_solveWithin (steps : Nat) (equations : List Equation) :
    Deeds (solveWithin steps equations) := by
  induction steps generalizing equations with
  | zero => exact .throw _
  | succ steps ih =>
    cases equations with
    | nil => exact .pure _
    | cons e rest =>
      refine .bind deeds_frames fun _ => ?_
      split
      · exact ih _
      · exact .pure _
      · exact .bind (deeds_bindTentatively _ _ _) fun _ => ih _
      · exact ih _
      · exact .read_bind fun env henv => .bind (.force henv _) fun _ => ih _
      · exact .read_bind fun env henv => .bind (.force henv _) fun _ => ih _

theorem deeds_rollback : Deeds rollback := .modifyQuery fun _ => rfl

theorem deeds_commit : Deeds commit := ⟨fun _ _ _ => .of_recorded (.refl _) _ _ rfl⟩

theorem deeds_solve (equations : List Equation) : Deeds (solve equations) := by
  refine .bind deeds_steps fun _ => .bind (deeds_solveWithin _ _).attempt fun r => ?_
  split
  · exact .pure _
  · exact .bind deeds_rollback fun _ => .pure _
  · exact .bind deeds_rollback fun _ => .throw _

theorem deeds_unify (x y : Term) : Deeds (unify x y) := by
  refine .bind (deeds_solve _) fun ok => ?_
  split
  · exact .bind deeds_commit fun _ => .pure _
  · exact .pure _

theorem deeds_unifiable (x y : Term) : Deeds (unifiable x y) :=
  .bind (deeds_solve _) fun _ => .bind deeds_rollback fun _ => .pure _

theorem deeds_unifyArgs (xs : List Term) (fx : FrameId) (ys : List Term) (fy : FrameId) :
    Deeds (unifyArgs xs fx ys fy) := by
  unfold unifyArgs
  split
  · exact .pure _
  · refine .bind (deeds_solve _) fun ok => ?_
    split
    · exact .bind deeds_commit fun _ => .pure _
    · exact .pure _

-- ================================================== terms and choice points

theorem deeds_list (items : List Term) : Deeds (list items) := .store (Database.evolves_listOf _ _)

theorem deeds_term (name : String) (args : List Term) :
    Deeds (Database.term name args : Act Term) := .store (Database.evolves_term _ _)

theorem deeds_unify_list (t : Term) (items : List Term) : Deeds (do unify t (← list items)) :=
  .bind (deeds_list items) fun _ => deeds_unify _ _

theorem deeds_unify_term (t : Term) (name : String) (args : List Term) :
    Deeds (do unify t (← Database.term name args)) :=
  .bind (deeds_term name args) fun _ => deeds_unify _ _

theorem deeds_freshVars (count : Nat) : Deeds (freshVars count) :=
  .modifyGet fun _ => .of_choices (.refl _) rfl

theorem deeds_rebind (t : Term) : Deeds (rebind t) :=
  .modifyGet fun _ => .of_choices (.of_eq rfl rfl le_rfl rfl) rfl

theorem deeds_detachAll (ts : List Term) : Deeds (detachAll ts) :=
  .modifyGet fun _ => .of_choices (.of_eq rfl rfl le_rfl rfl) rfl

theorem deeds_detach (t : Term) : Deeds (detach t) :=
  .modifyGet fun _ => .of_choices (.of_eq rfl rfl le_rfl rfl) rfl

theorem deeds_pushChoice {a : Alternatives} (ha : a.rows? = none) : Deeds (pushChoice a) :=
  .modifyGet fun _ => .push (.refl _) _ _ _ _ ha rfl

theorem deeds_enumerate (items : List Term) (target : Term) : Deeds (enumerate items target) := by
  unfold enumerate
  dsimp only
  split
  · exact .bind (deeds_pushChoice rfl) fun _ => .pure _
  · exact .pure _

theorem deeds_unwindTo (id : Nat) : Deeds (unwindTo id) := by
  refine .modifyGet fun m => ?_
  dsimp only
  split
  · rename_i choices frames h
    obtain ⟨above, p, below, hpoints, -, rfl, -⟩ := ChoiceStack.unwindTo_split h
    refine .of_kept (.refl _) rfl ?_
    rw [hpoints]
    exact (List.sublist_cons_self p below).trans (List.sublist_append_right above _)
  · exact .refl m

-- ================================================== terms

theorem deeds_compare (order x y : Term) : Deeds (Terms.compare order x y) := by
  refine .bind (deeds_compareTerms x y) fun o => .bind (deeds_strip order) fun expected => ?_
  dsimp only
  split
  · refine .bind (.checked _) fun name => ?_
    split
    · exact .throw_bind _
    · exact deeds_unify _ _
  · exact deeds_unify _ _

theorem deeds_isList (t : Term) : Deeds (Terms.isList t) := by
  refine .bind (deeds_listItems t).attempt fun r => ?_
  split
  · exact .pure _
  · exact .throw _
  · exact .pure _

theorem deeds_functor (t name arity : Term) : Deeds (Terms.functor t name arity) := by
  refine .bind (deeds_strip t) fun term => ?_
  dsimp only
  split
  · refine .bind (deeds_unify _ _) fun ok => ?_
    split
    · exact deeds_unify _ _
    · exact .pure _
  · refine .bind (deeds_strip name) fun n => .bind (deeds_strip arity) fun a => ?_
    split
    · exact .throw_bind _
    · refine .bind (.checked _) fun count => ?_
      split
      · exact .throw_bind _
      · split
        · exact .throw_bind _
        · split
          · exact deeds_unify _ _
          · exact .bind (.checked _) fun name => .bind (deeds_freshVars _) fun vars =>
              deeds_unify_term t name vars

theorem deeds_argument (n t a : Term) : Deeds (Terms.argument n t a) := by
  refine .bind (deeds_strip n) fun _ => .bind (.checked _) fun i => .bind (deeds_strip t)
    fun term => ?_
  dsimp only
  split
  · exact .throw_bind _
  · split
    · exact .throw_bind _
    · split
      · exact .throw_bind _
      · split
        · exact .pure _
        · split
          · exact deeds_unify _ _
          · exact .pure _

theorem deeds_univ (t l : Term) : Deeds (Terms.univ t l) := by
  refine .bind (deeds_strip t) fun term => ?_
  dsimp only
  split
  · exact deeds_unify_list l _
  · refine .bind (deeds_listItems l) fun items => ?_
    split
    · exact .throw _
    · refine .bind (deeds_strip _) fun head => ?_
      split
      · exact .throw_bind _
      · split
        · split
          · exact .throw_bind _
          · exact deeds_unify _ _
        · exact .bind (.checked _) fun name => deeds_unify_term t name _

theorem deeds_copyTerm (t copy : Term) : Deeds (Terms.copyTerm t copy) :=
  .bind (deeds_rebind t) fun _ => deeds_unify _ _

theorem deeds_termVariables (t vars : Term) : Deeds (Terms.termVariables t vars) :=
  .bind deeds_frames fun _ => deeds_unify_list vars _

-- ================================================== arithmetic and atoms

theorem deeds_evalWithin (steps : Nat) (t : Term) : Deeds (Arithmetic.evalWithin steps t) := by
  induction steps generalizing t with
  | zero => exact .throw _
  | succ steps ih =>
    unfold Arithmetic.evalWithin
    refine .bind (deeds_strip t) fun value => ?_
    split
    · exact .pure _
    · exact .throw _
    · exact .throw _
    · split
      · split
        · exact .store Database.evolves_random
        · exact .checked _
      · refine .bind (ih _) fun x => ?_
        split
        · exact .checked _
        · exact .throw _
      · refine .bind (ih _) fun x => .bind (ih _) fun y => ?_
        split
        · exact .checked _
        · exact .throw _
      · exact .throw _
      · exact .throw _

theorem deeds_eval (t : Term) : Deeds (Arithmetic.eval t) :=
  .bind deeds_steps fun _ => deeds_evalWithin _ t

theorem deeds_evaluate (result expression : Term) :
    Deeds (Arithmetic.evaluate result expression) :=
  .bind (deeds_eval expression) fun _ => deeds_unify _ _

theorem deeds_compareValues (x y : Term) : Deeds (Arithmetic.compareValues x y) :=
  .bind (deeds_eval x) fun _ => .bind (deeds_eval y) fun _ => .pure _

theorem deeds_random (result : Term) : Deeds (Arithmetic.random result) :=
  .bind (.store Database.evolves_random) fun _ => deeds_unify _ _

theorem deeds_optionalLength (t : Term) : Deeds (Atoms.optionalLength t) := by
  refine .bind (deeds_strip t) fun value => ?_
  dsimp only
  split
  · exact .pure _
  · refine .bind (.checked _) fun n => ?_
    split
    · exact .throw_bind _
    · exact .pure _

theorem deeds_atomText (t : Term) : Deeds (Atoms.atomText t) :=
  .bind (deeds_strip t) fun _ => .checked _

theorem deeds_atomLength (a n : Term) : Deeds (Atoms.atomLength a n) := by
  refine .bind (deeds_atomText a) fun text => .bind (deeds_optionalLength n) fun length => ?_
  split
  · exact .pure _
  · exact deeds_unify _ _

theorem deeds_atomConcat (x y whole : Term) : Deeds (Atoms.atomConcat x y whole) := by
  refine .bind (deeds_strip whole) fun known => ?_
  split
  · exact .bind (deeds_atomText x) fun _ => .bind (deeds_atomText y) fun _ =>
      .bind (deeds_unify _ _) fun _ => .pure _
  · exact .bind (.checked _) fun _ => .bind (deeds_term _ _) fun _ => deeds_enumerate _ _

theorem deeds_subAtom (a before length after sub : Term) :
    Deeds (Atoms.subAtom a before length after sub) := by
  have hgo : ∀ (text : String) (part : Term) (known : Option Nat), Deeds (do
      let target ← (Database.term "sub" [before, length, after, part] : Act Term)
      let _ ← pushChoice (.substrings text.toList.toArray 0 (known.getD 0) known target)
      return Code.fail) := fun _ _ _ =>
    .bind (deeds_term _ _) fun _ => .bind (deeds_pushChoice rfl) fun _ => .pure _
  refine .bind (deeds_atomText a) fun text => .bind (deeds_optionalLength before) fun _ =>
    .bind (deeds_optionalLength after) fun _ => .bind (deeds_optionalLength length) fun known =>
      .bind (deeds_strip sub) fun part => ?_
  dsimp only
  split
  · exact hgo text part known
  · exact .bind (.checked _) fun _ => hgo text part _

theorem deeds_charOf (t : Term) : Deeds (Atoms.charOf t) := by
  refine .bind (deeds_strip t) fun value => .bind (.checked _) fun name => ?_
  split
  · exact .pure _
  · exact .throw _

theorem deeds_charOfCode (t : Term) : Deeds (Atoms.charOfCode t) := by
  refine .bind (deeds_strip t) fun value => .bind (.checked _) fun code => ?_
  dsimp only
  split
  · exact .pure _
  · exact .throw _

theorem deeds_textList (item : Char → Term) {read : Term → Act Char} (hread : ∀ t, Deeds (read t))
    (a l : Term) : Deeds (Atoms.textList item read a l) := by
  refine .bind (deeds_strip a) fun known => ?_
  split
  · exact .bind (.checked _) fun _ => deeds_unify_list l _
  · exact .bind (deeds_listItems l) fun items => .bind (.mapM hread items) fun _ => deeds_unify _ _

theorem deeds_charCode (char code : Term) : Deeds (Atoms.charCode char code) := by
  refine .bind (deeds_strip char) fun known => ?_
  split
  · exact .bind (deeds_charOf known) fun _ => deeds_unify _ _
  · exact .bind (deeds_charOfCode code) fun _ => deeds_unify _ _

-- ================================================== the clause store

theorem deeds_assert (position : Position) (c : Term) : Deeds (Clauses.assert position c) := by
  refine .bind (deeds_strip c) fun t => ?_
  dsimp only
  split
  · exact .throw_bind _
  · exact .bind (deeds_detach t) fun copy =>
      .bind (.store (Database.evolves_addClause copy position)) fun _ => .pure _

theorem deeds_abolish (indicator : Term) : Deeds (Clauses.abolish indicator) :=
  .bind (deeds_strip indicator) fun _ => .bind (.checked _) fun p =>
    .bind (.store (Database.evolves_abolish p)) fun _ => .pure _

theorem deeds_headAndBody (t : Term) : Deeds (Clauses.headAndBody t) := by
  refine .bind (deeds_strip t) fun t => .bind (deeds_strip _) fun head => ?_
  dsimp only
  split
  · exact .throw_bind _
  · split
    · exact .throw_bind _
    · exact .pure _

theorem deeds_currentPredicate (indicator : Term) : Deeds (Clauses.currentPredicate indicator) := by
  have hgo : ∀ t : Term, Deeds (do
      enumerate ((Clauses.defined (← get).db).map Predicate.toTerm) t) := fun _ =>
    .bind deeds_get fun _ => deeds_enumerate _ _
  refine .bind (deeds_strip indicator) fun t => ?_
  dsimp only
  split
  · split
    · exact .throw_bind _
    · refine .bind (deeds_strip _) fun _ => .bind (deeds_strip _) fun _ => ?_
      split
      · exact .throw_bind _
      · exact hgo t
  · exact hgo t

-- ================================================== control

theorem deeds_raise (t : Term) : Deeds (Control.raise t) := by
  refine .bind (deeds_strip t) fun ball => ?_
  dsimp only
  split
  · exact .throw_bind _
  · exact .bind (deeds_detach ball) fun _ => .throw _

theorem deeds_keep (slot : Nat) (value : Term) : Deeds (Control.keep slot value) :=
  .modifyQuery fun _ => rfl

theorem deeds_guarded (goal catcher handler : Term) :
    Deeds (Control.guarded goal catcher handler) :=
  .bind (deeds_keep _ _) fun _ => .bind (deeds_keep _ _) fun _ =>
    .bind (deeds_pushChoice rfl) fun _ => .bind (deeds_keep _ _) fun _ => .pure _

theorem deeds_catchBall (ball : Term) : Deeds (Control.catchBall ball) := by
  refine .bind deeds_frames fun fs => .bind deeds_callee fun id => ?_
  split
  · refine .bind (deeds_unwindTo _) fun found => ?_
    split
    · exact .pure _
    · refine .bind deeds_frames fun fs => ?_
      split
      · refine .bind (deeds_rebind ball) fun ball => .bind (deeds_unify _ _) fun ok => ?_
        split <;> exact .pure _
      · exact .pure _
  · exact .pure _

theorem deeds_collect (template : Term) (collector : Nat) :
    Deeds (Control.collect template collector) :=
  .bind (deeds_detach template) fun _ => .modifyQuery fun _ => rfl

theorem deeds_deliver (collector : Nat) (target : Term) :
    Deeds (Control.deliver collector target) :=
  .bind (.modifyGet fun _ => .of_choices (.refl _) rfl) fun items =>
    .bind (.mapM deeds_rebind items) fun _ => .bind (deeds_list _) fun _ => deeds_unify _ _

theorem deeds_findall (template goal target : Term) :
    Deeds (Control.findall template goal target) :=
  .bind (.modifyGet fun _ => .of_choices (.refl _) rfl) fun _ =>
    .bind (deeds_pushChoice rfl) fun _ => .pure _

theorem deeds_upperEnd (t : Term) : Deeds (Control.upperEnd t) := by
  refine .bind (deeds_strip t) fun value => ?_
  split
  · exact .pure _
  · exact .pure _
  · exact .checked _

theorem deeds_between (low high x : Term) : Deeds (Control.between low high x) := by
  refine .bind (deeds_strip low) fun _ => .bind (.checked _) fun low =>
    .bind (deeds_upperEnd high) fun high => .bind (deeds_strip x) fun x => ?_
  split
  · exact .bind (.checked _) fun _ => .pure _
  · exact .bind (deeds_pushChoice rfl) fun _ => .pure _

theorem deeds_defer (t template goal : Term) : Deeds (Control.defer t template goal) := by
  refine .bind (deeds_detachAll _) fun copies => ?_
  split
  · exact .bind (deeds_term _ _) fun _ => .bind (deeds_term _ _) fun goal =>
      .bind (.store (Database.evolves_newThunk _)) fun _ => deeds_unify _ _
  · exact .pure _

-- ================================================== flags, output and probes

theorem deeds_atomOrVar (t : Term) : Deeds (Settings.atomOrVar t) := by
  refine .bind (deeds_strip t) fun value => ?_
  dsimp only
  split
  · exact .bind (.checked _) fun _ => .pure _
  · exact .pure _

theorem deeds_setFlag (name value : Term) : Deeds (Settings.setFlag name value) := by
  refine .bind (deeds_strip name) fun _ => .bind (.checked _) fun name =>
    .bind (deeds_strip value) fun value => ?_
  dsimp only
  split
  · exact .throw_bind _
  · split
    · exact .bind (deeds_term _ _) fun _ => .throw_bind _
    · exact .bind (deeds_detach value) fun copy =>
        .bind (.store (Database.evolves_setFlag name copy)) fun _ => .pure _

theorem deeds_currentFlag (name value : Term) : Deeds (Settings.currentFlag name value) :=
  .bind (deeds_atomOrVar name) fun _ => .bind deeds_get fun _ =>
    .bind (.mapM (fun _ => deeds_term _ _) _) fun _ => .bind (deeds_term _ _) fun _ =>
      deeds_enumerate _ _

theorem deeds_operatorNames (names : Term) : Deeds (Settings.operatorNames names) := by
  refine .bind (deeds_strip names) fun value => ?_
  split
  · exact .pure _
  · exact .pure _
  · exact deeds_listItems _

theorem deeds_defineAll (priority : Int64) (kind : OperatorType) (names : List Term) :
    Deeds (Settings.defineAll priority kind names) := by
  induction names with
  | nil => exact .pure _
  | cons name names ih =>
    exact .bind (deeds_strip name) fun _ => .bind (.checked _) fun name =>
      .bind (.store (Database.evolves_defineOperator priority kind name)) fun _ => ih

theorem deeds_defineOperator (priority kind names : Term) :
    Deeds (Settings.defineOperator priority kind names) :=
  .bind (deeds_strip priority) fun _ => .bind (.checked _) fun _ =>
    .bind (deeds_strip kind) fun _ => .bind (.checked _) fun _ => .bind (.checked _) fun _ =>
      .bind (deeds_operatorNames names) fun _ => .bind (deeds_defineAll _ _ _) fun _ => .pure _

theorem deeds_currentOperator (priority kind name : Term) :
    Deeds (Settings.currentOperator priority kind name) := by
  have hgo : Deeds (do
      let _ ← Settings.atomOrVar name
      let found := (← get).db.operators.definitions.map fun d =>
        Term.compound .plain "op" [.int d.priority, .atom d.kind.name, .atom d.name]
      enumerate found (← Database.term "op" [priority, kind, name])) :=
    .bind (deeds_atomOrVar name) fun _ => .bind deeds_get fun _ => .bind (deeds_term _ _) fun _ =>
      deeds_enumerate _ _
  have hkind : Deeds (do
      let k ← Settings.atomOrVar kind
      if !k.isVar then
        let k ← checked k.asAtom
        let _ ← checked (OperatorType.ofName k)
      let _ ← Settings.atomOrVar name
      let found := (← get).db.operators.definitions.map fun d =>
        Term.compound .plain "op" [.int d.priority, .atom d.kind.name, .atom d.name]
      enumerate found (← Database.term "op" [priority, kind, name])) := by
    refine .bind (deeds_atomOrVar kind) fun k => ?_
    dsimp only
    split
    · exact .bind (.checked _) fun _ => .bind (.checked _) fun _ => hgo
    · exact hgo
  refine .bind (deeds_strip priority) fun p => ?_
  dsimp only
  split
  · refine .bind (.checked _) fun value => ?_
    split
    · exact .throw_bind _
    · exact hkind
  · exact hkind

theorem deeds_write (quoted : Bool) (t : Term) : Deeds (Output.write quoted t) :=
  .bind deeds_lens fun _ => .bind (.store (Database.evolves_write _)) fun _ => .pure _

theorem deeds_newline : Deeds Output.newline :=
  .bind (.store (Database.evolves_write _)) fun _ => .pure _

theorem deeds_note (n : Note) : Deeds (Database.note n : Act Unit) :=
  .store (Database.evolves_note n)

theorem deeds_gauge : Deeds Probes.gauge :=
  .bind deeds_get fun _ => .bind (deeds_note _) fun _ => .pure _

theorem deeds_probe (label : Term) : Deeds (Probes.probe label) :=
  .bind deeds_lens fun _ => .bind deeds_get fun _ => .bind (deeds_note _) fun _ => .pure _

theorem deeds_fatal (reason : Term) : Deeds (Probes.fatal reason) :=
  .bind deeds_lens fun _ => .throw _

theorem deeds_freshVariables (n vars : Term) : Deeds (Probes.freshVariables n vars) :=
  .bind (deeds_strip n) fun _ => .bind (.checked _) fun _ => .bind (deeds_freshVars _) fun _ =>
    deeds_unify_list vars _

theorem deeds_each (x items : Term) : Deeds (Probes.each x items) :=
  .bind (deeds_listItems items) fun _ => .bind (deeds_pushChoice rfl) fun _ => .pure _

theorem deeds_later (x y : Term) : Deeds (Probes.later x y) :=
  .bind (deeds_pushChoice rfl) fun _ => .pure _

theorem deeds_sampleCode (name : Term) : Deeds (Probes.sampleCode name) :=
  .bind (deeds_strip name) fun _ => .bind (.checked _) fun _ => .pure _

theorem deeds_shieldBall (ball : Term) : Deeds (Probes.shieldBall ball) := by
  refine .bind deeds_get fun _ => .bind (deeds_note _) fun _ => ?_
  split <;> exact .pure _

-- ================================================== the library

theorem deeds_direct (builtin : Direct) (args : List Term) : Deeds (builtin.run args) := by
  unfold Direct.run
  split
  case h_1 | h_2 => exact .pure _
  case h_3 => exact deeds_raise _
  case h_4 => exact deeds_defer _ _ _
  case h_5 => exact deeds_unify _ _
  case h_6 => exact .bind (deeds_unifiable _ _) fun _ => .pure _
  case h_7 => exact .bind (deeds_compareTerms _ _) fun _ => .pure _
  case h_8 => exact deeds_compare _ _ _
  case h_9 => exact .bind (deeds_strip _) fun _ => .pure _
  case h_10 => exact deeds_isList _
  case h_11 => exact deeds_functor _ _ _
  case h_12 => exact deeds_argument _ _ _
  case h_13 => exact deeds_univ _ _
  case h_14 => exact deeds_copyTerm _ _
  case h_15 => exact deeds_termVariables _ _
  case h_16 => exact deeds_evaluate _ _
  case h_17 => exact .bind (deeds_compareValues _ _) fun _ => .pure _
  case h_18 => exact deeds_random _
  case h_19 => exact deeds_assert _ _
  case h_20 => exact deeds_abolish _
  case h_21 => exact deeds_atomLength _ _
  case h_22 => exact deeds_textList _ deeds_charOf _ _
  case h_23 => exact deeds_textList _ deeds_charOfCode _ _
  case h_24 => exact deeds_charCode _ _
  case h_25 => exact deeds_setFlag _ _
  case h_26 => exact deeds_defineOperator _ _ _
  case h_27 => exact deeds_write _ _
  case h_28 => exact deeds_newline
  case h_29 => exact deeds_gauge
  case h_30 => exact deeds_probe _
  case h_31 => exact deeds_fatal _
  case h_32 => exact deeds_freshVariables _ _
  case h_33 => exact .throw _

theorem deeds_framed {builtin : Framed} (h : builtin.looksUp = false) (args : List Term) :
    Deeds (builtin.run args) := by
  unfold Framed.run
  split
  · exact deeds_guarded _ _ _
  · exact deeds_findall _ _ _
  · exact deeds_between _ _ _
  · cases h
  · cases h
  · exact deeds_currentPredicate _
  · exact deeds_atomConcat _ _ _
  · exact deeds_subAtom _ _ _ _ _
  · exact deeds_currentFlag _ _
  · exact deeds_currentOperator _ _ _
  · exact .throw _
  · exact deeds_each _ _
  · exact deeds_later _ _
  · exact deeds_sampleCode _
  · exact .throw _

end Act

end LogicMachine
