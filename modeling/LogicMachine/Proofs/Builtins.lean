/-
What the built-ins do to a query.

A built-in that runs on behalf of its caller reads its arguments, perhaps
makes terms and slots, and unifies: it touches the query and leaves no
choice point. One that has a frame of its own works on the query as well,
and answers code that can run in that frame. Either way the query stays
sound and so does the database.
-/
import LogicMachine.Library
import LogicMachine.Proofs.Unifying

namespace LogicMachine

-- ================================================== what checks complain of

/-- If the computation fails, then in a way that fits. -/
def Tame {α : Type} (r : Except Failure α) : Prop := ∀ e, r = .error e → e.Fits true

namespace Tame

variable {α β : Type}

theorem ok (a : α) : Tame (.ok a) := fun _ he => (nomatch he)

theorem error {e : Failure} (h : e.Fits true) : Tame (.error e : Except Failure α) := by
  rintro _ ⟨⟩
  exact h

theorem bind {r : Except Failure α} {next : α → Except Failure β} (h : Tame r)
    (hn : ∀ a, Tame (next a)) : Tame (r >>= next) := by
  cases r with
  | ok a => exact hn a
  | error e => exact .error (h e rfl)

end Tame

section

variable {w : World} {vars : Nat → Prop} {t : Term}

theorem tame_asAtom (h : t.Fits w vars) : Tame t.asAtom := by
  unfold Term.asAtom
  split
  · exact .error fits_instantiation
  · exact .error fits_instantiation
  · exact .ok _
  · exact .error (fits_type h)

theorem tame_asInt (h : t.Fits w vars) : Tame t.asInt := by
  unfold Term.asInt
  split
  · exact .error fits_instantiation
  · exact .error fits_instantiation
  · exact .ok _
  · exact .error (fits_type h)

theorem tame_asCallable (h : t.Fits w vars) : Tame t.asCallable := by
  unfold Term.asCallable
  split
  · exact .error fits_instantiation
  · exact .error fits_instantiation
  · exact .ok _
  · exact .ok _
  · exact .ok _
  · exact .error (fits_type h)

theorem tame_ofTerm (h : t.Fits w vars) : Tame (Predicate.ofTerm t) :=
  (tame_asCallable h).bind fun _ => .ok _

theorem tame_ofIndicator (h : t.Fits w vars) : Tame (Predicate.ofIndicator t) := by
  unfold Predicate.ofIndicator
  split
  · exact .error (fits_type h)
  · rename_i hs
    obtain ⟨hn, ha⟩ := h.split hs
    refine (tame_asAtom hn).bind fun _ => (tame_asInt ha).bind fun arity => ?_
    split
    · exact .error (fits_domain (Term.fits_int : Term.Fits w vars _))
    · exact .ok _

theorem tame_ofName (name : String) : Tame (OperatorType.ofName name) := by
  unfold OperatorType.ofName
  split
  · exact .ok _
  · exact .error (fits_domain (t := .atom name) (Term.fits_atom : Term.Fits .none anyVars _))

end

-- ================================================== arithmetic

namespace Arithmetic

theorem tame_fit (i : Int) : Tame (fit i) := by
  unfold fit
  split
  · exact .ok _
  · exact .error fits_atomBall

theorem tame_integer (x : Number) : Tame (integer x) := by
  cases x with
  | int i => exact .ok _
  | float b => exact .error (fits_type (Term.fits_number : Term.Fits .none anyVars _))

theorem tame_finite (x : Float) : Tame (finite x) := by
  unfold finite
  split
  · exact .error fits_atomBall
  · split
    · exact .error fits_atomBall
    · exact .ok _

theorem tame_toInteger (x : Float) : Tame (toInteger x) := by
  unfold toInteger
  split
  · exact .ok _
  · exact .error fits_atomBall

theorem tame_mixed (ints : Int → Int → Int) (floats : Float → Float → Float) (x y : Number) :
    Tame (mixed ints floats x y) := by
  unfold mixed
  split
  · exact tame_fit _
  · exact tame_finite _

theorem tame_divide (x y : Number) : Tame (divide x y) := by
  unfold divide
  split
  · exact .error fits_atomBall
  · split
    · exact tame_fit _
    · exact tame_finite _
  · split
    · exact .error fits_atomBall
    · exact tame_finite _
  · exact tame_finite _

theorem tame_dividing (op : Int → Int → Int) (x y : Number) : Tame (dividing op x y) := by
  refine (tame_integer x).bind fun a => (tame_integer y).bind fun b => ?_
  split
  · exact .error fits_atomBall
  · exact (tame_fit _).bind fun _ => tame_fit _

theorem tame_shift (left : Bool) (x y : Number) : Tame (shift left x y) := by
  refine (tame_integer x).bind fun a => (tame_integer y).bind fun n => ?_
  dsimp only
  split
  · exact tame_fit _
  · exact tame_fit _

theorem tame_bitwise (op : Int64 → Int64 → Int64) (x y : Number) : Tame (bitwise op x y) :=
  (tame_integer x).bind fun _ => (tame_integer y).bind fun _ => .ok _

theorem tame_integerPower (b e : Int64) : Tame (integerPower b e) := by
  unfold integerPower
  split
  · split
    · exact .ok _
    · exact .error (fits_type (Term.fits_int : Term.Fits .none anyVars _))
  · split
    · exact .error fits_atomBall
    · split
      · exact tame_fit _
      · split
        · exact .error fits_atomBall
        · exact tame_fit _

theorem tame_power (x y : Number) : Tame (power x y) := by
  unfold power
  split
  · exact tame_integerPower _ _
  · exact tame_finite _

theorem tame_binary {name : String} {op : Number → Number → Except Failure Number}
    (h : binary? name = some op) (x y : Number) : Tame (op x y) := by
  unfold binary? at h
  split at h <;> cases h
  case h_4 => exact tame_divide x y
  case h_8 | h_9 => exact .ok _
  case h_15 => exact tame_finite _
  case h_16 => exact tame_power x y
  all_goals first
    | exact tame_mixed _ _ x y
    | exact tame_dividing _ x y
    | exact tame_shift _ x y
    | exact tame_bitwise _ x y

theorem tame_rounded (round : Float → Float) (x : Number) : Tame (rounded round x) := by
  cases x with
  | int i => exact .ok _
  | float b => exact tame_toInteger _

theorem tame_function (excluded : Float → Bool) (f : Float → Float) (x : Number) :
    Tame (function excluded f x) := by
  unfold function
  split
  · exact .error fits_atomBall
  · exact tame_finite _

theorem tame_unary {name : String} {op : Number → Except Failure Number}
    (h : unary? name = some op) (x : Number) : Tame (op x) := by
  unfold unary? at h
  split at h <;> cases h
  case h_1 | h_3 =>
    cases x with
    | int i => exact tame_fit _
    | float b => exact .ok _
  case h_4 => cases x <;> exact .ok _
  case h_11 => exact (tame_integer x).bind fun _ => .ok _
  all_goals first
    | exact .ok _
    | exact tame_rounded _ x
    | exact tame_function _ _ x

theorem fits_notEvaluable {tame : Bool} (name : String) (arity : Nat) :
    (notEvaluable name arity).Fits tame :=
  fits_type (Term.fits_compound.2 ⟨fun _ => rfl, by simp⟩ : Term.Fits .none anyVars _)

end Arithmetic

-- ================================================== the variables of a term

namespace Frames

section

variable {strict : Bool} {fs : Frames} {hop : Term → List Term → List Term} {seen : List Term}

/-- The variables seen can be read. -/
abbrev AllLive (strict : Bool) (fs : Frames) (ts : List Term) : Prop :=
  ∀ t ∈ ts, t.Live (fs.world strict)

theorem sight_live {t : Term}
    (hh : ∀ t seen, t.Live (fs.world strict) → AllLive strict fs seen →
      AllLive strict fs (hop t seen))
    (ht : t.Live (fs.world strict)) (hs : AllLive strict fs seen) :
    AllLive strict fs (sight hop t seen) := by
  have hadd : AllLive strict fs (if seen.any t.same then seen else seen ++ [t]) := by
    split
    · exact hs
    · intro v hv
      rcases List.mem_append.1 hv with hv | hv
      · exact hs v hv
      · exact List.mem_singleton.1 hv ▸ ht
  unfold sight
  split
  · exact hs
  · exact hadd
  · exact hadd
  · exact hh _ _ ht hs

mutual

theorem collect_live (h : fs.Sound strict)
    (hh : ∀ t seen, t.Live (fs.world strict) → AllLive strict fs seen →
      AllLive strict fs (hop t seen)) :
    (t : Term) → {frame : Option FrameId} → {seen : List Term} →
      Body.Sources (fs.world strict) (fs.world strict).raw t frame → AllLive strict fs seen →
      AllLive strict fs (fs.collect hop frame t seen)
  | .var v, _, _, ht, hs => by
    rw [collect]
    exact sight_live hh (h.resolve_live ht.bindIn) hs
  | .ref cell name, _, _, ht, hs => by
    rw [collect]
    refine sight_live hh (h.resolve_live (t := .ref cell name) ?_) hs
    cases ht with
    | bare ht => exact ht
    | framed _ ht => exact Term.fits_ref.2 (Term.fits_ref.1 ht)
  | .compound _ _ args, _, _, ht, hs => by
    rw [collect]
    exact collectAll_live h hh args ht.args hs
  | .closure _ _ args _, _, _, ht, hs => by
    rw [collect]
    exact collectAll_live h hh args ht.closure hs
  | .atom _, _, _, _, hs | .number _, _, _, _, hs | .host _, _, _, _, hs
  | .thunk _, _, _, _, hs => by
    rw [collect.eq_def]
    exact hs

theorem collectAll_live (h : fs.Sound strict)
    (hh : ∀ t seen, t.Live (fs.world strict) → AllLive strict fs seen →
      AllLive strict fs (hop t seen)) :
    (ts : List Term) → {frame : Option FrameId} → {seen : List Term} →
      (∀ t ∈ ts, Body.Sources (fs.world strict) (fs.world strict).raw t frame) →
      AllLive strict fs seen → AllLive strict fs (fs.collectAll hop frame ts seen)
  | [], _, _, _, hs => by
    rw [collectAll]
    exact hs
  | t :: ts, _, _, ht, hs => by
    rw [collectAll]
    exact collectAll_live h hh ts (fun t' ht' => ht t' (List.mem_cons_of_mem _ ht'))
      (collect_live h hh t (ht t List.mem_cons_self) hs)

end

/-- The unbound variables of a term can be read where the term can. -/
theorem Sound.freeVars_live (h : fs.Sound strict) {t : Term} (ht : t.Live (fs.world strict)) :
    AllLive strict fs (fs.freeVars t) := by
  have hwithin : ∀ (cells : Nat) (t : Term) (seen : List Term), t.Live (fs.world strict) →
      AllLive strict fs seen → AllLive strict fs (fs.freeVarsWithin cells t seen) := by
    intro cells
    induction cells with
    | zero => exact fun _ _ _ hs => hs
    | succ cells ih => exact fun t _ ht hs => collect_live h ih t (.bare ht) hs
  exact hwithin _ _ _ ht fun _ hv => absurd hv List.not_mem_nil

end

end Frames

-- ================================================== acts that look at arguments

namespace Act

section

variable {μ : Rigor} {q : Query} {t : Term}

theorem Reads.tame {α : Type} {r : Except Failure α} (h : Tame r) :
    Reads μ q (Act.checked r) fun a => r = .ok a :=
  .checked (fun _ ha => ha) fun e he => (h e he).weaken

theorem reads_atomText (hq : q.Sound μ.strict) (ht : t.Live (q.frames.world μ.strict)) :
    Reads μ q (Atoms.atomText t) fun _ => True :=
  (reads_strip hq ht).bind fun _ hr => (Reads.tame (tame_asAtom hr)).mono fun _ _ => trivial

theorem reads_evalWithin (hq : q.Sound μ.strict) (steps : Nat)
    (ht : t.Live (q.frames.world μ.strict)) :
    Reads μ q (Arithmetic.evalWithin steps t) fun _ => True := by
  induction steps generalizing t with
  | zero => exact .throw fits_unfinished
  | succ steps ih =>
    unfold Arithmetic.evalWithin
    refine (reads_strip hq ht).bind fun r hr => ?_
    have hargs := hr.args
    split
    · exact .pure trivial
    · exact .throw fits_instantiation
    · exact .throw fits_instantiation
    · split
      · rename_i name _ _ _
        split
        · exact .store Database.keeps_random
        · cases Arithmetic.constant? name with
          | none => exact .throw (Arithmetic.fits_notEvaluable name 0)
          | some n => exact .pure trivial
      · rename_i x _ hxs
        rw [hxs] at hargs
        refine (ih (hargs x (by simp))).bind fun v _ => ?_
        split
        · rename_i hop
          exact (Reads.tame (Arithmetic.tame_unary hop v)).mono fun _ _ => trivial
        · exact .throw (Arithmetic.fits_notEvaluable _ 1)
      · rename_i x y _ hxs
        rw [hxs] at hargs
        refine (ih (hargs x (by simp))).bind fun v _ =>
          (ih (hargs y (by simp))).bind fun u _ => ?_
        split
        · rename_i hop
          exact (Reads.tame (Arithmetic.tame_binary hop v u)).mono fun _ _ => trivial
        · exact .throw (Arithmetic.fits_notEvaluable _ 2)
      · exact .throw (Arithmetic.fits_notEvaluable _ _)
      · exact .throw (fits_type hr)

theorem reads_eval (hq : q.Sound μ.strict) (ht : t.Live (q.frames.world μ.strict)) :
    Reads μ q (Arithmetic.eval t) fun _ => True :=
  (reads_steps q).bind fun _ _ => reads_evalWithin hq _ ht

theorem reads_compareValues {u : Term} (hq : q.Sound μ.strict)
    (ht : t.Live (q.frames.world μ.strict)) (hu : u.Live (q.frames.world μ.strict)) :
    Reads μ q (Arithmetic.compareValues t u) fun _ => True :=
  (reads_eval hq ht).bind fun _ _ => (reads_eval hq hu).bind fun _ _ => .pure trivial

theorem reads_optionalLength (hq : q.Sound μ.strict) (ht : t.Live (q.frames.world μ.strict)) :
    Reads μ q (Atoms.optionalLength t) fun _ => True := by
  refine (reads_strip hq ht).bind fun r hr => ?_
  split
  · exact .pure trivial
  · refine (Reads.tame (tame_asInt hr)).bind fun n _ => ?_
    split
    · exact .throw (fits_domain hr)
    · exact .pure trivial

theorem reads_charOf (hq : q.Sound μ.strict) (ht : t.Live (q.frames.world μ.strict)) :
    Reads μ q (Atoms.charOf t) fun _ => True := by
  refine (reads_strip hq ht).bind fun r hr => (Reads.tame (tame_asAtom hr)).bind fun n _ => ?_
  split
  · exact .pure trivial
  · exact .throw (fits_type hr)

theorem reads_charOfCode (hq : q.Sound μ.strict) (ht : t.Live (q.frames.world μ.strict)) :
    Reads μ q (Atoms.charOfCode t) fun _ => True := by
  refine (reads_strip hq ht).bind fun r hr => (Reads.tame (tame_asInt hr)).bind fun n _ => ?_
  dsimp only
  split
  · exact .pure trivial
  · exact .throw fits_atomBall

theorem reads_upperEnd (hq : q.Sound μ.strict) (ht : t.Live (q.frames.world μ.strict)) :
    Reads μ q (Control.upperEnd t) fun _ => True := by
  refine (reads_strip hq ht).bind fun r hr => ?_
  split
  · exact .pure trivial
  · exact .pure trivial
  · exact (Reads.tame (tame_asInt hr)).mono fun _ _ => trivial

theorem reads_atomOrVar (hq : q.Sound μ.strict) (ht : t.Live (q.frames.world μ.strict)) :
    Reads μ q (Settings.atomOrVar t) (·.Live (q.frames.world μ.strict)) := by
  refine (reads_strip hq ht).bind fun r hr => ?_
  split
  · exact (Reads.tame (tame_asAtom hr)).bind fun _ _ => .pure hr
  · exact .pure hr

theorem reads_operatorNames (hq : q.Sound μ.strict) (ht : t.Live (q.frames.world μ.strict)) :
    Reads μ q (Settings.operatorNames t) fun is => ∀ i ∈ is, i.Live (q.frames.world μ.strict) := by
  refine (reads_strip hq ht).bind fun r hr => ?_
  split
  · exact .pure fun _ hi => absurd hi List.not_mem_nil
  · exact .pure fun i hi => List.mem_singleton.1 hi ▸ Term.fits_atom
  · exact reads_listItems hq hr

theorem reads_defineAll (hq : q.Sound μ.strict) (priority : Int64) (kind : OperatorType)
    {names : List Term} (h : ∀ n ∈ names, n.Live (q.frames.world μ.strict)) :
    Reads μ q (Settings.defineAll priority kind names) fun _ => True := by
  induction names with
  | nil => exact .pure trivial
  | cons n names ih =>
    refine (reads_strip hq (h n List.mem_cons_self)).bind fun r hr =>
      (Reads.tame (tame_asAtom hr)).bind fun name _ => ?_
    exact (Reads.store (Database.keeps_defineOperator priority kind name)).bind fun _ _ =>
      ih fun m hm => h m (List.mem_cons_of_mem _ hm)

theorem reads_headAndBody (hq : q.Sound μ.strict) (ht : t.Live (q.frames.world μ.strict)) :
    Reads μ q (Clauses.headAndBody t)
      fun r => r.1.Live (q.frames.world μ.strict) ∧ r.2.Live (q.frames.world μ.strict) := by
  refine (reads_strip hq ht).bind fun r hr => ?_
  have hparts : ((r.split ":-").getD (r, .atom "true")).1.Live (q.frames.world μ.strict)
      ∧ ((r.split ":-").getD (r, .atom "true")).2.Live (q.frames.world μ.strict) := by
    cases hs : r.split ":-" with
    | none => exact ⟨hr, Term.fits_atom⟩
    | some p => exact hr.split (l := p.1) (r := p.2) hs
  refine (reads_strip hq hparts.1).bind fun h hh => ?_
  dsimp only
  split
  · exact .throw_bind fits_instantiation
  · split
    · exact .throw_bind (fits_type hh)
    · exact .pure ⟨hh, hparts.2⟩

theorem reads_raise (hq : q.Sound μ.strict) (ht : t.Live (q.frames.world μ.strict)) :
    Reads μ q (Control.raise t) fun _ => True := by
  refine (reads_strip hq ht).bind fun r hr => ?_
  dsimp only
  split
  · exact .throw_bind fits_instantiation
  · refine (reads_detach hq hr.wellMade).bind fun ball hball => .throw ?_
    exact hball.wellMade

theorem reads_isList (hq : q.Sound μ.strict) (ht : t.Live (q.frames.world μ.strict)) :
    Reads μ q (Terms.isList t) fun _ => True := by
  refine (reads_listItems hq ht).attempt.bind fun r _ => ?_
  split
  · exact .pure trivial
  · exact .throw fits_unfinished
  · exact .pure trivial

theorem reads_assert (hq : q.Sound μ.strict) (position : Position)
    (ht : t.Live (q.frames.world μ.strict)) :
    Reads μ q (Clauses.assert position t) fun _ => True := by
  refine (reads_strip hq ht).bind fun r hr => ?_
  dsimp only
  split
  · exact .throw_bind fits_instantiation
  · exact (reads_detach hq hr.wellMade).bind fun copy hcopy =>
      (Reads.store (Database.keeps_addClause hcopy position)).bind fun _ _ => .pure trivial

theorem reads_abolish (hq : q.Sound μ.strict) (ht : t.Live (q.frames.world μ.strict)) :
    Reads μ q (Clauses.abolish t) fun _ => True :=
  (reads_strip hq ht).bind fun _ hr => (Reads.tame (tame_ofIndicator hr)).bind fun p _ =>
    (Reads.store (Database.keeps_abolish p)).bind fun _ _ => .pure trivial

theorem reads_setFlag (hq : q.Sound μ.strict) (ht : t.Live (q.frames.world μ.strict))
    (hu : u.Live (q.frames.world μ.strict)) :
    Reads μ q (Settings.setFlag t u) fun _ => True := by
  refine (reads_strip hq ht).bind fun n hn => (Reads.tame (tame_asAtom hn)).bind fun name _ =>
    (reads_strip hq hu).bind fun value hv => ?_
  dsimp only
  split
  · exact .throw_bind fits_instantiation
  · split
    · have hpair : ∀ a ∈ [.atom name, value], Term.Live (q.frames.world μ.strict) a :=
        List.forall_mem_cons.2 ⟨Term.fits_atom, List.forall_mem_singleton.2 hv⟩
      exact (reads_term hpair).bind fun pair hp => .throw_bind (fits_domain hp)
    · exact (reads_detach hq hv.wellMade).bind fun copy hcopy =>
        (Reads.store (Database.keeps_setFlag hcopy)).bind fun _ _ => .pure trivial

theorem reads_defineOperator (hq : q.Sound μ.strict) (ht : t.Live (q.frames.world μ.strict))
    (hu : u.Live (q.frames.world μ.strict)) (hv : v.Live (q.frames.world μ.strict)) :
    Reads μ q (Settings.defineOperator t u v) fun _ => True :=
  (reads_strip hq ht).bind fun _ hp => (Reads.tame (tame_asInt hp)).bind fun priority _ =>
    (reads_strip hq hu).bind fun _ hk => (Reads.tame (tame_asAtom hk)).bind fun kind _ =>
      (Reads.tame (tame_ofName kind)).bind fun _ _ => (reads_operatorNames hq hv).bind
        fun _ hnames => (reads_defineAll hq priority _ hnames).bind fun _ _ => .pure trivial

end

-- ================================================== built-ins that leave no choice point

section

variable {μ : Rigor} {q : Query} {t u v : Term}

/-- A term is unified with what has been worked out. -/
theorem tries_unify_list (hq : q.Sound μ.strict) (ht : t.Live (q.frames.world μ.strict))
    {items : List Term} (hi : ∀ i ∈ items, i.Live (q.frames.world μ.strict)) :
    Tries μ q (do unify t (← list items)) fun _ _ => True :=
  .read hq (reads_list hi) fun _ hl => tries_unify hq ht hl

theorem tries_defer (hq : q.Sound μ.strict) (ht : t.Live (q.frames.world μ.strict))
    (hu : u.Live (q.frames.world μ.strict)) (hv : v.Live (q.frames.world μ.strict)) :
    Tries μ q (Control.defer t u v) fun _ _ => True := by
  have hboth : ∀ x ∈ [u, v], x.Fits .all anyVars :=
    List.forall_mem_cons.2 ⟨hu.wellMade, List.forall_mem_singleton.2 hv.wellMade⟩
  refine .read hq (reads_detachAll hq hboth) fun copies hcopies => ?_
  split
  · rename_i template goal
    have htemplate := hcopies template (by simp)
    have hgoal := hcopies goal (by simp)
    have hresult : ∀ a ∈ [.var (.named Control.resultName), template], a.Fits .none anyVars :=
      List.forall_mem_cons.2 ⟨Term.fits_var.2 (.inr ⟨by decide, trivial⟩),
        List.forall_mem_singleton.2 htemplate⟩
    refine .read hq (reads_term hresult) fun result hr => ?_
    have hboth : ∀ a ∈ [goal, result], a.Fits .none anyVars :=
      List.forall_mem_cons.2 ⟨hgoal, List.forall_mem_singleton.2 hr⟩
    exact .read hq (reads_term hboth) fun goal hg =>
      .read hq (.store (Database.keeps_newThunk hg)) fun thunk hthunk =>
        tries_unify hq ht (live_of_detached hthunk)
  · exact .pure hq trivial

theorem tries_compare (hq : q.Sound μ.strict) (ht : t.Live (q.frames.world μ.strict))
    (hu : u.Live (q.frames.world μ.strict)) (hv : v.Live (q.frames.world μ.strict)) :
    Tries μ q (Terms.compare t u v) fun _ _ => True := by
  refine .read hq (reads_compareTerms hq hu hv) fun o _ =>
    .read hq (reads_strip hq ht) fun expected he => ?_
  dsimp only
  split
  · refine .read hq (Reads.tame (tame_asAtom he)) fun name _ => ?_
    split
    · exact .throw_bind hq (fits_domain he)
    · exact tries_unify hq ht Term.fits_atom
  · exact tries_unify hq ht Term.fits_atom

theorem tries_functor (hq : q.Sound μ.strict) (ht : t.Live (q.frames.world μ.strict))
    (hu : u.Live (q.frames.world μ.strict)) (hv : v.Live (q.frames.world μ.strict)) :
    Tries μ q (Terms.functor t u v) fun _ _ => True := by
  refine .read hq (reads_strip hq ht) fun r hr => ?_
  dsimp only
  split
  · refine .bind (tries_unify hq hu ?name) fun ok q' htouch _ => ?_
    case name =>
      split
      · exact Term.fits_atom
      · exact hr
    split
    · exact tries_unify htouch.sound (htouch.live hv) Term.fits_ofNat
    · exact .pure htouch.sound trivial
  · refine .read hq (reads_strip hq hu) fun n hn => .read hq (reads_strip hq hv) fun a ha => ?_
    split
    · exact .throw_bind hq fits_instantiation
    · refine .read hq (Reads.tame (tame_asInt ha)) fun count _ => ?_
      split
      · exact .throw_bind hq (fits_domain ha)
      · split
        · exact .throw_bind hq (fits_type hn)
        · split
          · exact tries_unify hq ht hn
          · refine .read hq (Reads.tame (tame_asAtom hn)) fun name _ =>
              .bind (tries_freshVars hq _) fun vars q' htouch hvars => ?_
            exact .read htouch.sound (reads_term hvars) fun c hc =>
              tries_unify htouch.sound (htouch.live ht) hc

theorem tries_argument (hq : q.Sound μ.strict) (ht : t.Live (q.frames.world μ.strict))
    (hu : u.Live (q.frames.world μ.strict)) (hv : v.Live (q.frames.world μ.strict)) :
    Tries μ q (Terms.argument t u v) fun _ _ => True := by
  refine .read hq (reads_strip hq ht) fun n hn => .read hq (Reads.tame (tame_asInt hn))
    fun i _ => .read hq (reads_strip hq hu) fun r hr => ?_
  dsimp only
  split
  · exact .throw_bind hq fits_instantiation
  · split
    · exact .throw_bind hq (fits_type hr)
    · split
      · exact .throw_bind hq (fits_domain (Term.fits_int : Term.Fits .none anyVars _))
      · split
        · exact .pure hq trivial
        · split
          · rename_i harg
            exact tries_unify hq hv (hr.arg? harg)
          · exact .pure hq trivial

theorem tries_univ (hq : q.Sound μ.strict) (ht : t.Live (q.frames.world μ.strict))
    (hu : u.Live (q.frames.world μ.strict)) : Tries μ q (Terms.univ t u) fun _ _ => True := by
  refine .read hq (reads_strip hq ht) fun r hr => ?_
  dsimp only
  split
  · refine tries_unify_list hq hu fun i hi => ?_
    split at hi
    · rcases List.mem_cons.1 hi with rfl | hi
      · exact Term.fits_atom
      · exact hr.args i hi
    · exact List.mem_singleton.1 hi ▸ hr
  · refine .read hq (reads_listItems hq hu) fun items hitems => ?_
    split
    · exact .throw hq (fits_domain (Term.fits_atom : Term.Fits .none anyVars _))
    · rename_i head rest
      refine .read hq (reads_strip hq (hitems head List.mem_cons_self)) fun h hh => ?_
      split
      · exact .throw_bind hq fits_instantiation
      · split
        · split
          · exact .throw_bind hq (fits_type hh)
          · exact tries_unify hq ht hh
        · exact .read hq (Reads.tame (tame_asAtom hh)) fun name _ =>
            .read hq (reads_term fun a ha => hitems a (List.mem_cons_of_mem _ ha)) fun c hc =>
              tries_unify hq ht hc

theorem tries_copyTerm (hq : q.Sound μ.strict) (ht : t.Live (q.frames.world μ.strict))
    (hu : u.Live (q.frames.world μ.strict)) : Tries μ q (Terms.copyTerm t u) fun _ _ => True :=
  .bind (tries_rebind hq ht.wellMade) fun _ _ htouch hcopy =>
    tries_unify htouch.sound (htouch.live hu) hcopy

theorem tries_termVariables (hq : q.Sound μ.strict) (ht : t.Live (q.frames.world μ.strict))
    (hu : u.Live (q.frames.world μ.strict)) :
    Tries μ q (Terms.termVariables t u) fun _ _ => True :=
  .read hq (reads_frames q) fun _ hfs =>
    tries_unify_list hq hu (hfs ▸ hq.arena.freeVars_live ht)

theorem tries_textList (hq : q.Sound μ.strict) {item : Char → Term} {read : Term → Act Char}
    (hitem : ∀ c, (item c).Live (q.frames.world μ.strict))
    (hread : ∀ {t : Term}, t.Live (q.frames.world μ.strict) → Reads μ q (read t) fun _ => True)
    (ht : t.Live (q.frames.world μ.strict)) (hu : u.Live (q.frames.world μ.strict)) :
    Tries μ q (Atoms.textList item read t u) fun _ _ => True := by
  refine .read hq (reads_strip hq ht) fun known hk => ?_
  split
  · refine .read hq (Reads.tame (tame_asAtom hk)) fun text _ => tries_unify_list hq hu fun i hi => ?_
    obtain ⟨c, -, rfl⟩ := List.mem_map.1 hi
    exact hitem c
  · exact .read hq (reads_listItems hq hu) fun items hitems =>
      .read hq (Reads.mapM fun i hi => hread (hitems i hi)) fun _ _ =>
        tries_unify hq hk Term.fits_atom

theorem tries_atomLength (hq : q.Sound μ.strict) (ht : t.Live (q.frames.world μ.strict))
    (hu : u.Live (q.frames.world μ.strict)) : Tries μ q (Atoms.atomLength t u) fun _ _ => True := by
  refine .read hq (reads_atomText hq ht) fun text _ =>
    .read hq (reads_optionalLength hq hu) fun length _ => ?_
  split
  · exact .pure hq trivial
  · exact tries_unify hq hu Term.fits_ofNat

theorem tries_charCode (hq : q.Sound μ.strict) (ht : t.Live (q.frames.world μ.strict))
    (hu : u.Live (q.frames.world μ.strict)) : Tries μ q (Atoms.charCode t u) fun _ _ => True := by
  refine .read hq (reads_strip hq ht) fun known hk => ?_
  split
  · exact .read hq (reads_charOf hq hk) fun _ _ => tries_unify hq hu Term.fits_ofNat
  · exact .read hq (reads_charOfCode hq hu) fun _ _ => tries_unify hq ht Term.fits_atom

theorem tries_freshVariables (hq : q.Sound μ.strict) (ht : t.Live (q.frames.world μ.strict))
    (hu : u.Live (q.frames.world μ.strict)) :
    Tries μ q (Probes.freshVariables t u) fun _ _ => True :=
  .read hq (reads_strip hq ht) fun _ hn => .read hq (Reads.tame (tame_asInt hn)) fun _ _ =>
    .bind (tries_freshVars hq _) fun _ _ htouch hvars =>
      tries_unify_list htouch.sound (htouch.live hu) hvars

theorem reads_note (n : Note) : Reads μ q (Database.note n : Act Unit) fun _ => True :=
  .store (Database.keeps_note n)

theorem reads_gauge (q : Query) : Reads μ q Probes.gauge fun _ => True :=
  .get_bind fun _ _ => (reads_note _).bind fun _ _ => .pure trivial

theorem reads_probe (q : Query) (t : Term) : Reads μ q (Probes.probe t) fun _ => True :=
  (reads_lens q).bind fun _ _ => .get_bind fun _ _ => (reads_note _).bind fun _ _ => .pure trivial

theorem reads_write (q : Query) (quoted : Bool) (t : Term) :
    Reads μ q (Output.write quoted t) fun _ => True :=
  (reads_lens q).bind fun _ _ => (Reads.store (Database.keeps_write _)).bind fun _ _ =>
    .pure trivial

/-- A built-in that runs on behalf of its caller touches the query. -/
theorem tries_direct (hq : q.Sound μ.strict) {builtin : Direct} (hb : builtin ≠ .fatal)
    {args : List Term} (hargs : ∀ a ∈ args, a.Live (q.frames.world μ.strict)) :
    Tries μ q (builtin.run args) fun _ _ => True := by
  have looking : ∀ {act : Act Bool}, (Reads μ q act fun _ => True) →
      Tries μ q act fun _ _ => True := fun h => .of_reads hq h fun _ _ => trivial
  unfold Direct.run
  split <;> try simp only [List.forall_mem_cons] at hargs
  case h_1 | h_2 => exact .pure hq trivial
  case h_3 => exact looking (reads_raise hq hargs.1)
  case h_4 => exact tries_defer hq hargs.1 hargs.2.1 hargs.2.2.1
  case h_5 => exact tries_unify hq hargs.1 hargs.2.1
  case h_6 => exact looking ((reads_unifiable hq hargs.1 hargs.2.1).bind fun _ _ => .pure trivial)
  case h_7 => exact looking ((reads_compareTerms hq hargs.1 hargs.2.1).bind fun _ _ => .pure trivial)
  case h_8 => exact tries_compare hq hargs.1 hargs.2.1 hargs.2.2.1
  case h_9 => exact looking ((reads_strip hq hargs.1).bind fun _ _ => .pure trivial)
  case h_10 => exact looking (reads_isList hq hargs.1)
  case h_11 => exact tries_functor hq hargs.1 hargs.2.1 hargs.2.2.1
  case h_12 => exact tries_argument hq hargs.1 hargs.2.1 hargs.2.2.1
  case h_13 => exact tries_univ hq hargs.1 hargs.2.1
  case h_14 => exact tries_copyTerm hq hargs.1 hargs.2.1
  case h_15 => exact tries_termVariables hq hargs.1 hargs.2.1
  case h_16 =>
    exact .read hq (reads_eval hq hargs.2.1) fun _ _ => tries_unify hq hargs.1 Term.fits_number
  case h_17 =>
    exact looking ((reads_compareValues hq hargs.1 hargs.2.1).bind fun _ _ => .pure trivial)
  case h_18 =>
    exact .read hq (.store Database.keeps_random) fun _ _ => tries_unify hq hargs.1 Term.fits_number
  case h_19 => exact looking (reads_assert hq _ hargs.1)
  case h_20 => exact looking (reads_abolish hq hargs.1)
  case h_21 => exact tries_atomLength hq hargs.1 hargs.2.1
  case h_22 =>
    exact tries_textList hq (fun _ => Term.fits_atom) (reads_charOf hq) hargs.1 hargs.2.1
  case h_23 =>
    exact tries_textList hq (fun _ => Term.fits_ofNat) (reads_charOfCode hq) hargs.1 hargs.2.1
  case h_24 => exact tries_charCode hq hargs.1 hargs.2.1
  case h_25 => exact looking (reads_setFlag hq hargs.1 hargs.2.1)
  case h_26 => exact looking (reads_defineOperator hq hargs.1 hargs.2.1 hargs.2.2.1)
  case h_27 => exact looking (reads_write q _ _)
  case h_28 => exact looking ((Reads.store (Database.keeps_write _)).bind fun _ _ => .pure trivial)
  case h_29 => exact looking (reads_gauge q)
  case h_30 => exact looking (reads_probe q _)
  case h_31 => exact absurd rfl hb
  case h_32 => exact tries_freshVariables hq hargs.1 hargs.2.1
  case h_33 => exact .throw hq (fits_fatal (by decide))

end

end Act

end LogicMachine
