/-
What goals ask for that go through clauses.

A goal looks at an argument by following references and forcing thunks, until a
term appears that is neither (`Act.strip`). That is what the argument stands for
(`Machine.StandsFor`), and it goes on to do so, since a thunk keeps its value.

In this way `clause/2` and `retract/1` find the head and the body that their
arguments ask for (`Machine.Asks`). Then they put on offer the rows that the
predicate of the head has at that moment, with head and body as the pattern, and
fail into them. There is no other way for them to end (`Clauses.Ends`): without a
point there are no rows, and a refusal has its reason in the arguments
(`Machine.Refuses`). This is said of the built-in, then of its call, and then of
the turn in which a query makes the call (`Machine.Invokes.looksUp`).
-/
import LogicMachine.Proofs.Retracting

namespace LogicMachine

theorem Act.checked_ok {α : Type} {r : Except Failure α} {env : Env} {m m' : Machine} {a : α}
    (h : checked r env m = .ok a m') : r = .ok a ∧ m' = m := by
  cases r with
  | ok b =>
    cases h
    exact ⟨rfl, rfl⟩
  | error e => cases h

-- ================================================== what arguments stand for

/-- Behind references and forced thunks there is this term. -/
inductive Machine.StandsFor (m : Machine) : Term → Term → Prop
  | plain {t u : Term} (h : m.query.frames.resolve t = u) (hu : ∀ id, u ≠ .thunk id) : StandsFor m t u
  | forced {t value u : Term} {id : Nat} (h : m.query.frames.resolve t = .thunk id)
      (hvalue : m.db.forced id = some value) (hs : StandsFor m value u) : StandsFor m t u

/-- Looking at the term fails: a thunk that it is behind does, or the steps do
not suffice. -/
structure Machine.Balks (env : Env) (m : Machine) (t : Term) (e : Failure) : Prop where
  thunk : ∃ id, m.query.frames.resolve t = .thunk id
  failed : ∃ db, db.Evolves m.db ∧ Act.strip t env ⟨db, m.query⟩ = .error e m

namespace Machine.StandsFor

variable {m m' : Machine} {t u v : Term}

theorem later (h : m.StandsFor t u) (hq : m'.query.frames = m.query.frames)
    (hdb : m.db.Evolves m'.db) : m'.StandsFor t u := by
  induction h with
  | plain h hu => exact .plain (hq ▸ h) hu
  | forced h hvalue _ ih => exact .forced (hq ▸ h) (hdb.forced _ _ hvalue) ih

theorem unique (h : m.StandsFor t u) (h' : m.StandsFor t v) : u = v := by
  induction h with
  | plain h hu =>
    cases h' with
    | plain h' _ => exact h.symm.trans h'
    | forced h' _ _ => exact absurd (h.symm.trans h') (hu _)
  | forced h hvalue _ ih =>
    cases h' with
    | plain h' hv => exact absurd (h'.symm.trans h) (hv _)
    | forced h' hvalue' hs' =>
      cases h.symm.trans h'
      cases hvalue.symm.trans hvalue'
      exact ih hs'

end Machine.StandsFor

namespace Act

variable {env : Env} {m m' : Machine} {t u : Term}

theorem Aside.refl (m : Machine) : Aside m m := ⟨rfl, .refl m.db⟩

theorem Aside.trans {m'' : Machine} (h : Aside m m') (h' : Aside m' m'') : Aside m m'' :=
  ⟨h'.query.trans h.query, h.db.trans h'.db⟩

theorem Aside.standsFor (h : Aside m m') (hs : m.StandsFor t u) : m'.StandsFor t u :=
  hs.later (congrArg Query.frames h.query) h.db

theorem stripWithin_thunk (steps : Nat) (id : Nat) (env : Env) (m : Machine) :
    stripWithin (steps + 1) (.thunk id) env m = match env.force id m with
      | .ok value m' => stripWithin steps (m'.query.frames.resolve value) env m'
      | .error e m' => .error e m' := by
  rw [stripWithin]
  show (liftM (env.force id) >>= fun value => resolve value >>= stripWithin steps : Act Term) env m = _
  have hforce : (liftM (env.force id) : Act Term) env m = env.force id m := rfl
  rw [bind_apply, hforce]
  cases env.force id m <;> rfl

theorem aside_force (henv : env.Steady) (id : Nat) (m : Machine) : Aside m (left (env.force id m)) :=
  ⟨henv.query id m, henv.db id m⟩

theorem aside_stripWithin (henv : env.Steady) (steps : Nat) (t : Term) (m : Machine) :
    Aside m (left (stripWithin steps t env m)) := by
  induction steps generalizing t m with
  | zero => exact .refl m
  | succ steps ih =>
    by_cases hthunk : ∃ id, t = .thunk id
    · obtain ⟨id, rfl⟩ := hthunk
      have hforced := aside_force henv id m
      rw [stripWithin_thunk]
      cases hr : env.force id m with
      | error e m₁ =>
        rw [hr] at hforced
        exact hforced
      | ok value m₁ =>
        rw [hr] at hforced
        exact hforced.trans (ih _ m₁)
    · rw [stripWithin]
      · exact .refl m
      · exact fun id hid => hthunk ⟨id, hid⟩

theorem stands_stripWithin (henv : env.Proper) {steps : Nat}
    (h : stripWithin steps (m.query.frames.resolve t) env m = .ok u m') : m'.StandsFor t u := by
  induction steps generalizing t m with
  | zero => cases h
  | succ steps ih =>
    by_cases hthunk : ∃ id, m.query.frames.resolve t = .thunk id
    · obtain ⟨id, hid⟩ := hthunk
      rw [hid, stripWithin_thunk] at h
      have hforced := aside_force henv.steady id m
      cases hforce : env.force id m with
      | error e m₁ =>
        rw [hforce] at h
        cases h
      | ok value m₁ =>
        rw [hforce] at h hforced
        obtain ⟨hvalue, -⟩ := henv.keeping id value m m₁ hforce
        have haside := aside_stripWithin henv.steady steps (m₁.query.frames.resolve value) m₁
        dsimp only at h
        rw [h] at haside
        have hquery : m'.query = m.query := haside.query.trans hforced.query
        exact .forced (hquery ▸ hid) (haside.db.forced _ _ hvalue) (ih h)
    · have hplain : stripWithin (steps + 1) (m.query.frames.resolve t) env m
          = .ok (m.query.frames.resolve t) m := by
        rw [stripWithin]
        · rfl
        · exact fun id hid => hthunk ⟨id, hid⟩
      cases hplain.symm.trans h
      exact .plain rfl fun id hid => hthunk ⟨id, hid⟩

/-- Looking at a term whose thunks are forced does nothing. -/
theorem stripWithin_settled (henv : env.Proper) {steps : Nat} {v : Term} (hs : m.StandsFor t v)
    (h : stripWithin steps (m.query.frames.resolve t) env m = .ok u m') : m' = m := by
  induction hs generalizing steps with
  | plain ht hv =>
    cases steps with
    | zero => cases h
    | succ steps =>
      rw [ht, stripWithin] at h
      · cases h
        rfl
      · exact hv
  | @forced t value v id hid hvalue _ ih =>
    cases steps with
    | zero => cases h
    | succ steps =>
      rw [hid, stripWithin_thunk] at h
      have hforced := aside_force henv.steady id m
      cases hforce : env.force id m with
      | error e m₁ =>
        rw [hforce] at h
        cases h
      | ok value' m₁ =>
        rw [hforce] at h hforced
        -- the value that it was forced to before is the one that forcing gives
        obtain ⟨hvalue', hagain⟩ := henv.keeping id value' m m₁ hforce
        obtain rfl : value = value' :=
          Option.some.inj ((hforced.db.forced _ _ hvalue).symm.trans hvalue')
        cases (hagain m hvalue).symm.trans hforce
        exact ih h

/-- How looking at a term ends. -/
inductive Looks (env : Env) (t : Term) (m : Machine) : EStateM.Result Failure Machine Term → Prop
  | found {u : Term} {m' : Machine} (h : Aside m m') (hu : m'.StandsFor t u)
      (hkept : ∀ v, m.StandsFor t v → m' = m) : Looks env t m (.ok u m')
  | failed {e : Failure} {m' : Machine} (h : Aside m m') (hb : m'.Balks env t e) :
    Looks env t m (.error e m')

theorem aside_strip (henv : env.Steady) (t : Term) (m : Machine) :
    Aside m (left (strip t env m)) :=
  aside_stripWithin henv env.steps (m.query.frames.resolve t) m

/-- What is found is what the term stands for. -/
theorem stands_strip (henv : env.Proper) (h : strip t env m = .ok u m') :
    Aside m m' ∧ m'.StandsFor t u := by
  have haside := aside_strip henv.steady t m
  rw [h] at haside
  exact ⟨haside, stands_stripWithin henv h⟩

theorem looks_strip (henv : env.Proper) (hsteps : 0 < env.steps) (t : Term) (m : Machine) :
    Looks env t m (strip t env m) := by
  cases hr : strip t env m with
  | ok u m' =>
    obtain ⟨haside, hstands⟩ := stands_strip henv hr
    exact .found haside hstands fun v hv => stripWithin_settled henv hv hr
  | error e m' =>
    have haside := aside_strip henv.steady t m
    rw [hr] at haside
    obtain ⟨db, q⟩ := m'
    obtain rfl : q = m.query := haside.query
    refine .failed haside ⟨?_, m.db, haside.db, hr⟩
    by_contra hthunk
    have hplain : strip t env m = .ok (m.query.frames.resolve t) m :=
      strip_apply_of_ne_thunk (fun id hid => hthunk ⟨id, hid⟩) hsteps
    cases hplain.symm.trans hr

end Act

-- ================================================== what is asked for

/-- The head and the body of a clause term; what is no rule is a fact. -/
def Term.clauseParts (t : Term) : Term × Term := (t.split ":-").getD (t, .atom "true")

/-- The clause term has this head, which can be called, and this body. -/
inductive Machine.Spells (m : Machine) (c head : Term) : Term → Prop
  | intro {t : Term} (ht : m.StandsFor c t) (hhead : m.StandsFor t.clauseParts.1 head)
      (hvar : head.isVar = false) (hcallable : head.isCallable = true) :
    Spells m c head t.clauseParts.2

/-- Why no head is found in a clause term. -/
inductive Machine.Misspells (env : Env) (m : Machine) (c : Term) : Failure → Prop
  | unread {e : Failure} (h : m.Balks env c e) : Misspells env m c e
  | headUnread {t : Term} {e : Failure} (ht : m.StandsFor c t)
      (h : m.Balks env t.clauseParts.1 e) : Misspells env m c e
  | unbound {t head : Term} (ht : m.StandsFor c t) (hhead : m.StandsFor t.clauseParts.1 head)
      (hvar : head.isVar = true) : Misspells env m c .instantiation
  | uncallable {t head : Term} (ht : m.StandsFor c t) (hhead : m.StandsFor t.clauseParts.1 head)
      (hvar : head.isVar = false) (hcallable : head.isCallable = false) :
    Misspells env m c (.type "callable" head)

/-- The arguments of a goal that goes through clauses ask for those that match
`head :- body`, to be removed if `remove` says so. -/
inductive Machine.Asks (m : Machine) : Framed → List Term → Term → Term → Bool → Prop
  | retract {c head body : Term} (h : m.Spells c head body) : Asks m .retract [c] head body true
  | clause {c t head body ignored : Term} (h : m.Spells c head ignored) (hbody : m.StandsFor t body)
      (hcallable : body.isVar = true ∨ body.isCallable = true) :
    Asks m .clause [c, t] head body false

/-- Why a goal that goes through clauses is refused. -/
inductive Machine.Refuses (env : Env) (m : Machine) : Framed → List Term → Failure → Prop
  | retractCount {args : List Term} (h : args.length ≠ 1) : Refuses env m .retract args wrongArguments
  | clauseCount {args : List Term} (h : args.length ≠ 2) : Refuses env m .clause args wrongArguments
  | retract {c : Term} {e : Failure} (h : m.Misspells env c e) : Refuses env m .retract [c] e
  | clause {c t : Term} {e : Failure} (h : m.Misspells env c e) : Refuses env m .clause [c, t] e
  | bodyUnread {c t head ignored : Term} {e : Failure} (h : m.Spells c head ignored)
      (hb : m.Balks env t e) : Refuses env m .clause [c, t] e
  | body {c t head body ignored : Term} (h : m.Spells c head ignored) (hbody : m.StandsFor t body)
      (hvar : body.isVar = false) (hcallable : body.isCallable = false) :
    Refuses env m .clause [c, t] (.type "callable" body)

section

variable {m m' : Machine} {c head body : Term} {builtin : Framed} {args : List Term} {remove : Bool}

theorem Machine.Spells.later (h : m.Spells c head body) (hq : m'.query.frames = m.query.frames)
    (hdb : m.db.Evolves m'.db) : m'.Spells c head body := by
  obtain ⟨ht, hhead, hvar, hcallable⟩ := h
  exact .intro (ht.later hq hdb) (hhead.later hq hdb) hvar hcallable

theorem Act.Aside.spells (h : Act.Aside m m') (hs : m.Spells c head body) : m'.Spells c head body :=
  hs.later (congrArg Query.frames h.query) h.db

theorem Machine.Asks.later (h : m.Asks builtin args head body remove)
    (hq : m'.query.frames = m.query.frames) (hdb : m.db.Evolves m'.db) :
    m'.Asks builtin args head body remove := by
  cases h with
  | retract h => exact .retract (h.later hq hdb)
  | clause h hbody hcallable => exact .clause (h.later hq hdb) (hbody.later hq hdb) hcallable

/-- What can be called has a predicate. -/
theorem Term.exists_predicate {t : Term} (h : t.isCallable = true) :
    ∃ p, Predicate.ofTerm t = .ok p := by
  cases t with
  | atom | compound | closure => exact ⟨_, rfl⟩
  | _ => cases h

theorem Machine.Asks.exists_predicate (h : m.Asks builtin args head body remove) :
    ∃ p, Predicate.ofTerm head = .ok p := by
  cases h with
  | retract h | clause h _ _ =>
    obtain ⟨-, -, -, hcallable⟩ := h
    exact head.exists_predicate hcallable

end

-- ================================================== how the built-ins end

/-- The number that the next choice point will have. -/
abbrev Query.nextPoint (q : Query) : Nat := q.choices.serial + 1

/-- The query with a choice point of a goal that is called where it is. -/
abbrev Query.leaving (q : Query) (a : Alternatives) : Query :=
  { q with choices := q.choices.push q.callee q.ancestry q.frames.size none a }

namespace Clauses

open Act

variable {env : Env} {m : Machine}

/-- How taking a clause term apart ends. -/
inductive Parses (env : Env) (c : Term) (m : Machine) :
    EStateM.Result Failure Machine (Term × Term) → Prop
  | found {head body : Term} {m' : Machine} (h : Aside m m') (hs : m'.Spells c head body)
      (hkept : ∀ head body, m.Spells c head body → m' = m) : Parses env c m (.ok (head, body) m')
  | refused {e : Failure} {m' : Machine} (h : Aside m m') (hm : m'.Misspells env c e) :
    Parses env c m (.error e m')

/-- The head is looked at after the clause term. -/
theorem headAndBody_eq (c : Term) : headAndBody c = (do
    let t ← strip c
    let head ← strip t.clauseParts.1
    if head.isVar then throw .instantiation
    if !head.isCallable then throw (.type "callable" head)
    return (head, t.clauseParts.2)) := rfl

theorem parses_headAndBody (henv : env.Proper) (hsteps : 0 < env.steps) (c : Term) (m : Machine) :
    Parses env c m (headAndBody c env m) := by
  rw [headAndBody_eq, bind_apply]
  have hclause := looks_strip henv hsteps c m
  revert hclause
  cases strip c env m with
  | error e m₁ =>
    rintro (_ | ⟨haside, hbalks⟩)
    exact .refused haside (.unread hbalks)
  | ok t m₁ =>
    rintro (⟨haside, ht, hkept⟩ | _)
    dsimp only
    rw [bind_apply]
    have hlooks := looks_strip henv hsteps t.clauseParts.1 m₁
    revert hlooks
    cases strip t.clauseParts.1 env m₁ with
    | error e m₂ =>
      rintro (_ | ⟨haside', hbalks⟩)
      exact .refused (haside.trans haside') (.headUnread (haside'.standsFor ht) hbalks)
    | ok head m₂ =>
      rintro (⟨haside', hhead, hkept'⟩ | _)
      have haside₂ := haside.trans haside'
      have ht₂ := haside'.standsFor ht
      dsimp only
      cases hvar : head.isVar with
      | true => exact .refused haside₂ (.unbound ht₂ hhead hvar)
      | false =>
        cases hcallable : head.isCallable with
        | false => exact .refused haside₂ (.uncallable ht₂ hhead hvar hcallable)
        | true =>
          refine .found haside₂ (.intro ht₂ hhead hvar hcallable) ?_
          -- where no thunk is left to be forced, neither look forces any
          rintro head' _ ⟨ht', hhead', -, -⟩
          obtain rfl := hkept _ ht'
          cases ht.unique ht'
          exact hkept' _ hhead'

/-- How a built-in ends that goes through clauses. -/
inductive Ends (env : Env) (builtin : Framed) (args : List Term) (m : Machine) :
    EStateM.Result Failure Machine Code → Prop
  /-- The rows that the predicate has are put on offer. -/
  | offers {m₁ : Machine} {head body : Term} {remove : Bool} {p : Predicate} (h : Aside m m₁)
      (hasks : m₁.Asks builtin args head body remove) (hp : Predicate.ofTerm head = .ok p)
      (hrows : m₁.db.rowsOf p ≠ #[])
      (hkept : ∀ head body remove, m.Asks builtin args head body remove → m₁ = m) :
    Ends env builtin args m (.ok .fail ⟨{ m₁.db with nextTerm := m₁.db.nextTerm + 1 },
      m₁.query.leaving (.matching p (m₁.db.rowsOf p) 0 (.build m₁.db.nextTerm ":-" [head, body])
        remove)⟩)
  /-- It has none. -/
  | lacks {m₁ : Machine} {head body : Term} {remove : Bool} {p : Predicate} (h : Aside m m₁)
      (hasks : m₁.Asks builtin args head body remove) (hp : Predicate.ofTerm head = .ok p)
      (hrows : m₁.db.rowsOf p = #[])
      (hkept : ∀ head body remove, m.Asks builtin args head body remove → m₁ = m) :
    Ends env builtin args m (.ok .fail m₁)
  | refuses {m₁ : Machine} {e : Failure} (h : Aside m m₁) (hr : m₁.Refuses env builtin args e) :
    Ends env builtin args m (.error e m₁)

theorem matching_apply {head : Term} {p : Predicate} (h : Predicate.ofTerm head = .ok p)
    (body : Term) (remove : Bool) (env : Env) (m : Machine) :
    matching head body remove env m = if (m.db.rowsOf p).isEmpty then .ok .fail m
      else .ok .fail ⟨{ m.db with nextTerm := m.db.nextTerm + 1 },
        m.query.leaving (.matching p (m.db.rowsOf p) 0 (.build m.db.nextTerm ":-" [head, body])
          remove)⟩ := by
  have hrun : matching head body remove env m = (if (m.db.rowsOf p).isEmpty then pure .fail else do
      let pattern ← Database.term ":-" [head, body]
      let _ ← pushChoice (.matching p (m.db.rowsOf p) 0 pattern remove)
      return .fail : Act Code) env m := by
    rw [matching, h]
    rfl
  rw [hrun]
  split <;> rfl

/-- Where the arguments have been found to ask for `head :- body`, its rows are
put on offer, if there are any. -/
theorem ends_matching {m₁ : Machine} {builtin : Framed} {args : List Term} {head body : Term}
    {remove : Bool} (h : Aside m m₁) (hasks : m₁.Asks builtin args head body remove)
    (hkept : ∀ head body remove, m.Asks builtin args head body remove → m₁ = m) :
    Ends env builtin args m (matching head body remove env m₁) := by
  obtain ⟨p, hp⟩ := hasks.exists_predicate
  rw [matching_apply hp]
  by_cases hrows : m₁.db.rowsOf p = #[]
  · rw [if_pos (by simp [hrows])]
    exact .lacks h hasks hp hrows hkept
  · rw [if_neg (by simpa using hrows)]
    exact .offers h hasks hp hrows hkept

theorem ends_retract (henv : env.Proper) (hsteps : 0 < env.steps) (c : Term) (m : Machine) :
    Ends env .retract [c] m (retract c env m) := by
  rw [retract, bind_apply]
  have hparses := parses_headAndBody henv hsteps c m
  revert hparses
  cases headAndBody c env m with
  | error e m₁ =>
    rintro (_ | ⟨haside, hmisspells⟩)
    exact .refuses haside (.retract hmisspells)
  | ok parts m₁ =>
    rintro (⟨haside, hspells, hkept⟩ | _)
    refine ends_matching haside (.retract hspells) ?_
    rintro _ _ _ ⟨hspells'⟩
    exact hkept _ _ hspells'

theorem ends_clause (henv : env.Proper) (hsteps : 0 < env.steps) (c t : Term) (m : Machine) :
    Ends env .clause [c, t] m (clause c t env m) := by
  rw [clause, bind_apply]
  have hparses := parses_headAndBody henv hsteps c m
  revert hparses
  cases headAndBody c env m with
  | error e m₁ =>
    rintro (_ | ⟨haside, hmisspells⟩)
    exact .refuses haside (.clause hmisspells)
  | ok parts m₁ =>
    rintro (⟨haside, hspells, hkept⟩ | _)
    dsimp only
    rw [bind_apply]
    have hlooks := looks_strip henv hsteps t m₁
    revert hlooks
    cases strip t env m₁ with
    | error e m₂ =>
      rintro (_ | ⟨haside', hbalks⟩)
      exact .refuses (haside.trans haside')
        (.bodyUnread (haside'.spells hspells) hbalks)
    | ok body m₂ =>
      rintro (⟨haside', hbody, hkept'⟩ | _)
      have haside₂ := haside.trans haside'
      have hspells₂ := haside'.spells hspells
      have hkept₂ : ∀ head body remove, m.Asks .clause [c, t] head body remove → m₂ = m := by
        rintro _ _ _ (_ | ⟨hspells', hbody', -⟩)
        obtain rfl := hkept _ _ hspells'
        exact hkept' _ hbody'
      dsimp only
      cases hvar : body.isVar with
      | true => exact ends_matching haside₂ (.clause hspells₂ hbody (.inl hvar)) hkept₂
      | false =>
        cases hcallable : body.isCallable with
        | true => exact ends_matching haside₂ (.clause hspells₂ hbody (.inr hcallable)) hkept₂
        | false => exact .refuses haside₂ (.body hspells₂ hbody hvar hcallable)

theorem ends_run (henv : env.Proper) (hsteps : 0 < env.steps) {builtin : Framed}
    (h : builtin.looksUp = true) (args : List Term) (m : Machine) :
    Ends env builtin args m (builtin.run args env m) := by
  cases builtin with
  | retract =>
    match args with
    | [c] => exact ends_retract henv hsteps c m
    | [] | _ :: _ :: _ => exact .refuses (.refl m) (.retractCount (by simp))
  | clause =>
    match args with
    | [c, t] => exact ends_clause henv hsteps c t m
    | [] | [_] | _ :: _ :: _ :: _ => exact .refuses (.refl m) (.clauseCount (by simp))
  | _ => cases h

end Clauses

-- ================================================== how the call ends

/-- The query in the frame of a built-in that it calls. -/
def Query.inside (q : Query) (builtin : Framed) (args : List Term) (caller : FrameId) (next : Code)
    (revision : Nat) : Query :=
  (q.calling next revision).entered ⟨.framed builtin, args, revision + 1, caller,
    (q.frames.returnsTo q.callee next).2⟩ builtin.locals none

/-- The call of the built-in on `m₀` has found what its arguments ask for, in its
own frame and in the database of `m'`. Where there was nothing left to be found,
no row has joined or left a table meanwhile. -/
structure Machine.Wants (m₀ : Machine) (builtin : Framed) (args : List Term) (caller : FrameId)
    (next : Code) (revision : Nat) (m' : Machine) (head body : Term) (remove : Bool)
    (p : Predicate) : Prop where
  frames : m'.query.frames = (m₀.query.inside builtin args caller next revision).frames
  asks : m'.Asks builtin (args.map (.bindTo (m'.query.frames.owner caller))) head body remove
  predicate : Predicate.ofTerm head = .ok p
  evolves : m₀.db.Evolves m'.db
  kept : ∀ head body remove, Machine.Asks ⟨m₀.db, m'.query⟩ builtin
    (args.map (.bindTo (m'.query.frames.owner caller))) head body remove →
      ∀ p, m'.db.rowsOf p = m₀.db.rowsOf p

/-- What a turn leads to in which a built-in is called on `m₀` that goes through
clauses. -/
inductive Machine.LooksUp (env : Env) (m₀ : Machine) (builtin : Framed) (args : List Term)
    (caller : FrameId) (next : Code) (revision : Nat) : Phase × Machine → Prop
  /-- The rows of the predicate are on offer at a new point, and the query goes
  back to it next. -/
  | offers {m' : Machine} {head body : Term} {remove : Bool} {p : Predicate} {point : ChoicePoint}
      {below : List ChoicePoint} {serial : Nat} {goal : Alternatives}
      (hgoal : goal = .matching p (m'.db.rowsOf p) 0 (.build serial ":-" [head, body]) remove)
      (h : m₀.Wants builtin args caller next revision m' head body remove p)
      (hrows : m'.db.rowsOf p ≠ #[]) (hpoints : m'.query.choices.points = point :: below)
      (hid : point.id = m₀.query.nextPoint) (ha : point.alternatives = some goal)
      (hnext : m'.query.next = .fail) (hback : m'.query.retreat.1 = some ⟨point.id, goal⟩) :
    LooksUp env m₀ builtin args caller next revision (.running, m')
  /-- The predicate has no rows, and the goal fails. -/
  | lacks {m' : Machine} {head body : Term} {remove : Bool} {p : Predicate}
      (h : m₀.Wants builtin args caller next revision m' head body remove p)
      (hrows : m'.db.rowsOf p = #[])
      (hserial : m'.query.choices.serial = m₀.query.choices.serial) (hnext : m'.query.next = .fail) :
    LooksUp env m₀ builtin args caller next revision (.running, m')
  /-- The arguments ask for nothing. -/
  | refuses {m₁ : Machine} {e : Failure} {y : Phase × Machine}
      (h : callProcedure (.framed builtin) args caller next revision env m₀ = .error e m₁)
      (hr : m₁.Refuses env builtin (args.map (.bindTo (m₁.query.frames.owner caller))) e)
      (hphase : y.1 ≠ .running) : LooksUp env m₀ builtin args caller next revision y

section

variable {env : Env} {builtin : Framed} {args : List Term} {caller : FrameId} {next : Code}
  {revision : Nat}

theorem Act.callProcedure_framed (h : builtin.looksUp = true) (args : List Term) (caller : FrameId)
    (next : Code) (revision : Nat) (env : Env) (db : Database) (q : Query) :
    callProcedure (.framed builtin) args caller next revision env ⟨db, q⟩ = builtin.run
      (args.map (.bindTo ((q.inside builtin args caller next revision).frames.owner caller))) env
      ⟨db, q.inside builtin args caller next revision⟩ := by
  rw [callProcedure_apply]
  cases builtin with
  | retract | clause => rfl
  | _ => cases h

theorem Clauses.ends_call (henv : env.Proper) (hsteps : 0 < env.steps)
    (h : builtin.looksUp = true) (args : List Term) (caller : FrameId) (next : Code)
    (revision : Nat) (db : Database) (q : Query) :
    Ends env builtin
      (args.map (.bindTo ((q.inside builtin args caller next revision).frames.owner caller)))
      ⟨db, q.inside builtin args caller next revision⟩
      (callProcedure (.framed builtin) args caller next revision env ⟨db, q⟩) := by
  rw [Act.callProcedure_framed h]
  exact ends_run henv hsteps h _ _

-- ================================================== how the turn ends

namespace Query.PutsBack

variable {q q' : Query} {n : Nat}

theorem frames (h : q.PutsBack n q') : q'.frames = q.frames := by
  cases h with
  | nothing => rfl
  | rows => rfl

theorem serial (h : q.PutsBack n q') : q'.choices.serial = q.choices.serial := by
  cases h with
  | nothing => rfl
  | rows => exact serial_settle ..

/-- A newer point stays on top as it is. -/
theorem points (h : q.PutsBack n q') {p : ChoicePoint} {below : List ChoicePoint}
    (hpoints : q.choices.points = p :: below) (hp : n < p.id) :
    ∃ below', q'.choices.points = p :: below' := by
  cases h with
  | nothing => exact ⟨below, hpoints⟩
  | rows id rest hid =>
    have hne : p.id ≠ id := (hid.trans_lt hp).ne'
    have hrestored : (q.choices.restore id rest).points = p :: ChoiceStack.restore.go id rest below := by
      rw [ChoiceStack.restore, hpoints]
      simp only [ChoiceStack.restore.go, if_neg hne]
    refine ⟨ChoiceStack.restore.go id rest below, ?_⟩
    unfold Query.settle
    dsimp only
    split
    · exact hrestored
    · rw [ChoiceStack.dropTop]
      simp only [hrestored, if_neg hne]

end Query.PutsBack

/-- A query goes back to its topmost point if something is left there. -/
theorem Query.retreat_top {q : Query} {p : ChoicePoint} {below : List ChoicePoint}
    {a : Alternatives} (hpoints : q.choices.points = p :: below) (ha : p.alternatives = some a)
    (ha' : a.hasNext = true) : q.retreat.1 = some ⟨p.id, a⟩ := by
  rw [Query.retreat, hpoints]
  simp only [Query.retreat.go, ha, ha', if_true]

/-- What the built-in has found in its frame is found when the turn is over. -/
theorem Clauses.wants_of_asks {m₀ m₁ m' : Machine} {head body : Term} {remove : Bool} {p : Predicate}
    (haside : Act.Aside ⟨m₀.db, m₀.query.inside builtin args caller next revision⟩ m₁)
    (hasks : m₁.Asks builtin (args.map (.bindTo
      ((m₀.query.inside builtin args caller next revision).frames.owner caller))) head body remove)
    (hp : Predicate.ofTerm head = .ok p)
    (hkept : ∀ head body remove,
      Machine.Asks ⟨m₀.db, m₀.query.inside builtin args caller next revision⟩ builtin
        (args.map (.bindTo
          ((m₀.query.inside builtin args caller next revision).frames.owner caller)))
        head body remove → m₁ = ⟨m₀.db, m₀.query.inside builtin args caller next revision⟩)
    (hframes : m'.query.frames = m₁.query.frames) (hdb : m₁.db.Evolves m'.db)
    (hrows : ∀ p, m'.db.rowsOf p = m₁.db.rowsOf p) :
    m₀.Wants builtin args caller next revision m' head body remove p := by
  have hinside : m'.query.frames = (m₀.query.inside builtin args caller next revision).frames := by
    rw [hframes, haside.query]
  refine ⟨hinside, hinside ▸ hasks.later hframes hdb, hp, haside.db.trans hdb, ?_⟩
  intro head' body' remove' hbefore p'
  have hsettled : Machine.Asks ⟨m₀.db, m₀.query.inside builtin args caller next revision⟩ builtin
      _ head' body' remove' := hbefore.later hinside.symm (.refl _)
  rw [hrows, hkept head' body' remove' (hinside ▸ hsettled)]

/-- A turn in which `clause/2` or `retract/1` is called puts on offer what the
arguments ask for, unless there are no rows or the arguments ask for nothing. -/
theorem Machine.Invokes.looksUp {m m₀ : Machine} {y : Phase × Machine}
    (h : m.Invokes (.framed builtin) args caller next revision m₀) (henv : env.Proper)
    (hsteps : 0 < env.steps) (ho : m.query.choices.Ordered) (hlooks : builtin.looksUp = true)
    (hturn : Act.Advance env (.running, m) y) :
    m₀.LooksUp env builtin args caller next revision y := by
  have hstep := h.step_ends ho hsteps
  have hends := Clauses.ends_call henv hsteps hlooks args caller next revision m₀.db m₀.query
  have hturn : Act.advance .running env m = .ok y.1 y.2 := hturn
  obtain ⟨phase, m'⟩ := y
  rw [Act.advance_running] at hturn
  generalize hcall : callProcedure (.framed builtin) args caller next revision env m₀ = r
    at hstep hends
  cases hends with
  | @offers m₁ head body remove p haside hasks hp hrows hkept =>
    obtain ⟨q, hback, hstep⟩ := hstep
    rw [hstep] at hturn
    cases hturn
    have hserial : m₁.query.choices.serial = m₀.query.choices.serial :=
      congrArg (·.choices.serial) haside.query
    obtain ⟨below, hpoints⟩ := hback.points rfl (hserial ▸ Nat.lt_succ_self _)
    have hmore : (Alternatives.matching p (m₁.db.rowsOf p) 0
        (.build m₁.db.nextTerm ":-" [head, body]) remove).hasNext = true := by
      simpa [Alternatives.hasNext, Array.size_pos_iff] using hrows
    exact .offers rfl (Clauses.wants_of_asks haside hasks hp hkept hback.frames
      (.of_eq rfl rfl le_rfl rfl) fun _ => rfl) hrows hpoints (congrArg (· + 1) hserial) rfl rfl
      (Query.retreat_top hpoints rfl hmore)
  | @lacks m₁ head body remove p haside hasks hp hrows hkept =>
    obtain ⟨q, hback, hstep⟩ := hstep
    rw [hstep] at hturn
    cases hturn
    exact .lacks (Clauses.wants_of_asks haside hasks hp hkept hback.frames (.refl _) fun _ => rfl)
      hrows (hback.serial.trans (congrArg (·.choices.serial) haside.query)) rfl
  | @refuses m₁ e haside hr =>
    obtain ⟨q, hback, hstep⟩ := hstep
    have hinside : m₁.query.frames = (m₀.query.inside builtin args caller next revision).frames :=
      congrArg Query.frames haside.query
    refine .refuses hcall (hinside ▸ hr) ?_
    rw [hstep] at hturn
    cases e with
    | thrown raw => cases hturn; simp
    | _ => cases hturn; simp

end

end LogicMachine
