/-
Clauses on offer.

Going through the clauses of a predicate, a row at a time, is a test, a
removal if one is asked for, and the unification that counts
(`Trial.Meets`). In between others may have their way: a row may have left
its table since it was put on offer, and the test may force thunks, each of
which runs a query of its own. That the second unification does what the
first has promised rests on thunks being forced once and kept
(`Env.Keeping`): replayed on a database that has only evolved since, it
finds every value that the test had to wait for (`Act.unify_of_unifiable`).
So a row that has been removed is always a solution. That it is the row that
was put on offer rests on its number, which no other row has ever had.
-/
import LogicMachine.Proofs.Turns

namespace LogicMachine

-- ================================================== thunks that were forced

/-- What forcing a thunk has given is kept, and forcing it again gives that
and does nothing else. -/
def Env.Keeping (env : Env) : Prop :=
  ∀ (id : Nat) (t : Term) (m m' : Machine), env.force id m = .ok t m' → m'.db.forced id = some t
    ∧ ∀ m'' : Machine, m''.db.forced id = some t → env.force id m'' = .ok t m''

namespace Act

theorem forceThunk_of_forced {env : Env} {id : Nat} {t : Term} {m : Machine}
    (h : m.db.forced id = some t) : forceThunk env id m = .ok t m := by
  rw [forceThunk_eq]
  unfold Database.forced at h
  split at h
  · rename_i thunk hthunk
    rw [hthunk]
    dsimp only
    rw [h]
  · cases h

theorem forced_of_forceThunk {env : Env} (henv : env.Steady) {id : Nat} {t : Term} {m m' : Machine}
    (h : forceThunk env id m = .ok t m') : m'.db.forced id = some t := by
  rw [forceThunk_eq] at h
  cases hthunk : m.db.thunks[id]? with
  | none =>
    rw [hthunk] at h
    cases h
  | some thunk =>
    rw [hthunk] at h
    dsimp only at h
    cases hvalue : thunk.value with
    | some value =>
      rw [hvalue] at h
      cases h
      unfold Database.forced
      rw [hthunk]
      exact hvalue
    | none =>
      rw [hvalue] at h
      dsimp only at h
      have hproduced := (aside_produce henv thunk.producer m).db
      cases hr : produce env thunk.producer m with
      | error e m₁ =>
        rw [hr] at h
        cases h
      | ok value m₁ =>
        rw [hr] at h hproduced
        have hid := (Array.getElem?_eq_some_iff.1 hthunk).1.trans_le hproduced.thunks
        dsimp only at h
        rw [store_apply] at h
        cases hs : Database.settleThunk id value m₁.db with
        | error e db =>
          rw [hs] at h
          cases h
        | ok kept db =>
          rw [hs] at h
          cases h
          exact Database.forced_settleThunk hid hs

end Act

/-- What the environments of a run have in common. -/
structure Env.Proper (env : Env) : Prop where
  sound : env.Sound false
  steady : env.Steady
  keeping : env.Keeping

theorem Env.proper_nested (steps thunks : Nat) : (Env.nested steps thunks).Proper := by
  refine ⟨Env.sound_nested steps thunks, Env.steady_nested steps thunks, ?_⟩
  intro id t m m' h
  cases thunks with
  | zero => exact nomatch (h : EStateM.Result.error Failure.unfinished m = .ok t m')
  | succ thunks =>
    exact ⟨Act.forced_of_forceThunk (Env.steady_nested steps thunks) h,
      fun _ h => Act.forceThunk_of_forced h⟩

-- ================================================== unifying again

namespace Act

variable {env : Env}

/-- A tentative binding has nothing to do with the database. -/
theorem bindTentatively_ok {cell : Cell} {name : String} {value : Term} {m m' : Machine}
    (h : bindTentatively cell name value env m = .ok ⟨⟩ m') :
    m'.db = m.db ∧ ∀ db : Database,
      bindTentatively cell name value env ⟨db, m.query⟩ = .ok ⟨⟩ ⟨db, m'.query⟩ := by
  rw [bindTentatively_eq] at h
  split at h
  · cases h
  · rename_i hsome
    cases h
    refine ⟨rfl, fun db => ?_⟩
    rw [bindTentatively_eq, if_neg hsome]

/-- A thunk that was forced on the way to a solution has its value by then, so
that forcing it again on a later database gives that and does nothing else. -/
theorem force_replay (henv : env.Proper) {thunk steps : Nat} {equations : List Equation} {t : Term}
    {b : Bool} {m m₁ m' : Machine} (hforce : env.force thunk m = .ok t m₁)
    (hsolve : solveWithin steps equations env m₁ = .ok b m') {db : Database}
    (hdb : m'.db.Evolves db) : env.force thunk ⟨db, m.query⟩ = .ok t ⟨db, m₁.query⟩ := by
  obtain ⟨hkept, hagain⟩ := henv.keeping thunk t m m₁ hforce
  have hquery := henv.steady.query thunk m
  have hevolved := ((deeds_solveWithin steps equations).ends env m₁ henv.steady).db
  rw [hforce] at hquery
  rw [hsolve] at hevolved
  rw [show m₁.query = m.query from hquery]
  exact hagain _ (hdb.forced _ _ (hevolved.forced _ _ hkept))

/-- Equations that were solved are solved in the same way on any database
that has evolved since: no thunk needs to run. -/
theorem solveWithin_replay (henv : env.Proper) {steps : Nat} {equations : List Equation} {b : Bool}
    {m m' : Machine} (h : solveWithin steps equations env m = .ok b m') {db : Database}
    (hdb : m'.db.Evolves db) :
    solveWithin steps equations env ⟨db, m.query⟩ = .ok b ⟨db, m'.query⟩ := by
  induction steps generalizing equations m with
  | zero => cases h
  | succ steps ih =>
    cases equations with
    | nil =>
      cases h
      rfl
    | cons e rest =>
      rw [solveWithin_cons] at h ⊢
      dsimp only
      cases hverdict : e.decide m.query.frames with
      | solved =>
        rw [hverdict] at h
        exact ih h
      | clash =>
        rw [hverdict] at h
        cases h
        rfl
      | split equations =>
        rw [hverdict] at h
        exact ih h
      | bind cell name value =>
        rw [hverdict] at h
        dsimp only at h ⊢
        cases hbind : bindTentatively cell name value env m with
        | error e m₁ =>
          rw [hbind] at h
          cases h
        | ok u m₁ =>
          rw [hbind] at h
          rw [(bindTentatively_ok hbind).2 db]
          exact ih h
      | forceLeft thunk right =>
        rw [hverdict] at h
        dsimp only at h ⊢
        cases hforce : env.force thunk m with
        | error e m₁ =>
          rw [hforce] at h
          cases h
        | ok left m₁ =>
          rw [hforce] at h
          rw [force_replay henv hforce h hdb]
          exact ih h
      | forceRight left thunk =>
        rw [hverdict] at h
        dsimp only at h ⊢
        cases hforce : env.force thunk m with
        | error e m₁ =>
          rw [hforce] at h
          cases h
        | ok right m₁ =>
          rw [hforce] at h
          rw [force_replay henv hforce h hdb]
          exact ih h

theorem solve_apply (equations : List Equation) (env : Env) (m : Machine) :
    solve equations env m = match solveWithin env.steps equations env m with
      | .ok true m' => .ok true m'
      | .ok false m' => .ok false (left (rollback env m'))
      | .error e m' => .error e (left (rollback env m')) := by
  rw [solve, bind_apply, steps_apply]
  dsimp only
  rw [bind_apply, attempt_apply]
  cases solveWithin env.steps equations env m with
  | error e m' => rfl
  | ok b m' => cases b <;> rfl

/-- Terms that have been found to unify do unify, on any database that has
evolved since, and nothing happens to it. -/
theorem unify_of_unifiable (henv : env.Proper) {x y : Term} {m m' : Machine}
    (h : unifiable x y env m = .ok true m') {db : Database} (hdb : m'.db.Evolves db) :
    ∃ q, unify x y env ⟨db, m.query⟩ = .ok true ⟨db, q⟩ := by
  rw [unifiable, bind_apply, solve_apply] at h
  cases hsolve : solveWithin env.steps [⟨x, none, y, none⟩] env m with
  | error e m₁ =>
    rw [hsolve] at h
    cases h
  | ok b m₁ =>
    rw [hsolve] at h
    cases b with
    | false => cases h
    | true =>
      cases h
      refine ⟨(left (commit env ⟨db, m₁.query⟩)).query, ?_⟩
      rw [unify, bind_apply, solve_apply, solveWithin_replay henv hsolve hdb]
      rfl

end Act

-- ================================================== how a row fares

/-- Without new slots the arena is as it was. -/
theorem Frames.expand_zero (fs : Frames) (id : FrameId) : (fs.expand id 0).1 = fs := by
  have hsame : fs.frames.modify (fs.owner id)
      (fun f => { f with slots := f.slots ++ Array.replicate 0 {} }) = fs.frames := by
    apply Array.ext_getElem?
    intro i
    rw [Array.getElem?_modify]
    split
    · simp
    · rfl
  unfold Frames.expand
  dsimp only
  rw [hsame]
  rfl

/-- Renaming a term apart makes slots in one frame. -/
theorem Frames.exists_rebind (fs : Frames) (t : Term) (id : FrameId) (serial : Nat) :
    ∃ count, (fs.rebind t id serial).2.2 = (fs.expand (fs.owner id) count).1 := by
  unfold Frames.rebind
  exact ⟨_, rfl⟩

namespace Trial

/-- The clause of a row with variables of its own in the running frame. -/
def renamed (c : Clause) : Act Term := do Act.rebind (← Database.term ":-" [c.head, c.body])

/-- How the renamed clause of a row and a pattern meet. Whatever becomes of
them, the test leaves the query as it was. -/
inductive Meets (env : Env) (p : Predicate) (pattern : Term) (remove : Bool) (row : Row)
    (stored : Term) (m : Machine) : EStateM.Result Failure Machine (Option Code) → Prop
  /-- They do not unify. -/
  | apart {db : Database} (h : Act.unifiable pattern stored env m = .ok false ⟨db, m.query⟩) :
    Meets env p pattern remove row stored m (.ok none ⟨db, m.query⟩)
  /-- They unify, but the row has left the table. -/
  | gone {db : Database} (hr : remove = true)
      (h : Act.unifiable pattern stored env m = .ok true ⟨db, m.query⟩) (hrow : row ∉ db.rowsOf p) :
    Meets env p pattern remove row stored m (.ok none ⟨db, m.query⟩)
  /-- They unify, and the row and nothing else leaves the table. -/
  | removed {db db' : Database} {q : Query} (hr : remove = true)
      (h : Act.unifiable pattern stored env m = .ok true ⟨db, m.query⟩)
      (hdb : Database.Removes p row db db')
      (hu : Act.unify pattern stored env ⟨db', m.query⟩ = .ok true ⟨db', q⟩) :
    Meets env p pattern remove row stored m (.ok (some .succeed) ⟨db', q⟩)
  /-- They unify, and nothing is to be removed. -/
  | shown {db : Database} {q : Query} (hr : remove = false)
      (h : Act.unifiable pattern stored env m = .ok true ⟨db, m.query⟩)
      (hu : Act.unify pattern stored env ⟨db, m.query⟩ = .ok true ⟨db, q⟩) :
    Meets env p pattern remove row stored m (.ok (some .succeed) ⟨db, q⟩)
  /-- A thunk fails, or the steps do not suffice. -/
  | raised {e : Failure} {db : Database}
      (h : Act.unifiable pattern stored env m = .error e ⟨db, m.query⟩) :
    Meets env p pattern remove row stored m (.error e ⟨db, m.query⟩)

/-- How a row on offer fares. -/
inductive Fares (env : Env) (p : Predicate) (pattern : Term) (remove : Bool) (row : Row)
    (m : Machine) : EStateM.Result Failure Machine (Option Code) → Prop
  /-- It is no clause. -/
  | native (h : row.procedure.clause? = none) : Fares env p pattern remove row m (.ok none m)
  | clause {c : Clause} {stored : Term} {m₀ : Machine}
      {r : EStateM.Result Failure Machine (Option Code)} (h : row.procedure.clause? = some c)
      (hstored : renamed c env m = .ok stored m₀)
      (hmeets : Meets env p pattern remove row stored m₀ r) : Fares env p pattern remove row m r

end Trial

/-- The rows are on offer in a machine: they are the ones that ever had their
numbers, and they and the pattern can be read there. -/
structure Machine.Offers (m : Machine) (rows : Array Row) (pattern : Term) : Prop where
  db : m.db.Sound
  numbered : m.db.Numbered
  known : ∀ row ∈ rows, m.db.Knows row
  query : m.query.Sound false
  fits : ∀ row ∈ rows, row.procedure.Fits .none
  pattern : pattern.Live (m.query.frames.world false)

namespace Trial

variable {env : Env} {p : Predicate} {pattern : Term} {remove : Bool} {row : Row} {m m' : Machine}
  {rows : Array Row}

theorem rebind_apply (t : Term) (env : Env) (m : Machine) :
    Act.rebind t env m = .ok (m.query.frames.rebind t m.query.callee m.db.nextTerm).1
      ⟨{ m.db with nextTerm := (m.query.frames.rebind t m.query.callee m.db.nextTerm).2.1 },
        { m.query with
          frames := (m.query.frames.rebind t m.query.callee m.db.nextTerm).2.2 }⟩ := rfl

/-- Renaming a clause makes unbound slots and changes nothing else. -/
theorem renamed_ok (c : Clause) (env : Env) (m : Machine) : ∃ stored m₀ count,
    renamed c env m = .ok stored m₀ ∧ m.db.Evolves m₀.db
      ∧ (∀ p, m₀.db.rowsOf p = m.db.rowsOf p)
      ∧ m₀.query = { m.query with
        frames := (m.query.frames.expand (m.query.frames.owner m.query.callee) count).1 } := by
  have hrun : renamed c env m = Act.rebind (.build m.db.nextTerm ":-" [c.head, c.body]) env
      ⟨{ m.db with nextTerm := m.db.nextTerm + 1 }, m.query⟩ := rfl
  rw [hrun, rebind_apply]
  obtain ⟨count, hcount⟩ := m.query.frames.exists_rebind
    (.build m.db.nextTerm ":-" [c.head, c.body]) m.query.callee (m.db.nextTerm + 1)
  exact ⟨_, _, count, rfl, .of_eq rfl rfl le_rfl rfl, fun _ => rfl, by rw [← hcount]⟩

/-- What becomes of a row whose renamed clause has been found to unify with
the pattern. -/
def take (p : Predicate) (row : Row) (pattern stored : Term) (remove : Bool) :
    Act (Option Code) := do
  if remove then
    if !(← (Database.remove p row.id : Store Bool)) then return none
  if ← Act.unify pattern stored then return some .succeed else return none

theorem runClause_apply {c : Clause} (hc : row.procedure.clause? = some c) {stored : Term}
    {m₀ : Machine} (hstored : renamed c env m = .ok stored m₀) :
    runClause p row pattern remove env m = match Act.unifiable pattern stored env m₀ with
      | .error e m₁ => .error e m₁
      | .ok false m₁ => .ok none m₁
      | .ok true m₁ => take p row pattern stored remove env m₁ := by
  have hrun : runClause p row pattern remove = (do
      let stored ← renamed c
      if !(← Act.unifiable pattern stored) then return none
      take p row pattern stored remove) := by
    rw [runClause, renamed, bind_assoc]
    simp only [hc]
    rfl
  rw [hrun, Act.bind_apply, hstored]
  dsimp only
  rw [Act.bind_apply]
  cases Act.unifiable pattern stored env m₀ with
  | error e m₁ => rfl
  | ok ok m₁ => cases ok <;> rfl

theorem take_shown {stored : Term} (hu : Act.unify pattern stored env m = .ok true m') :
    take p row pattern stored false env m = .ok (some .succeed) m' := by
  unfold take
  simp only [Bool.false_eq_true, if_false]
  rw [Act.bind_apply, hu]
  rfl

theorem take_gone {stored : Term} {db : Database}
    (hr : Database.remove p row.id m.db = .ok false db) :
    take p row pattern stored true env m = .ok none ⟨db, m.query⟩ := by
  have hremove : (liftM (Database.remove p row.id) : Act Bool) env m
    = Act.store (Database.remove p row.id) env m := rfl
  unfold take
  simp only [if_true]
  rw [Act.bind_apply, hremove, Act.store_apply, hr]
  rfl

theorem take_removed {stored : Term} {db : Database}
    (hr : Database.remove p row.id m.db = .ok true db)
    (hu : Act.unify pattern stored env ⟨db, m.query⟩ = .ok true m') :
    take p row pattern stored true env m = .ok (some .succeed) m' := by
  have hremove : (liftM (Database.remove p row.id) : Act Bool) env m
    = Act.store (Database.remove p row.id) env m := rfl
  unfold take
  simp only [if_true]
  rw [Act.bind_apply, hremove, Act.store_apply, hr]
  simp only [Bool.not_true, Bool.false_eq_true, if_false]
  rw [Act.bind_apply, hu]
  rfl

/-- A row that has been found to unify is shown or removed, unless it has left
the table: the second unification does what the first has promised. -/
theorem meets_take (henv : env.Proper) {stored : Term} {db : Database} (hn : db.Numbered)
    (hrow : db.Knows row) (h : Act.unifiable pattern stored env m = .ok true ⟨db, m.query⟩) :
    Meets env p pattern remove row stored m
      (take p row pattern stored remove env ⟨db, m.query⟩) := by
  cases remove with
  | false =>
    obtain ⟨q, hunify⟩ := Act.unify_of_unifiable henv h (.refl db)
    rw [take_shown hunify]
    exact .shown rfl h hunify
  | true =>
    have hevolves := (Database.evolves_remove p row.id).ends db
    unfold Store.after at hevolves
    cases hr : Database.remove p row.id db with
    | error e db' => exact absurd hr (Database.remove_ne_error p row.id db e db')
    | ok found db' =>
      rw [hr] at hevolves
      cases found with
      | false =>
        obtain ⟨rfl, hnone⟩ := Database.not_mem_of_remove hn hr
        rw [take_gone (m := ⟨db', m.query⟩) hr]
        exact .gone rfl h fun hmem => hnone row hmem rfl
      | true =>
        obtain ⟨row', hid, hremoves⟩ := Database.removes_of_remove hn hr
        obtain rfl : row' = row :=
          hrow.2 row' (Database.mem_allRows_of_rowsOf hremoves.mem) hid
        obtain ⟨q, hunify⟩ := Act.unify_of_unifiable henv h hevolves
        rw [take_removed (m := ⟨db, m.query⟩) hr hunify]
        exact .removed rfl h hremoves hunify

/-- A renamed clause can be read where it was made. -/
theorem tries_renamed {q : Query} (hq : q.Sound false) (hrow : row.procedure.Fits .none)
    {c : Clause} (hc : row.procedure.clause? = some c) :
    Act.Tries .loose q (renamed c) fun stored q' => stored.Live (q'.frames.world false) :=
  .read (μ := .loose) hq (Act.reads_term (Act.fits_parts hrow hc)) fun _ hwhole =>
    Act.tries_rebind (μ := .loose) hq hwhole.wellMade

/-- Every row on offer fares in one of these ways. -/
theorem fares_runClause (henv : env.Proper) (h : m.Offers rows pattern) (hrow : row ∈ rows) :
    Fares env p pattern remove row m (runClause p row pattern remove env m) := by
  cases hc : row.procedure.clause? with
  | none =>
    rw [runClause]
    simp only [hc]
    exact .native hc
  | some c =>
    obtain ⟨stored, m₀, count, hstored, hevolves, -, -⟩ := renamed_ok c env m
    have hrenamed := (tries_renamed h.query (h.fits row hrow) hc).ends env m.db henv.sound h.db
    rw [hstored] at hrenamed
    obtain ⟨hdb₀, htouch, hlive⟩ := hrenamed
    have htested := (Act.reads_unifiable (μ := .loose) htouch.sound (htouch.live h.pattern)
      hlive).ends env m₀.db henv.sound hdb₀
    have htest := ((Act.deeds_unifiable pattern stored).ends env m₀ henv.steady).db
    refine .clause hc hstored ?_
    rw [runClause_apply hc hstored]
    cases hended : Act.unifiable pattern stored env m₀ with
    | error e m₁ =>
      rw [show Act.unifiable pattern stored env ⟨m₀.db, m₀.query⟩ = .error e m₁ from hended]
        at htested
      obtain ⟨db₁, q₁⟩ := m₁
      obtain rfl : q₁ = m₀.query := htested.1
      exact .raised hended
    | ok ok m₁ =>
      rw [show Act.unifiable pattern stored env ⟨m₀.db, m₀.query⟩ = .ok ok m₁ from hended]
        at htested
      rw [hended] at htest
      obtain ⟨db₁, q₁⟩ := m₁
      obtain rfl : q₁ = m₀.query := htested.1
      cases ok with
      | false => exact .apart hended
      | true =>
        have hpast : m.db.Evolves db₁ := hevolves.trans htest
        exact meets_take henv (hpast.numbered h.numbered) (hpast.knows (h.known row hrow)) hended

/-- The next row is tried where the rows are still on offer. -/
theorem offers_skipped (henv : env.Proper) (h : m.Offers rows pattern) (hrow : row ∈ rows)
    (hrun : runClause p row pattern remove env m = .ok none m') : m'.Offers rows pattern := by
  have htried := (Act.tries_runClause (μ := .loose) h.query p (h.fits row hrow) h.pattern
    remove).ends env m.db henv.sound h.db
  have hdeed := ((Act.deeds_runClause p row pattern remove).ends env m henv.steady).db
  rw [show runClause p row pattern remove env ⟨m.db, m.query⟩ = .ok none m' from hrun] at htried
  rw [hrun] at hdeed
  obtain ⟨hdb, htouch, -⟩ := htried
  exact ⟨hdb, hdeed.numbered h.numbered, fun r hr => hdeed.knows (h.known r hr), htouch.sound,
    h.fits, htouch.live h.pattern⟩

/-- A row that is passed over leaves no binding, only unbound slots; and
either it is no clause, or it does not unify, or it has left the table. -/
theorem Fares.passed (h : Fares env p pattern remove row m (.ok none m')) :
    (∃ count, m'.query = { m.query with
        frames := (m.query.frames.expand (m.query.frames.owner m.query.callee) count).1 })
      ∧ ∀ c stored m₀ m₁, row.procedure.clause? = some c → renamed c env m = .ok stored m₀ →
        Act.unifiable pattern stored env m₀ = .ok true m₁ → remove = true ∧ row ∉ m₁.db.rowsOf p := by
  cases h with
  | native h =>
    refine ⟨⟨0, ?_⟩, fun c _ _ _ hc => nomatch h.symm.trans hc⟩
    rw [Frames.expand_zero]
  | @clause c stored m₀ _ hc hstored hmeets =>
    obtain ⟨stored', m₀', count, hrenamed, -, -, hquery⟩ := renamed_ok c env m
    cases hrenamed.symm.trans hstored
    -- the test is a function of the row, so it ends in one way only
    have hunique : ∀ {c' stored' m₀' m₁ b m₂}, row.procedure.clause? = some c' →
        renamed c' env m = .ok stored' m₀' → Act.unifiable pattern stored' env m₀' = .ok true m₁ →
          Act.unifiable pattern stored env m₀ = .ok b m₂ → b = true ∧ m₁ = m₂ := by
      intro c' stored' m₀' m₁ b m₂ hc' hstored' htest htest'
      cases hc.symm.trans hc'
      cases hstored.symm.trans hstored'
      cases htest.symm.trans htest'
      exact ⟨rfl, rfl⟩
    cases hmeets with
    | apart htest =>
      exact ⟨⟨count, hquery⟩, fun _ _ _ _ hc' hstored' htest' =>
        nomatch (hunique hc' hstored' htest' htest).1⟩
    | gone hr htest hrow =>
      refine ⟨⟨count, hquery⟩, fun _ _ _ _ hc' hstored' htest' => ⟨hr, ?_⟩⟩
      rw [(hunique hc' hstored' htest' htest).2]
      exact hrow

/-- Meanwhile the database has evolved. -/
theorem Fares.evolves (henv : env.Steady) (h : Fares env p pattern remove row m (.ok none m')) :
    m.db.Evolves m'.db := by
  cases h with
  | native => exact .refl m.db
  | @clause c stored m₀ _ _ hstored hmeets =>
    obtain ⟨stored', m₀', -, hrenamed, hevolves, -, -⟩ := renamed_ok c env m
    cases hrenamed.symm.trans hstored
    have htest := ((Act.deeds_unifiable pattern stored).ends env m₀ henv).db
    cases hmeets with
    | apart h | gone _ h _ =>
      rw [h] at htest
      exact hevolves.trans htest

end Trial

-- ================================================== one row after the other

/-- Going through rows on offer: those tried, in order, until one gives code
or fails, and those left. -/
inductive Trial.Scans (env : Env) (p : Predicate) (pattern : Term) (remove : Bool) :
    Machine → List Row → List Row → Except Failure Code → Machine → Prop
  | exhausted {m : Machine} : Scans env p pattern remove m [] [] (.ok .fail) m
  /-- The steps do not suffice. -/
  | unfinished {m : Machine} {left : List Row} :
    Scans env p pattern remove m [] left (.error .unfinished) m
  | skipped {m m₁ m' : Machine} {row : Row} {tried left : List Row} {ended : Except Failure Code}
      (h : Trial.Fares env p pattern remove row m (.ok none m₁))
      (hs : Scans env p pattern remove m₁ tried left ended m') :
    Scans env p pattern remove m (row :: tried) left ended m'
  | taken {m m' : Machine} {row : Row} {left : List Row} {code : Code}
      (h : Trial.Fares env p pattern remove row m (.ok (some code) m')) :
    Scans env p pattern remove m [row] left (.ok code) m'
  | raised {m m' : Machine} {row : Row} {left : List Row} {e : Failure}
      (h : Trial.Fares env p pattern remove row m (.error e m')) :
    Scans env p pattern remove m [row] left (.error e) m'

/-- The rows from the next one on. -/
theorem Alternatives.drop_eq_cons {rows : Array Row} {i : Nat} {row : Row} (h : rows[i]? = some row) :
    rows.toList.drop i = row :: rows.toList.drop (i + 1) := by
  obtain ⟨hlt, rfl⟩ := Array.getElem?_eq_some_iff.1 h
  rw [← Array.getElem_toList]
  exact List.drop_eq_getElem_cons _

/-- Trying the alternatives of `clause/2` and `retract/1` is going through
the rows, from the first that has not been tried. -/
theorem Alternatives.scans_start {env : Env} (henv : env.Proper) {p : Predicate} {pattern : Term}
    {remove : Bool} {rows : Array Row} (steps : Nat) {i : Nat} {m m' : Machine}
    {ended : Except Failure Code} {rest : Alternatives} (h : m.Offers rows pattern)
    (hrun : (matching p rows i pattern remove).start steps env m = .ok (ended, rest) m') :
    ∃ j tried, rest = .matching p rows j pattern remove
      ∧ rows.toList.drop i = tried ++ rows.toList.drop j
      ∧ Trial.Scans env p pattern remove m tried (rows.toList.drop j) ended m' := by
  induction steps generalizing i m with
  | zero =>
    cases hrun
    exact ⟨i, [], rfl, rfl, .unfinished⟩
  | succ steps ih =>
    rw [start_succ] at hrun
    cases hi : rows[i]? with
    | none =>
      have hnext : (matching p rows i pattern remove).next? = none := by
        simp only [next?, hi]
      have hdrop : rows.toList.drop i = [] :=
        List.drop_eq_nil_of_le (by simpa using hi)
      rw [hnext] at hrun
      cases hrun
      refine ⟨i, [], rfl, rfl, ?_⟩
      rw [hdrop]
      exact .exhausted
    | some row =>
      have hnext : (matching p rows i pattern remove).next?
          = some (.clause p row pattern remove, .matching p rows (i + 1) pattern remove) := by
        simp only [next?, hi]
      have hdrop := drop_eq_cons hi
      have hrow : row ∈ rows := Array.mem_of_getElem? hi
      have hfares : Trial.Fares env p pattern remove row m
          (Trial.runClause p row pattern remove env m) := Trial.fares_runClause henv h hrow
      rw [hnext] at hrun
      dsimp only [Trial.run] at hrun
      cases hr : Trial.runClause p row pattern remove env m with
      | error e m₁ =>
        rw [hr] at hrun hfares
        cases hrun
        exact ⟨i + 1, [row], rfl, hdrop, .raised hfares⟩
      | ok code m₁ =>
        rw [hr] at hrun hfares
        cases code with
        | some code =>
          cases hrun
          exact ⟨i + 1, [row], rfl, hdrop, .taken hfares⟩
        | none =>
          obtain ⟨j, tried, hrest, htried, hscans⟩ := ih (Trial.offers_skipped henv h hrow hr) hrun
          refine ⟨j, row :: tried, hrest, ?_, .skipped hfares hscans⟩
          rw [hdrop, htried]
          rfl

end LogicMachine
