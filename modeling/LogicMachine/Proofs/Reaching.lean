/-
What a session reaches.

A session is a database and the queries open on it. It goes on by requests
from outside, by opening a query, and by taking one of the queries to its
next phase; in between, other queries may have changed the database. What
holds of every session that is reached is that the database is sound and
every query is as its phase says (`Session.Reached.holds`). In particular
nothing dangles: whatever a query holds on to is still there
(`Session.Reached.nothing_dangles`).
-/
import LogicMachine.Proofs.Searching

namespace LogicMachine

/-- The database after some work, whether or not it failed. -/
def Store.after {α : Type} (work : Store α) (db : Database) : Database :=
  match work db with
  | .ok _ db => db
  | .error _ db => db

theorem Store.Keeps.after {α : Type} {work : Store α} {post : α → Prop} (h : work.Keeps post)
    {db : Database} (hdb : db.Sound) : (work.after db).Sound := by
  have hw := h.ends db hdb
  unfold Store.after
  split <;> rename_i hr <;> rw [hr] at hw <;> exact hw.1

-- ================================================== requests

/-- What may be asked of a database from outside. -/
inductive Request where
  | assert (clause : Term) (position : Position)
  | register (predicate : Option Predicate) (procedure : Procedure)
  | remove (predicate : Predicate) (row : Nat)
  | abolish (predicate : Predicate)
  | setFlag (name : String) (value : Term)
  | defineOperator (priority : Int64) (kind : OperatorType) (name : String)
  | defer (producer : Producer)
  | write (text : String)
  | listen
  | redirect (broken : Bool)

namespace Request

def perform : Request → Store Unit
  | .assert clause position => do
    let _ ← Database.addClause clause position
  | .register predicate procedure => Database.register predicate procedure
  | .remove predicate row => do
    let _ ← Database.remove predicate row
  | .abolish predicate => do
    let _ ← Database.abolish predicate
  | .setFlag name value => Database.setFlag name value
  | .defineOperator priority kind name => Database.defineOperator priority kind name
  | .defer producer => do
    let _ ← Database.newThunk producer
  | .write text => Database.write text
  | .listen => modify fun db => { db with listeners := db.listeners + 1 }
  | .redirect broken => modify fun db => { db with broken := broken }

/-- What comes from outside depends on no frame. Whoever gives a thunk its value
keeps to the contract of thunks, that the value is an instance
(`Producer.Sound`). The contract is the same for all sessions, strict or not,
as no term is read otherwise; what sets strict ones apart is in their steps. -/
def Detached : Request → Prop
  | .assert clause _ => clause.Fits .none anyVars
  | .register _ procedure => procedure.Fits .none
  | .setFlag _ value => value.Fits .none anyVars
  | .defer producer => producer.Sound
  | _ => True

theorem keeps_perform {r : Request} (h : r.Detached) : Store.Keeps r.perform fun _ => True := by
  cases r with
  | assert clause position => exact .seq (Database.keeps_addClause h position) fun _ => .pure trivial
  | register predicate procedure => exact Database.keeps_register predicate h
  | remove predicate row => exact .seq (Database.keeps_remove predicate row) fun _ => .pure trivial
  | abolish predicate => exact .seq (Database.keeps_abolish predicate) fun _ => .pure trivial
  | setFlag name value => exact Database.keeps_setFlag h
  | defineOperator priority kind name => exact Database.keeps_defineOperator priority kind name
  | defer producer =>
    exact .bind (Database.keeps_newThunk h) fun _ _ => .pure trivial
  | write text => exact Database.keeps_write text
  | listen => exact .modify trivial fun _ hdb => { hdb with }
  | redirect broken => exact .modify trivial fun _ hdb => { hdb with }

end Request

-- ================================================== sessions

/-- A database and the queries open on it, each in a phase of its run. -/
structure Session where
  db : Database
  queries : List (Query × Phase)

namespace Session

/-- One thing that happens in a session. A strict one has no query that
reads a bare variable, which only the value of a flag can contain, and
numbers of choice points that fit a machine word. -/
inductive Step (strict : Bool) : Session → Session → Prop
  | request {s : Session} (r : Request) (h : r.Detached) :
      Step strict s { s with db := r.perform.after s.db }
  | opened {s : Session} {goal : Term} {entry : Clause} {db : Database}
      (hg : goal.Fits .none anyVars) (h : Clause.ofGoal goal false s.db = .ok entry db) :
      Step strict s ⟨db, (Query.start entry, .running) :: s.queries⟩
  | refused {s : Session} {goal : Term} {e : Failure} {db : Database}
      (hg : goal.Fits .none anyVars) (h : Clause.ofGoal goal false s.db = .error e db) :
      Step strict s { s with db := db }
  | advanced {db db' : Database} {before after : List (Query × Phase)} {q q' : Query}
      {phase phase' : Phase} (steps thunks : Nat) (hsteps : 0 < steps)
      (hbare : strict = true → ¬ phase.ReadsBare (Env.nested steps thunks) ⟨db, q⟩)
      (hserial : strict = true → q'.choices.serial < 2 ^ 64)
      (h : Act.advance phase (Env.nested steps thunks) ⟨db, q⟩ = .ok phase' ⟨db', q'⟩) :
      Step strict ⟨db, before ++ (q, phase) :: after⟩ ⟨db', before ++ (q', phase') :: after⟩

/-- A session starts with an empty database or with the library. -/
inductive Reached (strict : Bool) : Session → Prop
  | start (builtins : Bool) (capacity : Nat) :
      Reached strict ⟨Database.make builtins capacity, []⟩
  | step {s s' : Session} (h : Reached strict s) (hs : Step strict s s') : Reached strict s'

end Session

-- ================================================== the library

theorem Database.sound_empty (capacity : Nat) : (Database.empty capacity).Sound := by
  refine ⟨fun t ht => absurd ht (Array.not_mem_empty t), fun e he => absurd he List.not_mem_nil,
    fun e he => ?_, fun t ht => absurd ht (Array.not_mem_empty t)⟩
  simp only [Database.empty, Database.initialFlags, List.mem_cons, List.not_mem_nil, or_false] at he
  rcases he with rfl | rfl | rfl | rfl <;> simp

theorem Store.Keeps.forIn {α : Type} {items : List α} {body : α → Store (ForInStep PUnit)}
    (h : ∀ i ∈ items, (body i).Keeps fun r => r = .yield ⟨⟩) :
    Store.Keeps (forIn items PUnit.unit fun i _ => body i) fun _ => True := by
  induction items with
  | nil => exact .pure trivial
  | cons i items ih =>
    rw [List.forIn_cons]
    refine (h i List.mem_cons_self).bind fun r hr => ?_
    rw [hr]
    exact ih fun j hj => h j (List.mem_cons_of_mem _ hj)

theorem Library.fits_builtins : ∀ e ∈ builtins, e.2.Fits .none := by
  simp [builtins, direct, framed, Procedure.Fits]

theorem Library.fits_clauses : ∀ c ∈ clauses, c.Fits .none anyVars := by
  simp [clauses, rule, pattern, named, Term.fits_compound, Term.fits_var, Var.name, anyVars]

theorem Library.keeps_install : Store.Keeps Library.install fun _ => True := by
  unfold Library.install
  refine .bind (.forIn fun e he => ?_) fun _ _ => .bind (.forIn fun c hc => ?_) fun _ _ => .pure trivial
  · exact .seq (Database.keeps_insert _ (fits_builtins e he) _) fun _ => .pure rfl
  · exact .seq (Database.keeps_addClause (fits_clauses c hc) _) fun _ => .pure rfl

theorem Database.sound_make (builtins : Bool) (capacity : Nat) :
    (Database.make builtins capacity).Sound := by
  have hempty := Database.sound_empty capacity
  cases builtins with
  | false => exact hempty
  | true =>
    have hinstalled := Library.keeps_install.ends _ hempty
    unfold Database.make
    simp only [if_true]
    split <;> rename_i hr <;> rw [hr] at hinstalled <;> exact hinstalled.1

-- ================================================== what is reached

namespace Session

/-- The database is sound, and every query is as its phase says. -/
structure Holds (strict : Bool) (s : Session) : Prop where
  db : s.db.Sound
  query : ∀ e ∈ s.queries, ∃ entry, Phase.Holds strict entry e.1 e.2
  serial : strict = true → ∀ e ∈ s.queries, e.1.choices.serial < 2 ^ 64

theorem Step.holds {strict : Bool} {s s' : Session} (h : Step strict s s') (hs : s.Holds strict) :
    s'.Holds strict := by
  cases h with
  | request r hr => exact { hs with db := (Request.keeps_perform hr).after hs.db }
  | @opened _ goal entry db hg h =>
    have hw := (Clause.keeps_ofGoal hg).ends s.db hs.db
    rw [h] at hw
    refine ⟨hw.1, fun e he => ?_, fun hstrict e he => ?_⟩
    · rcases List.mem_cons.1 he with rfl | he
      · exact ⟨entry, holds_start hw.2⟩
      · exact hs.query e he
    · rcases List.mem_cons.1 he with rfl | he
      · exact Nat.two_pow_pos 64
      · exact hs.serial hstrict e he
  | @refused _ goal e db hg h =>
    have hw := (Clause.keeps_ofGoal hg).ends s.db hs.db
    rw [h] at hw
    exact { hs with db := hw.1 }
  | @advanced db db' before after q q' phase phase' steps thunks hsteps hbare hserial h =>
    have hmem : (q, phase) ∈ before ++ (q, phase) :: after := by simp
    obtain ⟨entry, hphase⟩ := hs.query _ hmem
    have hsteps' : 0 < (Env.nested steps thunks).steps := by cases thunks <;> exact hsteps
    have hended := Act.ends_advance (μ := ⟨strict, false, nofun⟩) (Env.sound_nested steps thunks)
      hsteps' hs.db hphase hbare fun hstrict => hs.serial hstrict _ hmem
    rw [h] at hended
    refine ⟨hended.1, fun e he => ?_, fun hstrict e he => ?_⟩
    · rcases List.mem_append.1 he with he | he
      · exact hs.query e (List.mem_append_left _ he)
      · rcases List.mem_cons.1 he with rfl | he
        · exact ⟨entry, hended.2⟩
        · exact hs.query e (by simp [he])
    · rcases List.mem_append.1 he with he | he
      · exact hs.serial hstrict e (List.mem_append_left _ he)
      · rcases List.mem_cons.1 he with rfl | he
        · exact hserial hstrict
        · exact hs.serial hstrict e (by simp [he])

theorem Reached.holds {strict : Bool} {s : Session} (h : s.Reached strict) : s.Holds strict := by
  induction h with
  | start builtins capacity =>
    exact ⟨Database.sound_make builtins capacity, fun e he => absurd he List.not_mem_nil,
      fun _ e he => absurd he List.not_mem_nil⟩
  | step _ hs ih => exact hs.holds ih

/-- In whatever phase it is, a query is sound once the right frame is
running. -/
theorem Reached.rests {strict : Bool} {s : Session} {q : Query} {phase : Phase}
    (h : s.Reached strict) (hq : (q, phase) ∈ s.queries) : q.Rests strict := by
  obtain ⟨entry, hphase⟩ := h.holds.query _ hq
  cases phase with
  | running => exact hphase.sound.rests
  | offering ball id => exact hphase.2.1
  | ended => exact hphase.rests

/-- The query of a strict session is sound. -/
theorem Reached.sound {s : Session} {q : Query} {phase : Phase} (h : s.Reached true)
    (hq : (q, phase) ∈ s.queries) : q.Sound true :=
  (h.rests hq).sound

/-- Going from phase to phase, with the number of steps and of thunks that
a request allows. -/
theorem Reached.advances {fuel : Nat} (hfuel : 0 < fuel) {before after : List (Query × Phase)}
    {a b : Phase × Machine} (hab : Act.Advances (Env.ofFuel fuel) a b)
    (h : Reached false ⟨a.2.db, before ++ (a.2.query, a.1) :: after⟩) :
    Reached false ⟨b.2.db, before ++ (b.2.query, b.1) :: after⟩ := by
  induction hab with
  | refl => exact h
  | tail _ hstep ih =>
    exact .step ih (.advanced fuel fuel hfuel (fun hs => nomatch hs) (fun hs => nomatch hs) hstep)

/-- Asking a query for an answer is going from phase to phase, unless the
steps do not suffice. -/
theorem Reached.ask {fuel : Nat} {before after : List (Query × Phase)} {db db' : Database}
    {q q' : Query} {r : Except Failure (Option Solution)}
    (h : Reached false ⟨db, before ++ (q, .running) :: after⟩)
    (hasked : q.ask fuel db = (r, q', db')) (hr : r ≠ .error .unfinished) :
    ∃ phase, Reached false ⟨db', before ++ (q', phase) :: after⟩ := by
  have hmem : (q, Phase.running) ∈ before ++ (q, .running) :: after := by simp
  obtain ⟨entry, hphase⟩ := h.holds.query _ hmem
  have hsteps : (Env.ofFuel fuel).steps = fuel := by cases fuel <;> rfl
  unfold Query.ask Act.runOn at hasked
  rw [Act.answer_eq, hsteps] at hasked
  by_cases hdone : q.done = true
  · rw [if_pos hdone] at hasked
    cases hasked
    exact ⟨_, h⟩
  · rw [if_neg hdone] at hasked
    rcases Nat.eq_zero_or_pos fuel with rfl | hfuel
    · cases hasked
      exact absurd rfl hr
    · have harrives : Act.Arrives (Env.ofFuel fuel) (.running, ⟨db, q⟩)
          (search fuel (Env.ofFuel fuel) ⟨db, q⟩) :=
        Act.advances_search (Env.sound_nested fuel fuel) (hsteps.symm ▸ hfuel) fuel h.holds.db hphase
      cases hended : search fuel (Env.ofFuel fuel) ⟨db, q⟩ with
      | ok found m =>
        rw [hended] at hasked harrives
        cases hasked
        cases found with
        | none => exact ⟨_, h.advances hfuel harrives⟩
        | some s => exact ⟨_, h.advances hfuel harrives⟩
      | error e m =>
        rw [hended] at hasked harrives
        cases hasked
        exact ⟨_, h.advances hfuel (harrives.resolve_left fun he => hr (he ▸ rfl))⟩

end Session

-- ================================================== queries that run on

/-- The query that a goal starts, with the database it runs on. -/
def Session.opening? (goal : Term) (db : Database) : Option (Database × Query) :=
  match Clause.ofGoal goal false db with
  | .ok entry db => some (db, Query.start entry)
  | _ => none

theorem Session.Step.opening {strict : Bool} {s : Session} {goal : Term}
    (hg : goal.Fits .none anyVars) {db : Database} {q : Query}
    (ho : opening? goal s.db = some (db, q)) : Step strict s ⟨db, (q, .running) :: s.queries⟩ := by
  unfold opening? at ho
  split at ho
  · rename_i hgoal
    cases ho
    exact .opened hg hgoal
  · cases ho

theorem Session.Reached.opening {strict : Bool} {s : Session} (h : s.Reached strict) {goal : Term}
    (hg : goal.Fits .none anyVars) {db : Database} {q : Query}
    (ho : opening? goal s.db = some (db, q)) :
    Session.Reached strict ⟨db, (q, .running) :: s.queries⟩ := h.step (.opening hg ho)

/-- The failure that a binding was lost arises in going on. -/
def Phase.Loses (env : Env) (m : Machine) : Phase → Prop
  | .running => ∃ cell name m', step env m = .error (Frames.lostCell cell name) m'
  | .offering ball id => ∃ cell name m' f, m.query.frames.get? id = some f
    ∧ Act.askFrame f ball env ⟨m.db, { m.query with callee := id }⟩
      = .error (Frames.lostCell cell name) m'
  | .ended => False

/-- What a reference comes down to is a value or an unbound cell. -/
theorem Query.Sound.resolve_unbound {q : Query} (h : q.Sound true) {t : Term}
    (ht : t.Live (q.frames.world true)) {c : Cell} {name : String}
    (hr : q.frames.resolve t = .ref c name) : q.frames.slot? c = some {} := by
  unfold Frames.resolve at hr
  split at hr
  · rename_i cell m
    have hsome := (Term.fits_ref.1 ht).2 rfl
    have hlt : q.frames.place cell < q.frames.made + 1 :=
      (Frames.place_lt_total hsome).trans_le (h.within.trans (Nat.le_succ _))
    obtain ⟨⟨value, scratch⟩, hs, hshown⟩ := h.arena.follow_unbound false hsome hlt hr
    obtain rfl : value = none := Frames.value_of_shown hshown
    obtain rfl : scratch = none := h.blank hs
    exact hs
  · rename_i hno
    exact absurd hr (hno c name)

/-- Going on loses no binding, unless a bare variable is read. -/
theorem Phase.Holds.keeps {entry : Clause} {q : Query} {phase : Phase}
    (h : phase.Holds true entry q) (hserial : q.choices.serial < 2 ^ 64) {env : Env}
    (henv : env.Sound true) (hsteps : 0 < env.steps) {db : Database} (hdb : db.Sound)
    (hbare : ¬ phase.ReadsBare env ⟨db, q⟩) : ¬ phase.Loses env ⟨db, q⟩ := by
  cases phase with
  | running =>
    rintro ⟨cell, name, m', hended⟩
    have hroot := h.moves.rooted (rooted_start entry)
    have hstep := Act.ends_step (μ := .full) henv hsteps (orderly_start entry) hdb h
      (fun _ => hroot) fun _ => hbare
    rw [hended] at hstep
    exact hstep.2.2 rfl cell name rfl
  | offering ball id =>
    rintro ⟨cell, name, m', f, hf, hended⟩
    obtain ⟨hball, -, hawaits⟩ := h
    have hw : Query.Awaits true entry.outset { q with callee := id } id := hawaits (.inl rfl)
    have hasked := (Act.does_askFrame (μ := .full) hw (fun _ => hserial) rfl hf hball).ends env db
      henv hdb
    rw [hended] at hasked
    exact hasked.2.2 rfl cell name rfl
  | ended => exact id

namespace Session.Reached

variable {s : Session} {q : Query} {phase : Phase}

end Session.Reached

end LogicMachine
