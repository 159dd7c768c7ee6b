/-
The logical update view.

A goal that goes through rows works on those that were there when it was
called. What it has taken up and what it has left to take up make up that
list at all times (`Considers.exact`): the list is kept in the alternatives
of its choice point, no other goal has a point with the same number, and of
all that can happen in a session only going back to that very point moves on
in it (`ChoicePoint.Comes`). A point with rows comes from the call of a table, or
from a call of `clause/2` or `retract/1`, and then its pattern is what the arguments
of the call have asked for (`Machine.Wants`). How the rows fare that are taken up
there is said by `Trial.Scans`. Since numbers of rows are never given out twice, a
row that one solution of `retract/1` has removed is gone for good, and none
removes it again, in whatever query (`Session.Retracts.once`).

A query is followed here together with its database, which others change
between its turns (`Course`).
-/
import LogicMachine.Proofs.Asking
import LogicMachine.Proofs.LastCalls

namespace LogicMachine

-- ================================================== a query among others

/-- What may happen next to a query that shares its database: it takes its
turn, or others have changed the database. -/
inductive Turn : Phase × Machine → Phase × Machine → Prop
  | own {x y : Phase × Machine} (steps thunks : Nat) (hsteps : 0 < steps)
      (h : Act.Advance (Env.nested steps thunks) x y) : Turn x y
  | others {phase : Phase} {m : Machine} {db : Database} (hdb : db.Sound)
      (he : m.db.Evolves db) : Turn (phase, m) (phase, ⟨db, m.query⟩)

/-- What a query and its database come to from where the query was opened. -/
inductive Course : Phase × Machine → Prop
  | start {entry : Clause} {db : Database} (he : entry.Fits) (hdb : db.Sound) (hn : db.Numbered) :
      Course (.running, ⟨db, Query.start entry⟩)
  | turn {x y : Phase × Machine} (h : Course x) (ht : Turn x y) : Course y

/-- What holds of a query and its database at all times. -/
structure Course.Holds (x : Phase × Machine) : Prop where
  db : x.2.db.Sound
  numbered : x.2.db.Numbered
  query : ∃ entry, x.1.Holds false entry x.2.query
  ordered : x.2.query.choices.Ordered

variable {x y : Phase × Machine} {env : Env}

theorem steps_nested {steps thunks : Nat} (h : 0 < steps) : 0 < (Env.nested steps thunks).steps := by
  cases thunks <;> exact h

theorem went_of_advance (henv : env.Steady) (h : Act.Advance env x y) : x.2.Went y.2 := by
  have hwent := Act.went_advance henv x.1 x.2
  rw [show Act.advance x.1 env x.2 = .ok y.1 y.2 from h] at hwent
  exact hwent

theorem Turn.went (h : Turn x y) : x.2.Went y.2 := by
  cases h with
  | own steps thunks _ h => exact went_of_advance (Env.steady_nested steps thunks) h
  | others _ he => exact ⟨he, le_rfl, id⟩

theorem Course.Holds.turn (hx : Course.Holds x) (h : Turn x y) : Course.Holds y := by
  have hnumbered := h.went.db.numbered hx.numbered
  have hordered := h.went.ordered hx.ordered
  obtain ⟨entry, hquery⟩ := hx.query
  cases h with
  | own steps thunks hsteps h =>
    have hended := Act.ends_advance (μ := .loose) (Env.sound_nested steps thunks)
      (steps_nested hsteps) hx.db hquery nofun nofun
    rw [show Act.advance x.1 (Env.nested steps thunks) ⟨x.2.db, x.2.query⟩ = .ok y.1 y.2 from h]
      at hended
    exact ⟨hended.1, hnumbered, ⟨entry, hended.2⟩, hordered⟩
  | others hdb he => exact ⟨hdb, hnumbered, ⟨entry, hquery⟩, hordered⟩

theorem Course.holds (h : Course x) : Course.Holds x := by
  induction h with
  | start he hdb hn =>
    exact ⟨hdb, hn, ⟨_, holds_start he⟩, .nil, fun p hp => absurd hp List.not_mem_nil⟩
  | turn _ ht ih => exact ih.turn ht

-- ================================================== where points come from

/-- In its next turn the query goes back to the choice point. -/
def Resuming (x : Phase × Machine) (id : Nat) : Prop :=
  x.1 = .running ∧ x.2.query.next = .fail ∧ ∃ r, x.2.query.retreat.1 = some r ∧ r.id = id

/-- Where a choice point comes from that is there after a turn. -/
inductive ChoicePoint.Comes (env : Env) (x : Phase × Machine) (m' : Machine) (p' : ChoicePoint) :
    Prop
  /-- It was there, and the turn does not go back to it. -/
  | kept {p : ChoicePoint} (hp : p ∈ x.2.query.choices.points) (hid : p.id = p'.id)
      (ha : p.alternatives = p'.alternatives) (hr : ¬ Resuming x p'.id)
  /-- A table was called. -/
  | called {table : Nat} {args : List Term} {next : Code} {first : Row} {m₁ : Machine}
      (hphase : x.1 = .running) (h : x.2.Calls env table args next first m₁)
      (hid : x.2.query.choices.serial < p'.id)
      (ha : p'.alternatives = some (.rows (x.2.db.rowsAt table) 1 args next x.2.query.callee
        x.2.query.ancestry))
  /-- `clause/2` or `retract/1` was called. -/
  | asked {builtin : Framed} {args : List Term} {caller : FrameId} {next : Code} {revision : Nat}
      {m₀ : Machine} {head body : Term} {remove : Bool} {p : Predicate} {serial : Nat}
      (hphase : x.1 = .running) (h : x.2.Invokes (.framed builtin) args caller next revision m₀)
      (hid : x.2.query.choices.serial < p'.id)
      (hwants : m₀.Wants builtin args caller next revision m' head body remove p)
      (ha : p'.alternatives = some
        (.matching p (m'.db.rowsOf p) 0 (.build serial ":-" [head, body]) remove))
  /-- Another act has made it. -/
  | made {a : Alternatives} (hid : x.2.query.choices.serial < p'.id)
      (ha : p'.alternatives = some a) (hrows : a.rows? = none)
  /-- The turn has gone back to it and has left `rest`. -/
  | resumed {r : Resumption} {q : Query} {ended : Except Failure Code} {rest : Alternatives}
      {m₁ : Machine} (hphase : x.1 = .running) (h : x.2.Resumes env r q ended rest m₁)
      (hid : r.id = p'.id) (ha : p'.alternatives = some rest)

/-- Where a choice point comes from that is there when what is tried or called on
`m₀` is over. -/
inductive ChoicePoint.Follows (env : Env) (m m₀ : Machine) (p₁ : ChoicePoint) : Prop
  | kept {p : ChoicePoint} (hp : p ∈ m₀.query.choices.points) (hid : p.id = p₁.id)
      (ha : p.alternatives = p₁.alternatives)
  | made {a : Alternatives} (hid : m₀.query.choices.serial < p₁.id) (ha : p₁.alternatives = some a)
      (hrows : a.rows? = none)
  | asked {builtin : Framed} {args : List Term} {caller : FrameId} {next code : Code}
      {revision : Nat} {m₁ : Machine} (hid : p₁.id = m₀.query.nextPoint)
      (h : m.Invokes (.framed builtin) args caller next revision m₀)
      (hlooks : builtin.looksUp = true)
      (hok : callProcedure (.framed builtin) args caller next revision env m₀ = .ok code m₁)

theorem Deed.follows {m m₀ m₁ : Machine} (h : Deed m₀ m₁) {p₁ : ChoicePoint}
    (hp₁ : p₁ ∈ m₁.query.choices.points) : p₁.Follows env m m₀ := by
  rcases h.points p₁ hp₁ with ⟨p, hp, hid, ha⟩ | ⟨hnew, a, ha, hrows⟩
  · exact .kept hp hid ha
  · exact .made hnew ha hrows

section

variable {m m₀ m₁ : Machine} {procedure : Procedure} {builtin : Framed} {args : List Term}
  {caller : FrameId} {next : Code} {revision : Nat}

/-- The points after a call. -/
theorem Machine.Invokes.follows (h : m.Invokes procedure args caller next revision m₀)
    (henv : env.Proper) (hsteps : 0 < env.steps) {p₁ : ChoicePoint}
    (hp₁ : p₁ ∈ (Act.left (callProcedure procedure args caller next revision env m₀)).query.choices.points) :
    p₁.Follows env m m₀ := by
  cases hlooks : procedure.looksUp with
  | false => exact ((Act.deeds_callProcedure hlooks).ends env m₀ henv.steady).follows hp₁
  | true =>
    obtain ⟨builtin, rfl, hlooks⟩ := Procedure.exists_framed hlooks
    have hends := Clauses.ends_call henv hsteps hlooks args caller next revision m₀.db m₀.query
    generalize hcall : callProcedure (.framed builtin) args caller next revision env m₀ = r
      at hends hp₁
    -- looking at the arguments makes no point
    have hkept : ∀ m', Act.Aside ⟨m₀.db, m₀.query.inside builtin args caller next revision⟩ m' →
        p₁ ∈ m'.query.choices.points → p₁ ∈ m₀.query.choices.points := by
      intro m' haside hmem
      rw [haside.query] at hmem
      exact hmem
    cases hends with
    | offers haside =>
      rcases List.mem_cons.1 hp₁ with rfl | hp₁
      · exact .asked (congrArg (·.choices.serial + 1) haside.query) h hlooks hcall
      · exact .kept (hkept _ haside hp₁) rfl rfl
    | lacks haside | refuses haside => exact .kept (hkept _ haside hp₁) rfl rfl

/-- The points after alternatives were tried. -/
theorem Machine.Resumes.follows {r : Resumption} {q : Query} {ended : Except Failure Code}
    {rest : Alternatives} (h : m.Resumes env r q ended rest m₁) (henv : env.Proper)
    (hsteps : 0 < env.steps) {p₁ : ChoicePoint} (hp₁ : p₁ ∈ m₁.query.choices.points) :
    p₁.Follows env m ⟨m.db, q⟩ := by
  obtain ⟨id, a⟩ := r
  by_cases ha : a.IsRows
  · cases a with
    | rows rows index args next caller revision =>
      obtain ⟨row, -, hinvokes, -, hcall⟩ := h.calls hsteps
      refine hinvokes.follows henv hsteps ?_
      rw [hcall]
      cases ended <;> exact hp₁
    | _ => exact ha.elim
  · have hdeed := (Act.deeds_start env.steps ha).ends env ⟨m.db, q⟩ henv.steady
    rw [h.tried] at hdeed
    exact hdeed.follows hp₁

/-- The point that `clause/2` or `retract/1` has made is there when the turn is
over. -/
theorem Machine.Invokes.comes (h : m.Invokes (.framed builtin) args caller next revision m₀)
    (henv : env.Proper) (hsteps : 0 < env.steps) (ho : m.query.choices.Ordered)
    (hlooks : builtin.looksUp = true) {code : Code}
    (hok : callProcedure (.framed builtin) args caller next revision env m₀ = .ok code m₁)
    (hturn : Act.Advance env (.running, m) y) {p' : ChoicePoint}
    (hp' : p' ∈ y.2.query.choices.points) (hid : p'.id = m₀.query.nextPoint) :
    p'.Comes env (.running, m) y.2 := by
  have ho' := (went_of_advance henv.steady hturn).ordered ho
  cases h.looksUp henv hsteps ho hlooks hturn with
  | offers hgoal hwants _ hpoints hid' ha _ _ =>
    obtain rfl := ho'.eq_of_id hp' (hpoints ▸ List.mem_cons_self) (hid.trans hid'.symm)
    exact .asked rfl h (hid ▸ Nat.lt_succ_of_le h.went.serial) hwants (hgoal ▸ ha)
  | lacks _ _ hserial _ =>
    have hle := ho'.le_serial p' hp'
    rw [hid, hserial] at hle
    exact absurd hle (Nat.not_succ_le_self _)
  | refuses hcall _ _ => exact nomatch hcall.symm.trans hok

theorem Machine.Turned.comes (henv : env.Proper) (hsteps : 0 < env.steps)
    (ho : m.query.choices.Ordered) (h : m.Turned env y.2)
    (hturn : Act.Advance env (.running, m) y) {p' : ChoicePoint}
    (hp' : p' ∈ y.2.query.choices.points) : p'.Comes env (.running, m) y.2 := by
  cases h with
  | plain hno _ hd =>
    rcases hd.points p' hp' with ⟨p, hp, hid, ha⟩ | ⟨hnew, a, ha, hrows⟩
    · exact .kept hp hid ha fun ⟨_, hfail, r, hr, _⟩ => nomatch (hno hfail).symm.trans hr
    · exact .made hnew ha hrows
  | @called procedure args caller next revision m₀ hgo h hd =>
    have hstays : ¬ Resuming (.running, m) p'.id := fun ⟨_, hfail, _⟩ => hgo hfail
    rcases hd.points p' hp' with ⟨p₁, hp₁, hid, ha⟩ | ⟨hnew, a, ha, hrows⟩
    · cases h.follows henv hsteps hp₁ with
      | @kept p hp hid' ha' =>
        cases h with
        | @table table predicate args next first hcode hfirst =>
          unfold Query.offeringRest at hp
          split at hp
          · rcases List.mem_cons.1 hp with rfl | hp
            · exact .called rfl ⟨⟨predicate, hcode⟩, hfirst, rfl⟩
                ((hid'.trans hid) ▸ Nat.lt_succ_self _) (ha'.trans ha).symm
            · exact .kept hp (hid'.trans hid) (ha'.trans ha) hstays
          · exact .kept hp (hid'.trans hid) (ha'.trans ha) hstays
        | direct => exact .kept hp (hid'.trans hid) (ha'.trans ha) hstays
        | redo hfail => exact absurd hfail hgo
      | made hnew ha' hrows =>
        exact .made (h.went.serial.trans_lt (hid ▸ hnew)) (ha.symm.trans ha') hrows
      | asked hid' h' hlooks hok =>
        exact h'.comes henv hsteps ho hlooks hok hturn hp' (hid.symm.trans hid')
    · have hcalled : m.Went (Act.left (callProcedure procedure args caller next revision env m₀)) :=
        h.went.trans (Act.wends_callProcedure.ends env m₀ henv.steady)
      exact .made (hcalled.serial.trans_lt hnew) ha hrows
  | @resumed r q ended rest m₁ h hd =>
    have htried := (Act.wends_start env.steps r.alternatives).ends env ⟨m.db, q⟩ henv.steady
    rw [h.tried] at htried
    have hback : m.Went ⟨m.db, q⟩ := Query.went_retreat h.back
    rcases hd.points p' hp' with ⟨p, hp, hid, ha⟩ | ⟨hnew, a, ha, hrows⟩
    · rcases ((hback.trans htried).ordered ho).mem_settle hp with
        ⟨hid', hrest⟩ | ⟨hne, p₁, hp₁, hid₁, ha₁⟩
      · exact .resumed rfl h (hid'.symm.trans hid) (ha.symm.trans hrest)
      · cases h.follows henv hsteps hp₁ with
        | @kept p₀ hp₀ hid₀ ha₀ =>
          obtain ⟨above, top, below, hpoints, htop, -, -, -, rfl⟩ := Query.retreat_split h.back
          rcases List.mem_cons.1 hp₀ with rfl | hp₀
          · exact absurd ((htop.symm.trans hid₀).trans hid₁).symm hne
          · refine .kept (p := p₀) ?_ ((hid₀.trans hid₁).trans hid) ((ha₀.trans ha₁).trans ha) ?_
            · rw [hpoints]
              exact List.mem_append_right _ (List.mem_cons_of_mem _ hp₀)
            · rintro ⟨-, -, r', hr', hid'⟩
              cases (congrArg Prod.fst h.back).symm.trans hr'
              exact hne (hid.trans hid'.symm)
        | made hnew ha₀ hrows =>
          exact .made (hback.serial.trans_lt ((hid₁.trans hid) ▸ hnew))
            ((ha₁.trans ha).symm.trans ha₀) hrows
        | asked hid₀ h' hlooks hok =>
          exact h'.comes henv hsteps ho hlooks hok hturn hp'
            ((hid₁.trans hid).symm.trans hid₀)
    · rw [serial_settle] at hnew
      exact .made ((hback.trans htried).serial.trans_lt hnew) ha hrows

end

/-- Every point that is there after a query has taken its turn comes from
somewhere. -/
theorem Course.comes (hx : Course x) (henv : env.Proper) (hsteps : 0 < env.steps)
    (h : Act.Advance env x y) {p' : ChoicePoint} (hp' : p' ∈ y.2.query.choices.points) :
    p'.Comes env x y.2 := by
  have ho := hx.holds.ordered
  have hadvance : Act.advance x.1 env x.2 = .ok y.1 y.2 := h
  obtain ⟨phase, m⟩ := x
  rcases Act.turned_advance (m := m) henv.steady phase with ⟨rfl, hturned⟩ | ⟨hphase, hdeed⟩
  · rw [hadvance] at hturned
    exact hturned.comes henv hsteps ho h hp'
  · rw [hadvance] at hdeed
    rcases hdeed.points p' hp' with ⟨p, hp, hid, ha⟩ | ⟨hnew, a, ha, hrows⟩
    · exact .kept hp hid ha fun hr => hphase hr.1
    · exact .made hnew ha hrows

/-- A point with an old number was there, or the turn has gone back to it. -/
theorem ChoicePoint.Comes.old {m' : Machine} {p' : ChoicePoint} (h : p'.Comes env x m')
    (hid : p'.id ≤ x.2.query.choices.serial) :
    (¬ Resuming x p'.id
        ∧ ∃ p ∈ x.2.query.choices.points, p.id = p'.id ∧ p.alternatives = p'.alternatives)
      ∨ ∃ r q ended rest m₁, x.1 = .running ∧ x.2.Resumes env r q ended rest m₁ ∧ r.id = p'.id
        ∧ p'.alternatives = some rest := by
  cases h with
  | kept hp hid ha hr => exact .inl ⟨hr, _, hp, hid, ha⟩
  | called _ _ hnew _ => exact absurd hid hnew.not_ge
  | asked _ _ hnew _ _ => exact absurd hid hnew.not_ge
  | made hnew _ _ => exact absurd hid hnew.not_ge
  | resumed hphase h hid ha => exact .inr ⟨_, _, _, _, _, hphase, h, hid, ha⟩

-- ================================================== rows on offer

namespace Alternatives

/-- What is left of alternatives is of their kind. -/
def Follows (a : Alternatives) : Alternatives → Prop
  | .rows snapshot _ args next caller revision =>
    ∃ i, a = .rows snapshot i args next caller revision
  | .matching p snapshot _ pattern remove => ∃ i, a = .matching p snapshot i pattern remove
  | _ => True

theorem follows_next? {a rest : Alternatives} {trial : Trial} (h : a.next? = some (trial, rest)) :
    a.Follows rest := by
  cases a with
  | rows snapshot index args next caller revision =>
    simp only [next?] at h
    split at h <;> cases h
    exact ⟨_, rfl⟩
  | matching p snapshot index pattern remove =>
    simp only [next?] at h
    split at h <;> cases h
    exact ⟨_, rfl⟩
  | branches codes | candidates codes =>
    cases codes <;> cases h
    trivial
  | barrier => cases h
  | collected | once =>
    cases h
    trivial
  | range next =>
    cases next with
    | none => cases h
    | some n =>
      simp only [next?] at h
      split at h <;> cases h
      trivial
  | substrings =>
    simp only [next?] at h
    split at h <;> cases h
    trivial

theorem Follows.refl (a : Alternatives) : a.Follows a := by
  cases a with
  | rows | matching => exact ⟨_, rfl⟩
  | _ => trivial

theorem Follows.trans {a b c : Alternatives} (h : a.Follows b) (h' : b.Follows c) :
    a.Follows c := by
  cases c with
  | rows | matching =>
    obtain ⟨i, rfl⟩ := h'
    exact h
  | _ => trivial

theorem follows_start {a rest : Alternatives} {ended : Except Failure Code} {m m' : Machine}
    (steps : Nat) (h : a.start steps env m = .ok (ended, rest) m') : a.Follows rest := by
  induction steps generalizing a m with
  | zero =>
    cases h
    exact .refl _
  | succ steps ih =>
    rw [start_succ] at h
    cases hnext : a.next? with
    | none =>
      rw [hnext] at h
      cases h
      exact .refl _
    | some next =>
      obtain ⟨trial, later⟩ := next
      rw [hnext] at h
      dsimp only at h
      have hlater := follows_next? hnext
      cases hr : trial.run env m with
      | error e m₁ =>
        rw [hr] at h
        cases h
        exact hlater
      | ok code m₁ =>
        rw [hr] at h
        cases code with
        | some code =>
          cases h
          exact hlater
        | none => exact hlater.trans (ih h)

/-- Rows that are left come from rows. -/
theorem Follows.rows? {a rest : Alternatives} (h : a.Follows rest) {left : List Row}
    (hrest : rest.rows? = some left) : ∃ before, a.rows? = some before := by
  cases rest with
  | rows | matching =>
    obtain ⟨i, rfl⟩ := h
    exact ⟨_, rfl⟩
  | _ => cases hrest

/-- Taking up rows that are on offer, and what is left of them: the next row
is called, or clauses are tried until one fits. -/
inductive Takes (env : Env) (m : Machine) :
    Alternatives → List Row → Alternatives → Except Failure Code → Machine → Prop
  | call {snapshot : Array Row} {index : Nat} {row : Row} {args : List Term} {next code : Code}
      {caller : FrameId} {revision : Nat} {m' : Machine} (hrow : snapshot[index]? = some row)
      (h : callProcedure row.procedure args caller next revision env m = .ok code m') :
    Takes env m (.rows snapshot index args next caller revision) [row]
      (.rows snapshot (index + 1) args next caller revision) (.ok code) m'
  | raise {snapshot : Array Row} {index : Nat} {row : Row} {args : List Term} {next : Code}
      {caller : FrameId} {revision : Nat} {e : Failure} {m' : Machine}
      (hrow : snapshot[index]? = some row)
      (h : callProcedure row.procedure args caller next revision env m = .error e m') :
    Takes env m (.rows snapshot index args next caller revision) [row]
      (.rows snapshot (index + 1) args next caller revision) (.error e) m'
  | scan {p : Predicate} {snapshot : Array Row} {i j : Nat} {pattern : Term} {remove : Bool}
      {tried : List Row} {ended : Except Failure Code} {m' : Machine}
      (hrows : snapshot.toList.drop i = tried ++ snapshot.toList.drop j)
      (h : Trial.Scans env p pattern remove m tried (snapshot.toList.drop j) ended m') :
    Takes env m (.matching p snapshot i pattern remove) tried
      (.matching p snapshot j pattern remove) ended m'

/-- The rows on offer are those that are taken up and those that are left. -/
theorem Takes.split {m m' : Machine} {a rest : Alternatives} {taken : List Row}
    {ended : Except Failure Code} (h : a.Takes env m taken rest ended m') :
    ∃ left, rest.rows? = some left ∧ a.rows? = some (taken ++ left) := by
  cases h with
  | call hrow _ => exact ⟨_, rfl, congrArg some (drop_eq_cons hrow)⟩
  | raise hrow _ => exact ⟨_, rfl, congrArg some (drop_eq_cons hrow)⟩
  | scan hrows _ => exact ⟨_, rfl, congrArg some hrows⟩

end Alternatives

/-- The rows that alternatives go through, from the first on. -/
def Alternatives.snapshot? : Alternatives → Option (Array Row)
  | .rows snapshot .. | .matching _ snapshot .. => some snapshot
  | _ => none

theorem Alternatives.Follows.snapshot? {a rest : Alternatives} (h : a.Follows rest)
    {snapshot : Array Row} (hrest : rest.snapshot? = some snapshot) : a.snapshot? = some snapshot := by
  cases rest with
  | rows | matching =>
    obtain ⟨i, rfl⟩ := h
    exact hrest
  | _ => cases hrest

/-- The row is in a table, or among those that a goal of the query goes through. -/
def Machine.Sees (m : Machine) (row : Row) : Prop :=
  row ∈ m.db.allRows ∨ ∃ p ∈ m.query.choices.points, ∃ snapshot,
    p.alternatives.bind Alternatives.snapshot? = some snapshot ∧ row ∈ snapshot

/-- The clauses that a query has on offer are rows that its database knows. -/
def Machine.Known (m : Machine) : Prop :=
  ∀ point ∈ m.query.choices.points, ∀ p snapshot i pattern remove,
    point.alternatives = some (.matching p snapshot i pattern remove) →
      ∀ row ∈ snapshot, m.db.Knows row

/-- The point that is gone back to is on the stack. -/
theorem Machine.Resumes.point {m m₁ : Machine} {r : Resumption} {q : Query}
    {ended : Except Failure Code} {rest : Alternatives} (h : m.Resumes env r q ended rest m₁) :
    ∃ p ∈ m.query.choices.points, p.id = r.id ∧ p.alternatives = some r.alternatives := by
  obtain ⟨above, p, below, hpoints, hid, ha, -, -, -⟩ := Query.retreat_split h.back
  exact ⟨p, hpoints ▸ by simp, hid, ha⟩

/-- What is seen of a row after a turn was seen before, or the row is new and no
other has its number. -/
theorem Turn.sees (hx : Course x) (h : Turn x y) {row : Row} (hrow : y.2.Sees row) :
    x.2.Sees row ∨ x.2.db.nextRow ≤ row.id ∧ y.2.db.Knows row := by
  -- a row that is in a table at some moment of the turn
  have hmet : ∀ d, x.2.db.Evolves d → d.Evolves y.2.db → row ∈ d.allRows →
      x.2.Sees row ∨ x.2.db.nextRow ≤ row.id ∧ y.2.db.Knows row := by
    intro d hd hd' hmem
    rcases Nat.lt_or_ge row.id x.2.db.nextRow with hlt | hge
    · exact .inl (.inl (hd.rows row hmem hlt))
    · exact .inr ⟨hge, hd'.knows ((hd.numbered hx.holds.numbered).knows hmem)⟩
  rcases hrow with hmem | ⟨p', hp', snapshot, hsnapshot, hrow⟩
  · exact hmet _ h.went.db (.refl _) hmem
  cases h with
  | others _ _ => exact .inl (.inr ⟨p', hp', snapshot, hsnapshot, hrow⟩)
  | own steps thunks hsteps hadvance =>
    have henv := Env.proper_nested steps thunks
    have hevolves := (went_of_advance henv.steady hadvance).db
    cases hx.comes henv (steps_nested hsteps) hadvance hp' with
    | @kept p hp _ ha _ => exact .inl (.inr ⟨p, hp, snapshot, ha ▸ hsnapshot, hrow⟩)
    | called _ _ _ ha =>
      rw [ha] at hsnapshot
      cases hsnapshot
      exact hmet _ (.refl _) hevolves (Database.mem_allRows_of_rowsAt hrow)
    | asked _ _ _ _ ha =>
      rw [ha] at hsnapshot
      cases hsnapshot
      exact hmet _ hevolves (.refl _) (Database.mem_allRows_of_rowsOf hrow)
    | @made a _ ha hrows =>
      rw [ha, Option.bind_some] at hsnapshot
      cases a with
      | rows | matching => cases hrows
      | _ => cases hsnapshot
    | @resumed r q ended rest m₁ _ hresumes _ ha =>
      rw [ha, Option.bind_some] at hsnapshot
      obtain ⟨p, hp, -, hp'⟩ := hresumes.point
      refine .inl (.inr ⟨p, hp, snapshot, ?_, hrow⟩)
      rw [hp', Option.bind_some]
      exact (Alternatives.follows_start _ hresumes.tried).snapshot? hsnapshot

/-- No row has the number of a row that is seen but that row. -/
theorem Course.knows (h : Course x) {row : Row} (hrow : x.2.Sees row) : x.2.db.Knows row := by
  induction h with
  | start _ _ hn =>
    rcases hrow with hmem | ⟨p, hp, -⟩
    · exact hn.knows hmem
    · exact absurd hp List.not_mem_nil
  | turn hx ht ih =>
    rcases ht.sees hx hrow with hrow | ⟨-, hknows⟩
    · exact ht.went.db.knows (ih hrow)
    · exact hknows

theorem Course.known (h : Course x) : x.2.Known := fun point hp _ snapshot _ _ _ ha _ hrow =>
  h.knows (.inr ⟨point, hp, snapshot, by rw [ha]; rfl, hrow⟩)

/-- Where a query goes back to the clauses that it has on offer, they are on offer. -/
theorem Course.offers {m m₁ : Machine} (hx : Course (.running, m)) {id i : Nat} {p : Predicate}
    {snapshot : Array Row} {pattern : Term} {remove : Bool} {q : Query}
    {ended : Except Failure Code} {rest : Alternatives}
    (h : m.Resumes env ⟨id, .matching p snapshot i pattern remove⟩ q ended rest m₁) :
    Machine.Offers ⟨m.db, q⟩ snapshot pattern := by
  obtain ⟨entry, hquery⟩ := hx.holds.query
  obtain ⟨hsound, hfits⟩ := hquery.sound.retreat h.back
  obtain ⟨point, hpoint, -, ha⟩ := h.point
  exact ⟨hx.holds.db, hx.holds.numbered, hx.known point hpoint p snapshot i pattern remove ha, hsound,
    hfits.1, hfits.2⟩

/-- A query that goes back to a point with rows takes up rows there. -/
theorem Course.takes {m m₁ : Machine} (hx : Course (.running, m)) (henv : env.Proper)
    (hsteps : 0 < env.steps) {r : Resumption} {q : Query} {ended : Except Failure Code}
    {rest : Alternatives} (h : m.Resumes env r q ended rest m₁) {left : List Row}
    (hrows : r.alternatives.rows? = some left) :
    ∃ taken, r.alternatives.Takes env ⟨m.db, q⟩ taken rest ended m₁ := by
  obtain ⟨id, a⟩ := r
  cases a with
  | rows snapshot index args next caller revision =>
    obtain ⟨row, hrow, -, rfl, hcall⟩ := h.calls hsteps
    cases ended with
    | ok code => exact ⟨_, .call hrow hcall⟩
    | error e => exact ⟨_, .raise hrow hcall⟩
  | matching p snapshot i pattern remove =>
    obtain ⟨j, tried, rfl, hdrop, hscans⟩ :=
      Alternatives.scans_start henv env.steps (hx.offers h) h.tried
    exact ⟨tried, .scan hdrop hscans⟩
  | _ => cases hrows

/-- The goal that has left the choice point `id`, with the alternatives `goal`,
was called when `offered` were the rows of its predicate. It has taken up the rows
`taken` since, in this order, and `left` are still on offer. -/
inductive Considers (id : Nat) (goal : Alternatives) (offered : List Row) :
    Phase × Machine → List Row → List Row → Prop
  /-- The call of a table takes up the first row. -/
  | called {m m₁ : Machine} {y : Phase × Machine} {steps thunks table : Nat} {args : List Term}
      {next : Code} {first : Row} {left : List Row} {p : ChoicePoint}
      (hgoal : goal = .rows (m.db.rowsAt table) 1 args next m.query.callee m.query.ancestry)
      (hx : Course (.running, m)) (hsteps : 0 < steps)
      (hturn : Act.Advance (Env.nested steps thunks) (.running, m) y)
      (hcall : m.Calls (Env.nested steps thunks) table args next first m₁)
      (hoffered : (m.db.rowsAt table).toList = offered) (hleft : offered = first :: left)
      (hp : p ∈ y.2.query.choices.points) (hid : p.id = id) (ha : p.alternatives = some goal) :
    Considers id goal offered y [first] left
  /-- The call of `clause/2` or `retract/1` takes up none. -/
  | matched {m m₀ : Machine} {y : Phase × Machine} {steps thunks : Nat} {builtin : Framed}
      {args : List Term} {caller : FrameId} {next : Code} {revision : Nat} {head body : Term}
      {remove : Bool} {p : Predicate} {serial : Nat} {point : ChoicePoint}
      (hgoal : goal = .matching p (y.2.db.rowsOf p) 0 (.build serial ":-" [head, body]) remove)
      (hx : Course (.running, m)) (hsteps : 0 < steps)
      (hturn : Act.Advance (Env.nested steps thunks) (.running, m) y)
      (hcall : m.Invokes (.framed builtin) args caller next revision m₀)
      (hwants : m₀.Wants builtin args caller next revision y.2 head body remove p)
      (hoffered : (y.2.db.rowsOf p).toList = offered) (hp : point ∈ y.2.query.choices.points)
      (hid : point.id = id) (ha : point.alternatives = some goal) :
    Considers id goal offered y [] offered
  /-- Others have changed the database. -/
  | waited {phase : Phase} {m : Machine} {db : Database} {taken left : List Row}
      (h : Considers id goal offered (phase, m) taken left) (hdb : db.Sound)
      (he : m.db.Evolves db) : Considers id goal offered (phase, ⟨db, m.query⟩) taken left
  /-- The query has done something else. -/
  | elsewhere {x y : Phase × Machine} {steps thunks : Nat} {taken left : List Row}
      (h : Considers id goal offered x taken left) (hsteps : 0 < steps)
      (hturn : Act.Advance (Env.nested steps thunks) x y) (hr : ¬ Resuming x id) :
    Considers id goal offered y taken left
  /-- The query has gone back to the point. -/
  | resumed {m m₁ : Machine} {y : Phase × Machine} {steps thunks : Nat} {a rest : Alternatives}
      {q : Query} {ended : Except Failure Code} {taken left now left' : List Row}
      (h : Considers id goal offered (.running, m) taken left) (hsteps : 0 < steps)
      (hturn : Act.Advance (Env.nested steps thunks) (.running, m) y)
      (hr : m.Resumes (Env.nested steps thunks) ⟨id, a⟩ q ended rest m₁)
      (hnow : a.Takes (Env.nested steps thunks) ⟨m.db, q⟩ now rest ended m₁)
      (hleft : rest.rows? = some left') : Considers id goal offered y (taken ++ now) left'

namespace Considers

variable {id : Nat} {goal : Alternatives} {offered taken left : List Row}

theorem course (h : Considers id goal offered x taken left) : Course x := by
  induction h with
  | called _ hx hsteps hturn => exact hx.turn (.own _ _ hsteps hturn)
  | matched _ hx hsteps hturn => exact hx.turn (.own _ _ hsteps hturn)
  | waited _ hdb he ih => exact ih.turn (.others hdb he)
  | elsewhere _ hsteps hturn _ ih => exact ih.turn (.own _ _ hsteps hturn)
  | resumed _ hsteps hturn _ _ _ ih => exact ih.turn (.own _ _ hsteps hturn)

/-- As long as the point is there, it has what is left of the goal, and that has
`left` on offer. -/
structure Stands (id : Nat) (goal : Alternatives) (left : List Row) (x : Phase × Machine) : Prop where
  id_le : id ≤ x.2.query.choices.serial
  offer : ∀ p ∈ x.2.query.choices.points, p.id = id →
    ∃ a, p.alternatives = some a ∧ goal.Follows a ∧ a.rows? = some left

theorem stands (h : Considers id goal offered x taken left) : Stands id goal left x := by
  -- the point that a goal has just left is the only one with its number
  have hnew : ∀ {x y : Phase × Machine} {steps thunks : Nat} {p : ChoicePoint} {left : List Row},
      Course x → 0 < steps → Act.Advance (Env.nested steps thunks) x y →
        p ∈ y.2.query.choices.points → p.id = id → p.alternatives = some goal →
          goal.rows? = some left → Stands id goal left y := by
    intro x y steps thunks p left hx hsteps hturn hp hid ha hleft
    have ho := (hx.turn (.own _ _ hsteps hturn)).holds.ordered
    refine ⟨hid ▸ ho.le_serial p hp, fun p' hp' hid' => ?_⟩
    obtain rfl := ho.eq_of_id hp hp' (hid.trans hid'.symm)
    exact ⟨goal, ha, .refl goal, hleft⟩
  induction h with
  | called hgoal hx hsteps hturn hcall hoffered hleft hp hid ha =>
    refine hnew hx hsteps hturn hp hid ha ?_
    rw [hgoal, Alternatives.rows?, hoffered, hleft]
    rfl
  | matched hgoal hx hsteps hturn hcall hwants hoffered hp hid ha =>
    refine hnew hx hsteps hturn hp hid ha ?_
    rw [hgoal, Alternatives.rows?, hoffered]
    rfl
  | waited _ _ _ ih => exact ⟨ih.id_le, ih.offer⟩
  | @elsewhere x y steps thunks taken left h hsteps hturn hr ih =>
    have henv := Env.proper_nested steps thunks
    refine ⟨ih.id_le.trans (went_of_advance henv.steady hturn).serial, fun p' hp' hid' => ?_⟩
    obtain ⟨-, p, hp, hid, ha⟩ | ⟨r, q, ended, rest, m₁, hphase, hresumes, hid, -⟩ :=
      (h.course.comes henv (steps_nested hsteps) hturn hp').old (hid' ▸ ih.id_le)
    · exact ha ▸ ih.offer p hp (hid.trans hid')
    · exact absurd ⟨hphase, hresumes.fails, _, congrArg Prod.fst hresumes.back, hid.trans hid'⟩ hr
  | @resumed m m₁ y steps thunks a rest q ended taken left now left' h hsteps hturn hr hnow hleft ih =>
    have henv := Env.proper_nested steps thunks
    refine ⟨ih.id_le.trans (went_of_advance henv.steady hturn).serial, fun p' hp' hid' => ?_⟩
    obtain ⟨hno, -⟩ | ⟨r, q', ended', rest', m₁', -, hresumes, -, ha⟩ :=
      (h.course.comes henv (steps_nested hsteps) hturn hp').old (hid' ▸ ih.id_le)
    · exact absurd ⟨rfl, hr.fails, _, congrArg Prod.fst hr.back, hid'.symm⟩ hno
    · -- going back is a function of the query
      cases hr.back.symm.trans hresumes.back
      cases hr.tried.symm.trans hresumes.tried
      obtain ⟨p, hp, hid, hp'⟩ := hr.point
      obtain ⟨a', ha', hfollows, -⟩ := ih.offer p hp hid
      cases hp'.symm.trans ha'
      exact ⟨rest, ha, hfollows.trans (Alternatives.follows_start _ hr.tried), hleft⟩

/-- Where the query goes back to the point, it finds what is left. -/
theorem rows_of_resumes {m m₁ : Machine} {r : Resumption} {q : Query} {ended : Except Failure Code}
    {rest : Alternatives} (h : Considers r.id goal offered (.running, m) taken left)
    (hr : m.Resumes env r q ended rest m₁) :
    goal.Follows r.alternatives ∧ r.alternatives.rows? = some left := by
  obtain ⟨p, hp, hid, ha⟩ := hr.point
  obtain ⟨a, ha', hfollows, hleft⟩ := h.stands.offer p hp hid
  cases ha.symm.trans ha'
  exact ⟨hfollows, hleft⟩

/-- The rows that a goal has taken up and those it has left are the rows that
its predicate had when it was called. -/
theorem exact (h : Considers id goal offered x taken left) : offered = taken ++ left := by
  induction h with
  | called _ _ _ _ _ _ hleft => exact hleft
  | matched => rfl
  | waited _ _ _ ih => exact ih
  | elsewhere _ _ _ _ ih => exact ih
  | @resumed m m₁ y steps thunks a rest q ended taken left now left' h _ _ hr hnow hleft ih =>
    obtain ⟨-, hoffer⟩ := h.rows_of_resumes hr
    obtain ⟨left₁, hleft₁, hall⟩ := hnow.split
    cases hleft.symm.trans hleft₁
    cases hoffer.symm.trans hall
    rw [ih, List.append_assoc]

/-- No row is on offer twice. -/
theorem nodup (h : Considers id goal offered x taken left) : (offered.map Row.id).Nodup := by
  induction h with
  | called _ hx _ _ _ hoffered => exact hoffered ▸ hx.holds.numbered.nodup_rowsAt _
  | matched _ hx hsteps hturn _ _ hoffered =>
    exact hoffered ▸ (hx.turn (.own _ _ hsteps hturn)).holds.numbered.nodup_rowsOf _
  | waited _ _ _ ih => exact ih
  | elsewhere _ _ _ _ ih => exact ih
  | resumed _ _ _ _ _ _ ih => exact ih

/-- Whatever happens next, the goal takes up no rows or the next of those that are
left. -/
theorem turn (h : Considers id goal offered x taken left) (ht : Turn x y) :
    ∃ now left', Considers id goal offered y (taken ++ now) left' := by
  cases ht with
  | others hdb he => exact ⟨[], left, (List.append_nil taken).symm ▸ h.waited hdb he⟩
  | own steps thunks hsteps hturn =>
    by_cases hresuming : Resuming x id
    · obtain ⟨phase, m⟩ := x
      obtain ⟨rfl, hfail, r, hfound, rfl⟩ := hresuming
      have henv := Env.proper_nested steps thunks
      have hback : m.query.retreat = (some r, m.query.retreat.2) := Prod.ext hfound rfl
      obtain ⟨ended, rest, m₁, hstart⟩ :=
        Act.start_ok _ r.alternatives (Env.nested steps thunks) ⟨m.db, m.query.retreat.2⟩
      have hr : m.Resumes (Env.nested steps thunks) r _ ended rest m₁ := ⟨hfail, hback, hstart⟩
      obtain ⟨now, hnow⟩ := h.course.takes henv (steps_nested hsteps) hr (h.rows_of_resumes hr).2
      obtain ⟨left', hleft', -⟩ := hnow.split
      exact ⟨now, left', h.resumed hsteps hturn hr hnow hleft'⟩
    · exact ⟨[], left, (List.append_nil taken).symm ▸ h.elsewhere hsteps hturn hresuming⟩

/-- From its call on, a goal keeps to the rows that were there then. -/
theorem run (h : Considers id goal offered x taken left) (hr : Relation.ReflTransGen Turn x y) :
    ∃ now left', Considers id goal offered y (taken ++ now) left' := by
  induction hr with
  | refl => exact ⟨[], left, (List.append_nil taken).symm ▸ h⟩
  | tail _ ht ih =>
    obtain ⟨now, left', h⟩ := ih
    obtain ⟨now', left'', h⟩ := h.turn ht
    exact ⟨now ++ now', left'', List.append_assoc taken now now' ▸ h⟩

end Considers

/-- A call puts no rows on offer if there are none but the first. -/
theorem Machine.Calls.rows {m m₁ : Machine} {table : Nat} {args : List Term} {next : Code}
    {first : Row} (h : m.Calls env table args next first m₁) :
    ∃ left, (m.db.rowsAt table).toList = first :: left :=
  ⟨_, Alternatives.drop_eq_cons h.row⟩

/-- Every goal with rows on offer, wherever its query has got to, has
considered rows of its predicate in order since it was called. -/
theorem Course.considers (hx : Course x) {p : ChoicePoint} (hp : p ∈ x.2.query.choices.points)
    {a : Alternatives} (ha : p.alternatives = some a) {left : List Row}
    (hrows : a.rows? = some left) :
    ∃ goal offered taken, Considers p.id goal offered x taken left := by
  induction hx generalizing p a left with
  | start => exact absurd hp List.not_mem_nil
  | @turn x y hx ht ih =>
    cases ht with
    | others hdb he =>
      obtain ⟨goal, offered, taken, h⟩ := ih hp ha hrows
      exact ⟨goal, offered, taken, h.waited hdb he⟩
    | own steps thunks hsteps hturn =>
      have henv := Env.proper_nested steps thunks
      cases hx.comes henv (steps_nested hsteps) hturn hp with
      | kept hp₀ hid ha₀ hr =>
        obtain ⟨goal, offered, taken, h⟩ := ih hp₀ (ha₀.trans ha) hrows
        rw [hid] at h
        exact ⟨goal, offered, taken, h.elsewhere hsteps hturn hr⟩
      | called hphase hcall hnew ha' =>
        obtain ⟨phase, m⟩ := x
        cases hphase
        cases ha.symm.trans ha'
        obtain ⟨later, hlater⟩ := hcall.rows
        rw [Alternatives.rows?, hlater] at hrows
        cases hrows
        exact ⟨_, _, _, .called rfl hx hsteps hturn hcall rfl hlater hp rfl ha⟩
      | asked hphase hcall _ hwants ha' =>
        obtain ⟨phase, m⟩ := x
        cases hphase
        cases ha.symm.trans ha'
        cases hrows
        exact ⟨_, _, _, .matched rfl hx hsteps hturn hcall hwants rfl hp rfl ha⟩
      | made _ ha' hnone =>
        cases ha.symm.trans ha'
        exact nomatch hnone.symm.trans hrows
      | @resumed r q ended rest m₁ hphase hresumes hid ha' =>
        obtain ⟨phase, m⟩ := x
        cases hphase
        cases ha.symm.trans ha'
        obtain ⟨before, hbefore⟩ := (Alternatives.follows_start _ hresumes.tried).rows? hrows
        obtain ⟨p₀, hp₀, hid₀, ha₀⟩ := hresumes.point
        obtain ⟨goal, offered, taken, h⟩ := ih hp₀ ha₀ hbefore
        obtain ⟨now, hnow⟩ := hx.takes henv (steps_nested hsteps) hresumes hbefore
        obtain ⟨id, a⟩ := r
        rw [hid₀, hid] at h
        obtain rfl : id = p.id := hid
        exact ⟨goal, offered, _, h.resumed hsteps hturn hresumes hnow hrows⟩

/-- A query has these clauses on offer: since a turn in which it called `clause/2` or
`retract/1`, whose arguments asked for what the pattern says. The rows are those
that the predicate had then. -/
inductive Asked (p : Predicate) (snapshot : Array Row) (pattern : Term) (remove : Bool)
    (x : Phase × Machine) : Prop
  | intro {m m₀ : Machine} {y : Phase × Machine} {steps thunks : Nat} {builtin : Framed}
      {args : List Term} {caller : FrameId} {next : Code} {revision : Nat} {head body : Term}
      {serial : Nat} (hx : Course (.running, m)) (hsteps : 0 < steps)
      (hturn : Act.Advance (Env.nested steps thunks) (.running, m) y)
      (hcall : m.Invokes (.framed builtin) args caller next revision m₀)
      (hwants : m₀.Wants builtin args caller next revision y.2 head body remove p)
      (hsnapshot : snapshot = y.2.db.rowsOf p) (hpattern : pattern = .build serial ":-" [head, body])
      (hsince : Relation.ReflTransGen Turn y x)

theorem Asked.turn {p : Predicate} {snapshot : Array Row} {pattern : Term} {remove : Bool}
    (h : Asked p snapshot pattern remove x) (ht : Turn x y) : Asked p snapshot pattern remove y := by
  obtain ⟨hx, hsteps, hturn, hcall, hwants, hsnapshot, hpattern, hsince⟩ := h
  exact ⟨hx, hsteps, hturn, hcall, hwants, hsnapshot, hpattern, hsince.tail ht⟩

theorem Considers.asked {id i : Nat} {goal : Alternatives} {offered taken left : List Row}
    {p : Predicate} {snapshot : Array Row} {pattern : Term} {remove : Bool}
    (h : Considers id goal offered x taken left) (hgoal : goal = .matching p snapshot i pattern remove) :
    Asked p snapshot pattern remove x := by
  induction h with
  | called hrows => exact nomatch hrows.symm.trans hgoal
  | matched hrows hx hsteps hturn hcall hwants =>
    cases hrows.symm.trans hgoal
    exact ⟨hx, hsteps, hturn, hcall, hwants, rfl, rfl, .refl⟩
  | waited _ hdb he ih => exact ih.turn (.others hdb he)
  | elsewhere _ hsteps hturn _ ih => exact ih.turn (.own _ _ hsteps hturn)
  | resumed _ hsteps hturn _ _ _ ih => exact ih.turn (.own _ _ hsteps hturn)

/-- Clauses are on offer only where a goal has asked for them. -/
theorem Course.asked (hx : Course x) {point : ChoicePoint} (hpoint : point ∈ x.2.query.choices.points)
    {p : Predicate} {snapshot : Array Row} {i : Nat} {pattern : Term} {remove : Bool}
    (ha : point.alternatives = some (.matching p snapshot i pattern remove)) :
    Asked p snapshot pattern remove x := by
  obtain ⟨goal, offered, taken, h⟩ := hx.considers hpoint ha rfl
  obtain ⟨a, ha', hfollows, -⟩ := h.stands.offer point hpoint rfl
  cases ha.symm.trans ha'
  obtain ⟨j, hgoal⟩ := hfollows
  exact h.asked hgoal

-- ================================================== sessions

/-- What the query calls in its next turn, if that is a table with rows. -/
def Machine.invoked? (m : Machine) : Option (Procedure × List Term × Code × Machine) :=
  match m.query.next with
  | .call (.table table _) args next => (m.db.rowsAt table)[0]?.map fun first =>
    (first.procedure, args, next,
      ⟨m.db, Query.offeringRest { m.query with next := .fail } (m.db.rowsAt table) args next⟩)
  | _ => none

theorem Machine.invoked?_eq_some {m m₀ : Machine} {procedure : Procedure} {args : List Term}
    {next : Code} (h : m.invoked? = some (procedure, args, next, m₀)) :
    ∃ table predicate first, m.query.next = .call (.table table predicate) args next
      ∧ (m.db.rowsAt table)[0]? = some first ∧ first.procedure = procedure
      ∧ m₀ = ⟨m.db, Query.offeringRest { m.query with next := .fail } (m.db.rowsAt table) args next⟩ := by
  unfold invoked? at h
  split at h
  · rename_i table predicate args next hnext
    obtain ⟨first, hfirst, hcall⟩ := Option.map_eq_some_iff.1 h
    cases hcall
    exact ⟨table, predicate, first, hnext, hfirst, rfl, rfl⟩
  · cases h

/-- The machine after a turn in which the query calls a table. -/
def Machine.called? (steps : Nat) (m : Machine) : Option Machine :=
  m.invoked?.bind fun (procedure, args, next, m₀) =>
    match callProcedure procedure args m.query.callee next m.query.ancestry (Env.nested steps 0) m₀ with
    | .ok code m => some ⟨m.db, m.query.holding code⟩
    | .error _ _ => none

theorem Machine.advance_of_called? {steps : Nat} {m m' : Machine} (h : m.called? steps = some m') :
    Act.advance .running (Env.nested steps 0) m = .ok .running m' := by
  obtain ⟨⟨procedure, args, next, m₀⟩, hinvoked, h⟩ := Option.bind_eq_some_iff.1 h
  obtain ⟨table, predicate, first, hnext, hfirst, rfl, rfl⟩ := invoked?_eq_some hinvoked
  dsimp only at h
  split at h
  · rename_i code m₁ hcalled
    cases h
    rw [Act.advance_running, Act.step_table hnext hfirst, hcalled]
  · cases h

/-- The rows that `retract/1` has on offer when the query goes back to it, and
what is left of them and the machine then, if there is a solution. -/
def Machine.retracts? (steps : Nat) (m : Machine) : Option (List Row × Alternatives × Machine) :=
  match m.query.next, m.query.retreat with
  | .fail, (some ⟨_, .matching p snapshot i pattern true⟩, q) =>
    match (Alternatives.matching p snapshot i pattern true).start steps (Env.nested steps 0)
      ⟨m.db, q⟩ with
    | .ok (.ok .succeed, rest) m => some (snapshot.toList.drop i, rest, m)
    | _ => none
  | _, _ => none

theorem Machine.resumes_of_retracts? {steps : Nat} {m m₁ : Machine} {offered : List Row}
    {rest : Alternatives} (h : m.retracts? steps = some (offered, rest, m₁)) :
    ∃ id p snapshot i pattern q, m.Resumes (Env.nested steps 0)
      ⟨id, .matching p snapshot i pattern true⟩ q (.ok .succeed) rest m₁
        ∧ offered = snapshot.toList.drop i := by
  unfold retracts? at h
  split at h
  · rename_i hfail hback
    split at h
    · rename_i htried
      cases h
      exact ⟨_, _, _, _, _, _, ⟨hfail, hback, htried⟩, rfl⟩
    · cases h
  · cases h

/-- The query goes on with what trying the alternatives has given. -/
theorem Machine.Resumes.advance {m m₁ : Machine} {r : Resumption} {q : Query} {code : Code}
    {rest : Alternatives} (h : m.Resumes env r q (.ok code) rest m₁) :
    Act.advance .running env m
      = .ok .running ⟨m₁.db, (m₁.query.settle r.id rest).holding code⟩ := by
  have hsame : (⟨m.db, { m.query with next := .fail }⟩ : Machine) = m := by rw [← h.fails]
  rw [Act.advance_running, step, Act.bind_apply]
  simp only [takeNext, Act.modifyGet_apply, h.fails]
  rw [hsame, Act.bind_apply, backtrack_eq, h.back]
  simp only [h.tried]
  rfl

namespace Session

variable {strict : Bool} {s s' t : Session}

theorem Step.evolves (h : Step strict s s') : s.db.Evolves s'.db := by
  cases h with
  | request r _ => exact (Request.evolves_perform r).ends s.db
  | @opened _ goal entry db _ h =>
    have hw := (Clause.evolves_ofGoal goal false).ends s.db
    unfold Store.after at hw
    rw [h] at hw
    exact hw
  | @refused _ goal e db _ h =>
    have hw := (Clause.evolves_ofGoal goal false).ends s.db
    unfold Store.after at hw
    rw [h] at hw
    exact hw
  | @advanced db db' _ _ q q' phase phase' steps thunks _ _ _ h =>
    exact (went_of_advance (x := (phase, ⟨db, q⟩)) (y := (phase', ⟨db', q'⟩))
      (Env.steady_nested steps thunks) h).db

theorem Step.called {db : Database} {q : Query} {queries : List (Query × Phase)} {m : Machine}
    {steps : Nat} (hsteps : 0 < steps) (hm : Machine.called? steps ⟨db, q⟩ = some m) :
    Step false ⟨db, (q, .running) :: queries⟩ ⟨m.db, (m.query, .running) :: queries⟩ :=
  @Step.advanced false _ _ [] _ _ _ _ _ steps 0 hsteps nofun nofun (Machine.advance_of_called? hm)

/-- Every query of a session was there, and has taken its turn or others have
changed the database; or it has just been opened. -/
theorem Step.turns (hs : s.Holds strict) (h : Step strict s s') : ∀ e' ∈ s'.queries,
    (∃ e ∈ s.queries, Turn (e.2, ⟨s.db, e.1⟩) (e'.2, ⟨s'.db, e'.1⟩))
      ∨ ∃ entry, entry.Fits ∧ e' = (Query.start entry, .running) := by
  have hdb := (h.holds hs).db
  have hother : ∀ e ∈ s.queries, Turn (e.2, ⟨s.db, e.1⟩) (e.2, ⟨s'.db, e.1⟩) :=
    fun _ _ => .others hdb h.evolves
  cases h with
  | request r hr => exact fun e he => .inl ⟨e, he, hother e he⟩
  | refused hg hgoal => exact fun e he => .inl ⟨e, he, hother e he⟩
  | @opened _ goal entry db hg hgoal =>
    have hentry := (Clause.keeps_ofGoal hg).ends s.db hs.db
    rw [hgoal] at hentry
    intro e he
    rcases List.mem_cons.1 he with rfl | he
    · exact .inr ⟨entry, hentry.2, rfl⟩
    · exact .inl ⟨e, he, hother e he⟩
  | @advanced db db' before after q q' phase phase' steps thunks hsteps hbare hserial hadvance =>
    intro e he
    rcases List.mem_append.1 he with he | he
    · exact .inl ⟨e, List.mem_append_left _ he, hother e (List.mem_append_left _ he)⟩
    · rcases List.mem_cons.1 he with rfl | he
      · exact .inl ⟨(q, phase), by simp, .own steps thunks hsteps hadvance⟩
      · exact .inl ⟨e, by simp [he], hother e (by simp [he])⟩

theorem evolves_of_steps (h : Relation.ReflTransGen (Step strict) s t) : s.db.Evolves t.db := by
  induction h with
  | refl => exact .refl s.db
  | tail _ hs ih => exact ih.trans hs.evolves

namespace Reached

theorem numbered (h : s.Reached strict) : s.db.Numbered := by
  induction h with
  | start builtins capacity => exact Database.numbered_make builtins capacity
  | step _ hs ih => exact hs.evolves.numbered ih

/-- To each query of a session all that happens is that it takes its turn or
that others change the database. -/
theorem course (h : s.Reached strict) :
    ∀ e ∈ s.queries, Course (e.2, ⟨s.db, e.1⟩) := by
  induction h with
  | start builtins capacity => exact fun e he => absurd he List.not_mem_nil
  | @step s s' hs hstep ih =>
    intro e' he'
    rcases hstep.turns hs.holds e' he' with ⟨e, he, hturn⟩ | ⟨entry, hentry, rfl⟩
    · exact (ih e he).turn hturn
    · exact .start hentry (hs.step hstep).holds.db (hstep.evolves.numbered hs.numbered)

end Reached

/-- A query of the session finds a solution of `retract/1`, which removes the
row. -/
inductive Retracts : Session → Row → Session → Prop
  | intro {db db' d : Database} {before after : List (Query × Phase)} {q q' q₁ : Query}
      {phase' : Phase} {steps thunks id i : Nat} {p : Predicate} {snapshot : Array Row}
      {pattern : Term} {code : Code} {rest : Alternatives} {m₁ : Machine} {row : Row}
      (hsteps : 0 < steps)
      (hturn : Act.advance .running (Env.nested steps thunks) ⟨db, q⟩ = .ok phase' ⟨db', q'⟩)
      (hr : Machine.Resumes (Env.nested steps thunks) ⟨db, q⟩ ⟨id, .matching p snapshot i pattern true⟩
        q₁ (.ok code) rest m₁)
      (hcode : code ≠ .fail) (hd : db.Evolves d) (hremoves : Database.Removes p row d db') :
    Retracts ⟨db, before ++ (q, .running) :: after⟩ row ⟨db', before ++ (q', phase') :: after⟩

namespace Retracts

variable {row row' : Row}

theorem step (h : Retracts s row s') : Step false s s' := by
  cases h with
  | intro hsteps hturn => exact .advanced _ _ hsteps nofun nofun hturn

theorem mem (h : Retracts s row s') : ∃ p d, s.db.Evolves d ∧ row ∈ d.rowsOf p := by
  cases h with
  | intro _ _ _ _ hd hremoves => exact ⟨_, _, hd, hremoves.mem⟩

/-- The row is gone. -/
theorem gone (h : Retracts s row s') (hn : s.db.Numbered) : s'.db.Gone row.id := by
  cases h with
  | intro _ _ _ _ hd hremoves => exact hremoves.gone (hd.numbered hn)

/-- The row is gone for good, and no solution removes it again. -/
theorem once (h : Retracts s row s') (hn : s.db.Numbered)
    (ht : Relation.ReflTransGen (Step false) s' t) : t.db.Gone row.id
      ∧ ∀ row' t', Retracts t row' t' → row'.id ≠ row.id := by
  have hn' := h.step.evolves.numbered hn
  have hgone := (evolves_of_steps ht).gone hn' (h.gone hn)
  refine ⟨hgone, fun row' t' h' => ?_⟩
  obtain ⟨p, d, hd, hmem⟩ := h'.mem
  exact (hd.gone ((evolves_of_steps ht).numbered hn') hgone).2 p row' hmem

end Retracts

namespace Reached

end Reached

namespace Reached

/-- A turn in which `clause/2` or `retract/1` is called. -/
theorem looksUp (h : s.Reached false) {q : Query} (hq : (q, .running) ∈ s.queries)
    {builtin : Framed} {args : List Term} {caller : FrameId} {next : Code} {revision : Nat}
    {m₀ : Machine} {steps thunks : Nat} {y : Phase × Machine} (hsteps : 0 < steps)
    (hlooks : builtin.looksUp = true)
    (hcall : Machine.Invokes ⟨s.db, q⟩ (.framed builtin) args caller next revision m₀)
    (hturn : Act.Advance (Env.nested steps thunks) (.running, ⟨s.db, q⟩) y) :
    m₀.LooksUp (Env.nested steps thunks) builtin args caller next revision y :=
  hcall.looksUp (Env.proper_nested steps thunks) (steps_nested hsteps) (h.course _ hq).holds.ordered
    hlooks hturn

theorem called {db : Database} {q : Query} {queries : List (Query × Phase)} {m : Machine}
    (h : Session.Reached false ⟨db, (q, .running) :: queries⟩) {steps : Nat} (hsteps : 0 < steps)
    (hm : Machine.called? steps ⟨db, q⟩ = some m) :
    Session.Reached false ⟨m.db, (m.query, .running) :: queries⟩ := h.step (.called hsteps hm)

end Reached

end Session

end LogicMachine
