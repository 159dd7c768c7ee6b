/-
Patterns and constants.

A goal that looks for numbers or for parts of a text unifies a pattern with
one row of constants after the other. The arguments of the pattern are
variables, perhaps the same one several times, or constants themselves, or
thunks that were forced when the goal was called. What it takes for them to be
the constants is said without unification: some assignment of constants to
the cells does it (`Machine.Denotes`).

Unification at large need not end, and what it leaves is the business of
`Unifiers`. Against constants it always ends, after a number of steps that
the pattern alone decides, and it succeeds just if there is such an
assignment (`Act.unify_constants`). Solving from the left, each equation
either binds one more cell, or compares a constant with a constant, or with
one that a cell was bound to before: the assignments that are still possible
(`Query.Allows`) are at all times those that suit the equations solved so far.
-/
import LogicMachine.Proofs.Symmetry
import LogicMachine.Proofs.UpdateView

namespace LogicMachine

-- ================================================== what a term is

/-- With the cells holding what `σ` says, the term is the constant. The
wildcard is any, and a thunk is what it was forced to. -/
inductive Machine.Denotes (m : Machine) (σ : Cell → Term) : Term → Term → Prop
  | any {u : Term} : Denotes m σ (.var .wildcard) u
  | cell {t : Term} {c : Cell} {name : String} (h : m.query.frames.resolve t = .ref c name) :
      Denotes m σ t (σ c)
  | same {t u : Term} (h : m.query.frames.resolve t = u) (hu : u.isAtomic = true) : Denotes m σ t u
  | forced {t value u : Term} {id : Nat} (h : m.query.frames.resolve t = .thunk id)
      (hvalue : m.db.forced id = some value) (hu : Denotes m σ value u) : Denotes m σ t u

/-- Seeing what the term stands for forces no thunk any more; it goes through
the values of so many thunks. -/
inductive Machine.Settled (m : Machine) : Nat → Term → Prop
  | plain {t : Term} (h : ∀ id, m.query.frames.resolve t ≠ .thunk id) : Settled m 0 t
  | forced {t value : Term} {id n : Nat} (h : m.query.frames.resolve t = .thunk id)
      (hvalue : m.db.forced id = some value) (hs : Settled m n value) : Settled m (n + 1) t

/-- The terms can be the constants: the cells can hold what makes them so. -/
def Machine.CanBe (m : Machine) (ts us : List Term) : Prop :=
  ∃ σ, List.Forall₂ (m.Denotes σ) ts us

/-- Unbound cells have been bound and trailed, and nothing else was done. -/
def Query.Bound (q : Query) (cells : List Cell) (q' : Query) : Prop :=
  ∃ fs, Frames.Binds cells q.frames fs ∧ q.frames.Unbound cells
    ∧ q' = { q with frames := fs, choices := q.choices.recordAll fs cells }

/-- What a thunk was forced to is recalled without doing anything. -/
def Env.Recalls (env : Env) : Prop :=
  ∀ (id : Nat) (t : Term) (m : Machine), m.db.forced id = some t → env.force id m = .ok t m

section

variable {m : Machine} {σ : Cell → Term} {t u value : Term} {id n : Nat}

theorem Machine.denotes_cell {c : Cell} {name : String} (h : m.query.frames.resolve t = .ref c name) :
    m.Denotes σ t u ↔ σ c = u := by
  refine ⟨fun hd => ?_, fun hu => hu ▸ .cell h⟩
  cases hd with
  | any => cases h
  | cell h' =>
    cases h.symm.trans h'
    rfl
  | same h' hu =>
    cases h.symm.trans h'
    cases hu
  | forced h' => cases h.symm.trans h'

theorem Machine.denotes_forced (h : m.query.frames.resolve t = .thunk id)
    (hvalue : m.db.forced id = some value) : m.Denotes σ t u ↔ m.Denotes σ value u := by
  refine ⟨fun hd => ?_, .forced h hvalue⟩
  cases hd with
  | any => cases h
  | cell h' => cases h.symm.trans h'
  | same h' hu =>
    cases h.symm.trans h'
    cases hu
  | forced h' hvalue' hu =>
    cases h.symm.trans h'
    cases hvalue.symm.trans hvalue'
    exact hu

/-- Any other term is the constant that it stands for, if it does. -/
theorem Machine.denotes_same (hany : t.isWildcard = false)
    (hcell : ∀ c name, m.query.frames.resolve t ≠ .ref c name)
    (hthunk : ∀ id, m.query.frames.resolve t ≠ .thunk id) (hu : u.isAtomic = true) :
    m.Denotes σ t u ↔ m.query.frames.resolve t = u := by
  refine ⟨fun hd => ?_, fun h => .same h hu⟩
  cases hd with
  | any => cases hany
  | cell h => exact absurd h (hcell _ _)
  | same h => exact h
  | forced h => exact absurd h (hthunk _)

end

-- ================================================== following references

namespace Frames

/-- What a cell shows. -/
def shows (scratch : Bool) (fs : Frames) (c : Cell) : Option Term :=
  (fs.slot? c).bind (Slot.shown scratch)

/-- Every cell that is bound in `fs` shows the same in `fs'`, and one that is
not shows nothing there, or a constant. -/
structure Fills (scratch : Bool) (fs fs' : Frames) : Prop where
  room : fs.total ≤ fs'.made
  kept : ∀ {c v}, fs.shows false c = some v → fs'.shows scratch c = some v
  filled : ∀ {c s}, fs.slot? c = some s → s.value = none →
    (fs'.slot? c).isSome ∧ ∀ v, fs'.shows scratch c = some v → v.isAtomic = true

/-- What has become of a term that was a cell. -/
def refill (scratch : Bool) (fs : Frames) : Term → Term
  | .ref c name => (fs.shows scratch c).getD (.ref c name)
  | t => t

theorem refill_of_ne_ref {scratch : Bool} {fs : Frames} {t : Term} (h : ∀ c name, t ≠ .ref c name) :
    fs.refill scratch t = t := by
  cases t with
  | ref c name => exact absurd rfl (h c name)
  | _ => rfl

variable {scratch : Bool} {fs fs' : Frames}

/-- References are followed as before, and at an unbound cell one goes on to
what it shows by now. -/
theorem Fills.follow (hf : fs.Fills scratch fs') (h : fs.Sound true) {cells cells' : Nat} {c : Cell}
    (name : String) (hc : (fs.slot? c).isSome) (hlt : fs.place c < cells) (hlt' : fs.place c < cells') :
    fs'.follow scratch cells' c name = fs'.refill scratch (fs.follow false cells c name) := by
  induction cells generalizing cells' c name with
  | zero => exact absurd hlt (Nat.not_lt_zero _)
  | succ cells ih =>
    obtain ⟨cells', rfl⟩ := Nat.exists_eq_add_of_le' (Nat.one_le_of_lt hlt')
    obtain ⟨s, hs⟩ := Option.isSome_iff_exists.1 hc
    simp only [Frames.follow, hs]
    cases hv : s.value with
    | none =>
      have hshown : Slot.shown false s = none := by simp [Slot.shown, hv]
      obtain ⟨hsome, hatomic⟩ := hf.filled hs hv
      obtain ⟨s', hs'⟩ := Option.isSome_iff_exists.1 hsome
      have hshows : fs'.shows scratch c = Slot.shown scratch s' := by simp [shows, hs']
      simp only [hshown, hs', refill, hshows]
      cases hshown' : Slot.shown scratch s' with
      | none => rfl
      | some v =>
        have := hatomic v (hshows.trans hshown')
        cases v with
        | ref => cases this
        | _ => rfl
    | some v =>
      have hshown : Slot.shown false s = some v := by simp [Slot.shown, hv]
      have hkept := hf.kept (c := c) (v := v) (by simp [shows, hs, hshown])
      obtain ⟨s', hs', hshown'⟩ := Option.bind_eq_some_iff.1 hkept
      simp only [hshown, hs', hshown']
      cases v with
      | ref d m =>
        have hd : (fs.slot? d).isSome := (Term.fits_ref.1 (h.value hs (.inl hv))).2 rfl
        have := place_lt_place hd (h.descends hs (.inl hv))
        exact ih m hd (by omega) (by omega)
      | _ => rfl

theorem Fills.resolve_ref (hf : fs.Fills scratch fs') (h : fs.Sound true) (hw : fs.Within) {c : Cell}
    (name : String) (hc : (fs.slot? c).isSome) :
    fs'.follow scratch (fs'.made + 1) c name = fs'.refill scratch (fs.resolve (.ref c name)) := by
  have hlt := place_lt_total hc
  exact hf.follow h name hc (hlt.trans_le (hw.trans (Nat.le_succ _)))
    (hlt.trans_le (hf.room.trans (Nat.le_succ _)))

/-- A side of an equation that is read in no frame. -/
theorem Fills.side (hf : fs.Fills true fs') (h : fs.Sound true) (hw : fs.Within) {t : Term}
    (ht : t.Live (fs.world true)) : fs'.side t none = fs'.refill true (fs.resolve t) := by
  cases t with
  | ref c name => exact hf.resolve_ref h hw name ((Term.fits_ref.1 ht).2 rfl)
  | var v => cases v <;> rfl
  | _ => rfl

theorem Fills.resolve (hf : fs.Fills false fs') (h : fs.Sound true) (hw : fs.Within) {t : Term}
    (ht : t.Live (fs.world true)) : fs'.resolve t = fs'.refill false (fs.resolve t) := by
  cases t with
  | ref c name => exact hf.resolve_ref h hw name ((Term.fits_ref.1 ht).2 rfl)
  | _ => rfl

end Frames

-- ================================================== solving against constants

/-- The query while a pattern is solved against constants: the cells bound
tentatively hold constants. -/
structure Filling (q q' : Query) : Prop extends Act.Underway q q' [] where
  constant : ∀ {c s t}, q'.frames.slot? c = some s → s.scratch = some t → t.isAtomic = true

/-- The assignment gives each cell what it is bound to tentatively. -/
def Query.Allows (q : Query) (σ : Cell → Term) : Prop :=
  ∀ c s t, q.frames.slot? c = some s → s.scratch = some t → σ c = t

section

variable {q q' : Query} {db : Database} {t u : Term} {n : Nat}

theorem Filling.start (hq : q.Sound true) : Filling q q :=
  ⟨.start hq fun _ he => absurd he List.not_mem_nil,
    fun hs ht => nomatch (hq.blank hs).symm.trans ht⟩

theorem Query.Sound.allows (hq : q.Sound true) (σ : Cell → Term) : q.Allows σ :=
  fun _ _ _ hs ht => nomatch (hq.blank hs).symm.trans ht

/-- Some assignment is possible. -/
theorem Query.exists_allows (q : Query) : ∃ σ, q.Allows σ := by
  refine ⟨fun c => (((q.frames.slot? c).bind (·.scratch)).getD .nil), fun c s t hs ht => ?_⟩
  simp [hs, ht]

/-- What a cell unbound in `q` shows is what it was bound to meanwhile. -/
theorem Filling.shows_eq (h : Filling q q') {c : Cell} {s : Slot} (hs : q.frames.slot? c = some s)
    (hvalue : s.value = none) : ∃ s', q'.frames.slot? c = some s'
      ∧ Frames.Slot.shown true s' = s'.scratch ∧ q'.frames.shows true c = s'.scratch := by
  have hc := h.values c
  rw [hs, Option.map_some, hvalue] at hc
  obtain ⟨s', hs', hvalue'⟩ := Option.map_eq_some_iff.1 hc
  have hshown : Frames.Slot.shown true s' = s'.scratch := by simp [Frames.Slot.shown, hvalue']
  exact ⟨s', hs', hshown, by simp [Frames.shows, hs', hshown]⟩

theorem Filling.fills (h : Filling q q') (hq : q.Sound true) : q.frames.Fills true q'.frames where
  room := hq.within.trans h.solving.tentative.made.ge
  kept := by
    intro c v hv
    obtain ⟨s, hs, hshown⟩ := Option.bind_eq_some_iff.1 hv
    have hvalue : s.value = some v := by
      unfold Frames.Slot.shown at hshown
      cases hvalue : s.value <;> simp_all
    have hc := h.values c
    rw [hs, Option.map_some, hvalue] at hc
    obtain ⟨s', hs', hvalue'⟩ := Option.map_eq_some_iff.1 hc
    simp [Frames.shows, hs', Frames.Slot.shown, hvalue']
  filled := by
    intro c s hs hvalue
    obtain ⟨s', hs', -, hshows⟩ := h.shows_eq hs hvalue
    exact ⟨by simp [hs'], fun v hv => h.constant hs' (hshows.symm.trans hv)⟩

/-- One more cell is bound to a constant. -/
theorem Filling.bind (h : Filling q q') {c : Cell} {s : Slot} (hs : q'.frames.slot? c = some s)
    (hshown : Frames.Slot.shown true s = none) (hu : u.isAtomic = true) :
    Filling q { q' with frames := q'.frames.scratched c u, pending := c :: q'.pending } := by
  have hlive : u.Live (q'.frames.world true) := by
    cases u with
    | atom | number | host => trivial
    | _ => cases hu
  have hsound : (Verdict.bind c "" u).Sound true q'.frames :=
    ⟨hlive, fun _ => ⟨s, hs, hshown⟩, by rintro d name rfl; cases hu⟩
  refine ⟨(h.toUnderway.bind hsound).2, ?_⟩
  intro d s' t' hs' ht'
  rw [Frames.slot?_modifySlot_eq] at hs'
  split at hs'
  · rename_i hdc
    subst hdc
    rw [hs] at hs'
    cases hs'
    cases ht'
    exact hu
  · exact h.constant hs' ht'

/-- What is possible with one more cell bound. -/
theorem Query.allows_bind {c : Cell} {s : Slot} (hs : q.frames.slot? c = some s)
    (hshown : Frames.Slot.shown true s = none) (σ : Cell → Term) :
    Query.Allows { q with frames := q.frames.scratched c u, pending := c :: q.pending } σ
      ↔ q.Allows σ ∧ σ c = u := by
  have hscratch : s.scratch = none := by
    have hvalue := Frames.value_of_shown hshown
    simpa [Frames.Slot.shown, hvalue] using hshown
  constructor
  · intro h
    have hc : σ c = u := h c { s with scratch := some u } u
      (by rw [Frames.slot?_modifySlot, hs]; rfl) rfl
    refine ⟨fun d s' t' hs' ht' => ?_, hc⟩
    by_cases hd : d = c
    · subst hd
      cases hs.symm.trans hs'
      cases hscratch.symm.trans ht'
    · exact h d s' t' (by rw [Frames.slot?_modifySlot_of_ne _ _ hd]; exact hs') ht'
  · rintro ⟨h, hc⟩ d s' t' hs' ht'
    by_cases hd : d = c
    · subst hd
      rw [Frames.slot?_modifySlot, hs] at hs'
      cases hs'
      cases ht'
      exact hc
    · rw [Frames.slot?_modifySlot_of_ne _ _ hd] at hs'
      exact h d s' t' hs' ht'

/-- A cell that is still unbound can hold anything. -/
theorem Query.Allows.update {σ : Cell → Term} (hσ : q.Allows σ) {c : Cell} {s : Slot}
    (hs : q.frames.slot? c = some s) (hscratch : s.scratch = none) (v : Term) :
    q.Allows (Function.update σ c v) := by
  intro d s₁ t₁ hs₁ ht₁
  have hne : d ≠ c := by
    rintro rfl
    cases hs.symm.trans hs₁
    cases hscratch.symm.trans ht₁
  rw [Function.update_of_ne hne]
  exact hσ d s₁ t₁ hs₁ ht₁

/-- A cell that every possible assignment gives the same was bound to that. -/
theorem Query.scratch_of_forall_allows {c : Cell} {s : Slot} (hs : q.frames.slot? c = some s)
    (hall : ∀ σ, q.Allows σ → σ c = u) : s.scratch = some u := by
  obtain ⟨σ₀, hσ₀⟩ := q.exists_allows
  cases hscratch : s.scratch with
  | some v => rw [← hall σ₀ hσ₀, hσ₀ c s v hs hscratch]
  | none =>
    have hfree : ∀ v, v = u := fun v => by
      simpa using hall _ (hσ₀.update hs hscratch v)
    cases (hfree (.thunk 0)).trans (hfree (.thunk 1)).symm

/-- What the arena shows while a pattern is solved, it holds afterwards. -/
theorem Filling.shows_commit (h : Filling q q') (hq : q.Sound true) (c : Cell) :
    (q'.frames.commit q'.pending).shows false c = q'.frames.shows true c := by
  have hsettles := h.settles hq c
  unfold Frames.shows
  cases hs : q'.frames.slot? c with
  | none =>
    rw [hs, Option.map_none, Option.map_eq_none_iff] at hsettles
    rw [hsettles]
    rfl
  | some s =>
    rw [hs, Option.map_some, Option.map_eq_some_iff] at hsettles
    obtain ⟨s', hs', hvalue⟩ := hsettles
    rw [hs', Option.bind_some, Option.bind_some, ← hvalue]
    unfold Frames.Slot.shown
    cases s'.value <;> rfl

theorem Filling.fills_commit (h : Filling q q') (hq : q.Sound true) :
    q.frames.Fills false (q'.frames.commit q'.pending) where
  room := hq.within.trans h.solving.tentative.commit.made.ge
  kept hv := by
    rw [h.shows_commit hq]
    exact (h.fills hq).kept hv
  filled := by
    intro c s hs hvalue
    rw [h.shows_commit hq]
    exact ⟨h.solving.tentative.commit.reslots.grows.isSome_slot? (by simp [hs]),
      ((h.fills hq).filled hs hvalue).2⟩

end

-- ================================================== one equation

namespace Equation

variable {fs : Frames} {t u x : Term}

theorem decide_of_constant (fs : Frames) (ht : t.isWildcard = false) (hu : u.isAtomic = true) :
    decide fs ⟨t, none, u, none⟩ = decideSides fs (fs.side t none) u := by
  have hwild : u.isWildcard = false ∧ fs.side u none = u := by
    cases u with
    | atom | number | host => exact ⟨rfl, rfl⟩
    | _ => cases hu
  rw [decide, ht, hwild.1, hwild.2]
  rfl

theorem decideSides_ref (hu : u.isAtomic = true) (c : Cell) (name : String) :
    decideSides fs (.ref c name) u = .bind c name u := by
  cases u with
  | atom | number | host => rfl
  | _ => cases hu

theorem decideSides_thunk (hu : u.isAtomic = true) (id : Nat) :
    decideSides fs (.thunk id) u = .forceLeft id u := by
  cases u with
  | atom | number | host => rfl
  | _ => cases hu

/-- Anything else is the constant or clashes with it. -/
theorem decideSides_constant (hcell : ∀ c name, x ≠ .ref c name) (hthunk : ∀ id, x ≠ .thunk id)
    (hu : u.isAtomic = true) : decideSides fs x u = if x = u then .solved else .clash := by
  cases x with
  | ref c name => exact absurd rfl (hcell c name)
  | thunk id => exact absurd rfl (hthunk id)
  | atom | number | host | var | compound | closure =>
    cases u with
    | atom | number | host => simp [decideSides, Term.identical, Term.compound?]
    | _ => cases hu

end Equation

namespace Act

variable {q q' : Query} {db : Database} {t u : Term} {n : Nat}

/-- What solving one equation comes to: a query in which just those
assignments are possible that suit the equation as well, or a clash where none
does. -/
inductive SolvesOne (db : Database) (q q' : Query) (t u : Term) (n : Nat) : Prop
  | solved (q'' : Query) (hf : Filling q q'')
      (hallows : ∀ σ, q''.Allows σ ↔ q'.Allows σ ∧ Machine.Denotes ⟨db, q⟩ σ t u)
      (hcells : ∀ c ∈ q''.pending, c ∈ q'.pending ∨ ∃ name, q.frames.resolve t = .ref c name)
      (h : ∀ (env : Env) (steps : Nat) (rest : List Equation), env.Recalls →
        solveWithin (steps + (n + 1)) (⟨t, none, u, none⟩ :: rest) env ⟨db, q'⟩
          = solveWithin steps rest env ⟨db, q''⟩)
  | clashed (hnone : ∀ σ, q'.Allows σ → ¬ Machine.Denotes ⟨db, q⟩ σ t u)
      (h : ∀ (env : Env) (steps : Nat) (rest : List Equation), env.Recalls →
        solveWithin (steps + (n + 1)) (⟨t, none, u, none⟩ :: rest) env ⟨db, q'⟩ = .ok false ⟨db, q'⟩)

/-- An equation that is solved as it stands. -/
theorem SolvesOne.of_solved (hf : Filling q q')
    (hdecide : Equation.decide q'.frames ⟨t, none, u, none⟩ = .solved)
    (hall : ∀ σ, q'.Allows σ → Machine.Denotes ⟨db, q⟩ σ t u) : SolvesOne db q q' t u 0 := by
  refine .solved q' hf (fun σ => ⟨fun h => ⟨h, hall σ h⟩, And.left⟩) (fun c hc => .inl hc) ?_
  intro env steps rest _
  rw [solveWithin_cons, hdecide]

theorem SolvesOne.of_clash (hdecide : Equation.decide q'.frames ⟨t, none, u, none⟩ = .clash)
    (hnone : ∀ σ, q'.Allows σ → ¬ Machine.Denotes ⟨db, q⟩ σ t u) : SolvesOne db q q' t u 0 := by
  refine .clashed hnone ?_
  intro env steps rest _
  rw [solveWithin_cons, hdecide]

/-- What is decided of an equation depends on what its term stands for by now. -/
theorem decide_filling (hq : q.Sound true) (hf : Filling q q') (ht : t.Live (q.frames.world true))
    (hwild : t.isWildcard = false) (hu : u.isAtomic = true) :
    Equation.decide q'.frames ⟨t, none, u, none⟩
      = Equation.decideSides q'.frames (q'.frames.refill true (q.frames.resolve t)) u := by
  rw [Equation.decide_of_constant q'.frames hwild hu, (hf.fills hq).side hq.arena hq.within ht]

theorem not_isWildcard (fs : Frames) (h : fs.resolve t ≠ .var .wildcard) : t.isWildcard = false := by
  rw [Bool.eq_false_iff, ne_eq, Term.isWildcard_iff]
  rintro rfl
  exact h rfl

/-- An equation between a cell and a constant. -/
theorem solvesOne_cell (hq : q.Sound true) (hf : Filling q q') (ht : t.Live (q.frames.world true))
    {c : Cell} {name : String} (hc : q.frames.resolve t = .ref c name) (hu : u.isAtomic = true) :
    SolvesOne db q q' t u 0 := by
  have hdenotes : ∀ σ, Machine.Denotes ⟨db, q⟩ σ t u ↔ σ c = u := fun σ =>
    Machine.denotes_cell (m := ⟨db, q⟩) hc
  obtain ⟨s', hs', hshown, hshows⟩ := hf.shows_eq (hq.resolve_unbound ht hc) rfl
  have hdecide := decide_filling hq hf ht (not_isWildcard q.frames (by simp [hc])) hu
  rw [hc, Frames.refill, hshows] at hdecide
  cases hscratch : s'.scratch with
  | none =>
    rw [hscratch, Option.getD_none, Equation.decideSides_ref hu] at hdecide
    rw [hscratch] at hshown
    refine .solved _ (hf.bind hs' hshown hu) (fun σ => ?_) ?_ ?_
    · rw [Query.allows_bind hs' hshown, hdenotes]
    · intro d hd
      rcases List.mem_cons.1 hd with rfl | hd
      · exact .inr ⟨name, hc⟩
      · exact .inl hd
    · intro env steps rest _
      rw [solveWithin_cons, hdecide]
      simp only [bindTentatively_apply hs']
  | some v =>
    have hv : v.isAtomic = true := hf.constant hs' hscratch
    have hσ : ∀ σ, q'.Allows σ → σ c = v := fun σ hσ => hσ c s' v hs' hscratch
    rw [hscratch, Option.getD_some, Equation.decideSides_constant (by rintro c name rfl; cases hv)
      (by rintro id rfl; cases hv) hu] at hdecide
    by_cases hvu : v = u
    · rw [if_pos hvu] at hdecide
      exact .of_solved hf hdecide fun σ hallows => (hdenotes σ).2 ((hσ σ hallows).trans hvu)
    · rw [if_neg hvu] at hdecide
      exact .of_clash hdecide fun σ hallows hd =>
        hvu ((hσ σ hallows).symm.trans ((hdenotes σ).1 hd))

/-- An equation between a wildcard, or what is no variable and no thunk, and a constant. -/
theorem solvesOne_plain (hq : q.Sound true) (hf : Filling q q') (ht : t.Live (q.frames.world true))
    (hcell : ∀ c name, q.frames.resolve t ≠ .ref c name)
    (hthunk : ∀ id, q.frames.resolve t ≠ .thunk id) (hu : u.isAtomic = true) :
    SolvesOne db q q' t u 0 := by
  cases hwild : t.isWildcard with
  | true =>
    obtain rfl := Term.isWildcard_iff.1 hwild
    exact .of_solved hf rfl fun σ _ => .any
  | false =>
    have hdenotes : ∀ σ, Machine.Denotes ⟨db, q⟩ σ t u ↔ q.frames.resolve t = u := fun σ =>
      Machine.denotes_same (m := ⟨db, q⟩) hwild hcell hthunk hu
    have hdecide := decide_filling hq hf ht hwild hu
    rw [Frames.refill_of_ne_ref hcell, Equation.decideSides_constant hcell hthunk hu] at hdecide
    by_cases hvu : q.frames.resolve t = u
    · rw [if_pos hvu] at hdecide
      exact .of_solved hf hdecide fun σ _ => (hdenotes σ).2 hvu
    · rw [if_neg hvu] at hdecide
      exact .of_clash hdecide fun σ _ hd => hvu ((hdenotes σ).1 hd)

/-- An equation with a thunk that was forced takes one step more than that with its
value. -/
theorem solvesOne_forced (hq : q.Sound true) (hdb : db.Sound) (hf : Filling q q')
    (ht : t.Live (q.frames.world true)) {id : Nat} {value : Term}
    (h : q.frames.resolve t = .thunk id) (hvalue : db.forced id = some value)
    (hu : u.isAtomic = true) (hone : SolvesOne db q q' value u n) : SolvesOne db q q' t u (n + 1) := by
  have hdenotes : ∀ σ, Machine.Denotes ⟨db, q⟩ σ t u ↔ Machine.Denotes ⟨db, q⟩ σ value u := fun σ =>
    Machine.denotes_forced (m := ⟨db, q⟩) h hvalue
  have hdecide := decide_filling hq hf ht (not_isWildcard q.frames (by simp [h])) hu
  rw [h, Frames.refill_of_ne_ref (by simp), Equation.decideSides_thunk hu] at hdecide
  have hstep : ∀ (env : Env) (steps : Nat) (rest : List Equation), env.Recalls →
      solveWithin (steps + (n + 1 + 1)) (⟨t, none, u, none⟩ :: rest) env ⟨db, q'⟩
        = solveWithin (steps + (n + 1)) (⟨value, none, u, none⟩ :: rest) env ⟨db, q'⟩ := by
    intro env steps rest henv
    rw [← Nat.add_assoc, solveWithin_cons, hdecide]
    simp only [henv id value ⟨db, q'⟩ hvalue]
  rcases hone with ⟨q'', hf', hallows, hcells, h'⟩ | ⟨hnone, h'⟩
  · refine .solved q'' hf' (fun σ => by rw [hallows, hdenotes]) (fun c hc => ?_)
      fun env steps rest henv => (hstep env steps rest henv).trans (h' env steps rest henv)
    -- the value of a thunk mentions no cell
    have hfree : value.Fits .none noVars := hdb.forced hvalue
    rcases hcells c hc with hc | ⟨name, hc⟩
    · exact .inl hc
    · cases value with
      | ref d m => exact False.elim (Term.fits_ref.1 hfree)
      | _ => cases hc
  · exact .clashed (fun σ hσ hd => hnone σ hσ ((hdenotes σ).1 hd)) fun env steps rest henv =>
      (hstep env steps rest henv).trans (h' env steps rest henv)

/-- An equation between any settled term and a constant. -/
theorem solvesOne (hq : q.Sound true) (hdb : db.Sound) (hf : Filling q q')
    (ht : t.Live (q.frames.world true)) (hs : Machine.Settled ⟨db, q⟩ n t) (hu : u.isAtomic = true) :
    SolvesOne db q q' t u n := by
  generalize hm : (⟨db, q⟩ : Machine) = m at hs
  induction hs with
  | @plain t hthunk =>
    subst hm
    by_cases hcell : ∃ c name, q.frames.resolve t = .ref c name
    · obtain ⟨c, name, hc⟩ := hcell
      exact solvesOne_cell hq hf ht hc hu
    · exact solvesOne_plain hq hf ht (fun c name h => hcell ⟨c, name, h⟩) hthunk hu
  | forced h hvalue _ ih =>
    subst hm
    exact solvesOne_forced hq hdb hf ht h hvalue hu (ih (live_of_detached (hdb.forced hvalue)))

-- ================================================== rows of constants

/-- The terms can be read, and no thunk has to be forced for that; so many
steps are enough to see what all of them stand for. -/
inductive Ready (m : Machine) : Nat → List Term → Prop
  | nil : Ready m 1 []
  | cons {t : Term} {ts : List Term} {n enough : Nat} (ht : t.Live (m.query.frames.world true))
      (hs : m.Settled n t) (h : Ready m enough ts) : Ready m (enough + (n + 1)) (t :: ts)

theorem Ready.mem {m : Machine} {enough : Nat} {ts : List Term} (h : Ready m enough ts) {t : Term}
    (ht : t ∈ ts) : t.Live (m.query.frames.world true) ∧ ∃ n, m.Settled n t := by
  induction h with
  | nil => cases ht
  | cons hlive hs _ ih =>
    rcases List.mem_cons.1 ht with rfl | ht
    · exact ⟨hlive, _, hs⟩
    · exact ih ht

/-- What solving the equations between a pattern and a row of constants comes
to, with so many steps or more. -/
inductive SolvesRow (db : Database) (q q' : Query) (ts us : List Term) (enough : Nat) : Prop
  | solved (q'' : Query) (hf : Filling q q'')
      (hallows : ∀ σ, q''.Allows σ ↔ q'.Allows σ ∧ List.Forall₂ (Machine.Denotes ⟨db, q⟩ σ) ts us)
      (hcells : ∀ c ∈ q''.pending, c ∈ q'.pending
        ∨ ∃ t ∈ ts, ∃ name, q.frames.resolve t = .ref c name)
      (h : ∀ (env : Env) (steps : Nat), env.Recalls → enough ≤ steps →
        solveWithin steps (Equation.between ts none us none) env ⟨db, q'⟩ = .ok true ⟨db, q''⟩)
  | clashed (q'' : Query) (hf : Filling q q'')
      (hnone : ∀ σ, q'.Allows σ → ¬ List.Forall₂ (Machine.Denotes ⟨db, q⟩ σ) ts us)
      (h : ∀ (env : Env) (steps : Nat), env.Recalls → enough ≤ steps →
        solveWithin steps (Equation.between ts none us none) env ⟨db, q'⟩ = .ok false ⟨db, q''⟩)

/-- With the first equation solved, what is left is the row of the other terms. -/
theorem SolvesRow.of_solved {ts us : List Term} {enough : Nat} {q₁ : Query}
    (hallows : ∀ σ, q₁.Allows σ ↔ q'.Allows σ ∧ Machine.Denotes ⟨db, q⟩ σ t u)
    (hcells : ∀ c ∈ q₁.pending, c ∈ q'.pending ∨ ∃ name, q.frames.resolve t = .ref c name)
    (h : ∀ (env : Env) (steps : Nat) (rest : List Equation), env.Recalls →
      solveWithin (steps + (n + 1)) (⟨t, none, u, none⟩ :: rest) env ⟨db, q'⟩
        = solveWithin steps rest env ⟨db, q₁⟩)
    (hrow : SolvesRow db q q₁ ts us enough) :
    SolvesRow db q q' (t :: ts) (u :: us) (enough + (n + 1)) := by
  have hsplit : ∀ σ, List.Forall₂ (Machine.Denotes ⟨db, q⟩ σ) (t :: ts) (u :: us)
      ↔ Machine.Denotes ⟨db, q⟩ σ t u ∧ List.Forall₂ (Machine.Denotes ⟨db, q⟩ σ) ts us :=
    fun σ => List.forall₂_cons
  have hstep : ∀ (env : Env) (steps : Nat), env.Recalls → enough + (n + 1) ≤ steps →
      ∃ steps', enough ≤ steps' ∧
        solveWithin steps (Equation.between (t :: ts) none (u :: us) none) env ⟨db, q'⟩
          = solveWithin steps' (Equation.between ts none us none) env ⟨db, q₁⟩ := by
    intro env steps henv hsteps
    obtain ⟨more, rfl⟩ := Nat.exists_eq_add_of_le' hsteps
    rw [← Nat.add_assoc]
    exact ⟨more + enough, Nat.le_add_left _ _, h env (more + enough) _ henv⟩
  rcases hrow with ⟨q₂, hf₂, hallows₂, hcells₂, h₂⟩ | ⟨q₂, hf₂, hnone, h₂⟩
  · refine .solved q₂ hf₂ (fun σ => by rw [hallows₂, hallows, hsplit, and_assoc]) ?_ ?_
    · intro c hc
      rcases hcells₂ c hc with hc | ⟨t', ht', hc⟩
      · rcases hcells c hc with hc | hc
        · exact .inl hc
        · exact .inr ⟨t, List.mem_cons_self, hc⟩
      · exact .inr ⟨t', List.mem_cons_of_mem _ ht', hc⟩
    · intro env steps henv hsteps
      obtain ⟨steps', hsteps', hstep⟩ := hstep env steps henv hsteps
      rw [hstep, h₂ env steps' henv hsteps']
  · refine .clashed q₂ hf₂ (fun σ hσ hd => ?_) fun env steps henv hsteps => ?_
    · obtain ⟨hd₁, hd₂⟩ := (hsplit σ).1 hd
      exact hnone σ ((hallows σ).2 ⟨hσ, hd₁⟩) hd₂
    · obtain ⟨steps', hsteps', hstep⟩ := hstep env steps henv hsteps
      rw [hstep, h₂ env steps' henv hsteps']

/-- How many steps it takes depends on the pattern alone. -/
theorem solvesRow (hq : q.Sound true) (hdb : db.Sound) {ts us : List Term} {enough : Nat}
    (hts : Ready ⟨db, q⟩ enough ts) (hf : Filling q q') (hlength : us.length = ts.length)
    (hus : ∀ u ∈ us, u.isAtomic = true) : SolvesRow db q q' ts us enough := by
  induction hts generalizing q' us with
  | nil =>
    obtain rfl := List.length_eq_zero_iff.1 hlength
    refine .solved q' hf (fun σ => by simp) (fun c hc => .inl hc) fun env steps _ hsteps => ?_
    obtain ⟨steps, rfl⟩ := Nat.exists_eq_add_of_le' hsteps
    rfl
  | @cons t ts n enough ht hn hts ih =>
    cases us with
    | nil => cases hlength
    | cons u us =>
      rcases solvesOne hq hdb hf ht hn (hus u List.mem_cons_self) with
        ⟨q₁, hf₁, hallows, hcells, h⟩ | ⟨hnone, h⟩
      · exact .of_solved hallows hcells h
          (ih hf₁ (Nat.succ.inj hlength) fun u' hu' => hus u' (List.mem_cons_of_mem _ hu'))
      · refine .clashed q' hf (fun σ hσ hd => hnone σ hσ (List.forall₂_cons.1 hd).1) ?_
        intro env steps henv hsteps
        obtain ⟨more, rfl⟩ := Nat.exists_eq_add_of_le' hsteps
        rw [← Nat.add_assoc]
        exact h env (more + enough) _ henv

-- ================================================== the bindings committed

/-- What every assignment that is still possible makes of a term, the term is
once the bindings are committed. -/
theorem denotes_commit (hq : q.Sound true) (hdb : db.Sound) (hf : Filling q q')
    (ht : t.Live (q.frames.world true)) (hs : Machine.Settled ⟨db, q⟩ n t) (hu : u.isAtomic = true)
    (hall : ∀ σ, q'.Allows σ → Machine.Denotes ⟨db, q⟩ σ t u) {q'' : Query}
    (hframes : q''.frames = q'.frames.commit q'.pending) (σ : Cell → Term) :
    Machine.Denotes ⟨db, q''⟩ σ t u := by
  have hresolve : ∀ {t : Term}, t.Live (q.frames.world true) →
      q''.frames.resolve t = q''.frames.refill false (q.frames.resolve t) := fun ht => by
    rw [hframes]
    exact (hf.fills_commit hq).resolve hq.arena hq.within ht
  generalize hm : (⟨db, q⟩ : Machine) = m at hs
  induction hs with
  | @plain t hthunk =>
    subst hm
    obtain ⟨σ₀, hσ₀⟩ := q'.exists_allows
    cases hall σ₀ hσ₀ with
    | any => exact .any
    | forced h => exact absurd h (hthunk _)
    | @cell _ c name hc =>
      have hcu : ∀ σ, q'.Allows σ → σ c = σ₀ c := fun σ hσ =>
        (Machine.denotes_cell (m := ⟨db, q⟩) hc).1 (hall σ hσ)
      obtain ⟨s', hs', -, hshows⟩ := hf.shows_eq (hq.resolve_unbound ht hc) rfl
      refine .same ?_ hu
      rw [hresolve ht, hc, Frames.refill, hframes, hf.shows_commit hq, hshows,
        Query.scratch_of_forall_allows hs' hcu, Option.getD_some]
    | same h hu =>
      refine .same ?_ hu
      rw [hresolve ht, h, Frames.refill_of_ne_ref]
      rintro c name rfl
      cases hu
  | @forced t value id n h hvalue _ ih =>
    subst hm
    have hthunk : q''.frames.resolve t = .thunk id := by
      rw [hresolve ht, h, Frames.refill_of_ne_ref (by simp)]
    exact .forced hthunk hvalue (ih (live_of_detached (hdb.forced hvalue)) fun σ hσ =>
      (Machine.denotes_forced (m := ⟨db, q⟩) h hvalue).1 (hall σ hσ))

-- ================================================== unifying a pattern

/-- The pattern and the item are terms with these arguments: a compound of
each, or a single term and a constant. -/
inductive Faces : Term → Term → List Term → List Term → Prop
  | compound {form : Form} {name : String} {ts us : List Term} (h : us.length = ts.length) :
      Faces (.compound form name ts) (.compound .plain name us) ts us
  | single {t u : Term} : Faces t u [t] [u]

theorem Faces.length_eq {target item : Term} {ts us : List Term} (h : Faces target item ts us) :
    us.length = ts.length := by
  cases h with
  | compound h => exact h
  | single => rfl

/-- Solving the equation between the two comes to solving those between their
arguments. -/
theorem Faces.solveWithin_eq {target item : Term} {ts us : List Term} (h : Faces target item ts us)
    {enough : Nat} {env : Env} {m : Machine} {b : Bool} {m' : Machine}
    (hrow : ∀ steps, enough ≤ steps →
      solveWithin steps (Equation.between ts none us none) env m = .ok b m') {steps : Nat}
    (hsteps : enough + 1 ≤ steps) :
    solveWithin steps [⟨target, none, item, none⟩] env m = .ok b m' := by
  cases h with
  | single => exact hrow steps (Nat.le_of_succ_le hsteps)
  | @compound form name ts us hlength =>
    obtain ⟨steps, rfl⟩ := Nat.exists_eq_add_of_le' (Nat.one_le_of_lt hsteps)
    have hdecide : Equation.decide m.query.frames
        ⟨.compound form name ts, none, .compound .plain name us, none⟩
          = .split (Equation.between ts none us none) := by
      show (if ts.length == us.length && name == name then _ else _) = _
      rw [hlength]
      simp
    rw [solveWithin_cons, hdecide]
    dsimp only
    rw [List.append_nil]
    exact hrow steps (Nat.le_of_succ_le_succ hsteps)

/-- Unification has bound cells of the pattern, and by that made its terms the
constants. -/
structure Fitted (m : Machine) (ts us : List Term) (q' : Query) : Prop where
  possible : m.CanBe ts us
  binds : ∃ cells, m.query.Bound cells q'
    ∧ ∀ c ∈ cells, ∃ t ∈ ts, ∃ name, m.query.frames.resolve t = .ref c name
  denotes : ∀ σ, List.Forall₂ (Machine.Denotes ⟨m.db, q'⟩ σ) ts us
  sound : q'.Sound true

/-- Whether a pattern is the row of constants in some way, and what unifying
the two does accordingly, with so many steps or more. -/
inductive Unifies (m : Machine) (target item : Term) (ts us : List Term) (enough : Nat) : Prop
  | fits (q' : Query) (hfitted : Fitted m ts us q')
      (h : ∀ env : Env, env.Recalls → enough ≤ env.steps →
        unify target item env m = .ok true ⟨m.db, q'⟩)
  | clashes (hnone : ¬ m.CanBe ts us)
      (h : ∀ env : Env, env.Recalls → enough ≤ env.steps →
        unify target item env m = .ok false m)

/-- The query with what was solved committed. -/
theorem Fitted.of_filling (hq : q.Sound true) (hdb : db.Sound) {ts us : List Term} {enough : Nat}
    (hts : Ready ⟨db, q⟩ enough ts) (hus : ∀ u ∈ us, u.isAtomic = true) (hf : Filling q q')
    (hallows : ∀ σ, q'.Allows σ ↔ q.Allows σ ∧ List.Forall₂ (Machine.Denotes ⟨db, q⟩ σ) ts us)
    (hcells : ∀ c ∈ q'.pending, c ∈ q.pending ∨ ∃ t ∈ ts, ∃ name, q.frames.resolve t = .ref c name) :
    Fitted ⟨db, q⟩ ts us { q' with
      choices := q'.choices.recordAll (q'.frames.commit q'.pending) q'.pending
      frames := q'.frames.commit q'.pending
      pending := [] } where
  possible := by
    obtain ⟨σ, hσ⟩ := q'.exists_allows
    exact ⟨σ, ((hallows σ).1 hσ).2⟩
  binds := by
    refine ⟨q'.pending, ⟨_, hf.solving.tentative.commit,
      hf.solving.tentative.unbound hq.blank rfl, ?_⟩, fun c hc => ?_⟩
    · rw [hf.solving.eq]
      show _ = { q with frames := _, choices := _ }
      rw [← hq.pending]
    · rcases hcells c hc with hc | hc
      · rw [hq.pending] at hc
        exact absurd hc List.not_mem_nil
      · exact hc
  denotes := by
    intro σ
    have hall : ∀ σ, q'.Allows σ → List.Forall₂ (Machine.Denotes ⟨db, q⟩ σ) ts us :=
      fun σ hσ => ((hallows σ).1 hσ).2
    obtain ⟨σ₀, hσ₀⟩ := q'.exists_allows
    refine List.forall₂_iff_get.2 ⟨(hall σ₀ hσ₀).length_eq, fun i hi hi' => ?_⟩
    obtain ⟨hlive, n, hn⟩ := hts.mem (ts.get_mem ⟨i, hi⟩)
    exact denotes_commit hq hdb hf hlive hn (hus _ (us.get_mem ⟨i, hi'⟩))
      (fun σ hσ => (List.forall₂_iff_get.1 (hall σ hσ)).2 i hi hi') rfl σ
  sound := (hf.solving.commit hq).sound

/-- Whether a pattern unifies with constants is decided after a number of steps
that does not depend on them, and it does just if its cells can hold what makes
them equal. -/
theorem unify_constants (hq : q.Sound true) (hdb : db.Sound) {ts us : List Term} {enough : Nat}
    (hts : Ready ⟨db, q⟩ enough ts) {target item : Term} (hfaces : Faces target item ts us)
    (hus : ∀ u ∈ us, u.isAtomic = true) : Unifies ⟨db, q⟩ target item ts us (enough + 1) := by
  rcases solvesRow hq hdb hts (.start hq) hfaces.length_eq hus with
    ⟨q', hf, hallows, hcells, h⟩ | ⟨q', hf, hnone, h⟩
  · refine .fits _ (.of_filling hq hdb hts hus hf hallows hcells) fun env henv hsteps => ?_
    rw [unify, bind_apply, solve_apply,
      hfaces.solveWithin_eq (fun steps hsteps => h env steps henv hsteps) hsteps]
    rfl
  · have hnot : ¬ Machine.CanBe ⟨db, q⟩ ts us := by
      rintro ⟨σ, hσ⟩
      exact hnone σ (hq.allows σ) hσ
    refine .clashes hnot fun env henv hsteps => ?_
    rw [unify, bind_apply, solve_apply,
      hfaces.solveWithin_eq (fun steps hsteps => h env steps henv hsteps) hsteps]
    exact congrArg (fun q => EStateM.Result.ok false (Machine.mk db q)) (hf.solving.rollback hq)

end Act

end LogicMachine
