/-
Unification computes a most general unifier.

When no equation is left the unifiers are the valuations that fulfil the
arena, that is, solve its tentative bindings. If there is one, following
these bindings comes to an end, since what they lead to only becomes smaller
under the unifier or older (`Frames.Settles.resolves_of_fulfils`). Hence the
bindings, once committed, stand for a valuation themselves; it is a unifier,
and every other is an instance of it (`Frames.Settles.exists_assigns`).
-/
import LogicMachine.Proofs.Equations
import LogicMachine.Proofs.Reaching

namespace LogicMachine

-- ================================================== committed bindings

namespace Frames

/-- What one arena shows with the tentative bindings followed, the other
holds committed. -/
def Settles (fs fs' : Frames) : Prop :=
  ∀ c, (fs'.slot? c).map (·.value) = (fs.slot? c).map (Slot.shown true)

/-- The valuation is what the unbound cells of one arena stand for in the
other. -/
def Assigns (fs fs' : Frames) (μ : Valuation) : Prop :=
  ∀ c s name, fs.slot? c = some s → s.value = none → fs'.Resolves (.ref c name) (μ c)

section

variable {fs fs' : Frames} {c : Cell} {name : String} {s : Slot} {t u : Term} {τ : Tree}
  {μ σ : Valuation}

/-- A rank of terms that falls along a chain of references. -/
def rank (fs : Frames) : Term → Nat
  | .ref c _ => fs.place c + 1
  | _ => 0

theorem Sound.rank_lt (h : fs.Sound true) (hs : fs.slot? c = some s)
    (hu : Slot.shown true s = some u) (name : String) : fs.rank u < fs.rank (.ref c name) := by
  have hin := shown_some hu
  cases u with
  | ref d m =>
    have hd : (fs.slot? d).isSome := (Term.fits_ref.1 (h.value hs hin)).2 rfl
    exact Nat.succ_lt_succ (place_lt_place hd (h.descends hs hin))
  | _ => exact Nat.succ_pos _

theorem Settles.slot (h : fs.Settles fs') (hs : fs.slot? c = some s) :
    ∃ s', fs'.slot? c = some s' ∧ s'.value = Slot.shown true s := by
  have hc := h c
  rw [hs, Option.map_some] at hc
  exact Option.map_eq_some_iff.1 hc

theorem Settles.shown (h : fs.Settles fs') {s' : Slot} (hs' : fs'.slot? c = some s') :
    ∃ s, fs.slot? c = some s ∧ Slot.shown true s = s'.value := by
  have hc := h c
  rw [hs', Option.map_some] at hc
  exact Option.map_eq_some_iff.1 hc.symm

theorem Settles.value (h : fs.Settles fs') (hs : fs.slot? c = some s)
    (hu : Slot.shown true s = some u) (hτ : fs'.Resolves u τ) : fs'.Resolves (.ref c name) τ := by
  obtain ⟨s', hs', hv⟩ := h.slot hs
  exact .bound hs' (hv.trans hu) hτ

/-- Where the cells that were bound hold what they did, following the committed
bindings is putting in what the other cells stand for. -/
theorem Assigns.resolves (hμ : fs.Assigns fs' μ)
    (hkept : ∀ {c s v}, fs.slot? c = some s → s.value = some v →
      ∃ s', fs'.slot? c = some s' ∧ s'.value = some v)
    (ht : fs.Resolves t τ) : fs'.Resolves t (τ.subst μ) := by
  induction ht with
  | const ha =>
    rw [Tree.subst_const]
    exact .const ha
  | unbound hs hv =>
    rw [Tree.subst_cell]
    exact hμ _ _ _ hs hv
  | bound hs hv _ ih =>
    obtain ⟨s', hs', hv'⟩ := hkept hs hv
    exact .bound hs' hv' ih
  | node hc hlen _ ih =>
    rw [Tree.subst_node]
    refine (resolves_compound hc).2 ⟨_, rfl, List.forall₂_map_right_iff.2 ?_⟩
    exact List.forall₂_iff_zip.2 ⟨hlen, fun hm => ih _ _ hm⟩

theorem Settles.resolves (h : fs.Settles fs') (hμ : fs.Assigns fs' μ) (ht : fs.Resolves t τ) :
    fs'.Resolves t (τ.subst μ) := by
  refine hμ.resolves (fun hs hv => ?_) ht
  obtain ⟨s', hs', hv'⟩ := h.slot hs
  refine ⟨s', hs', hv'.trans ?_⟩
  rw [Slot.shown, hv]

/-- What the bindings stand for solves them. -/
theorem Settles.fulfils (h : fs.Settles fs') (hμ : fs.Assigns fs' μ) : fs.Fulfils μ := by
  intro c t τ hs ht
  obtain ⟨s', hs', hv⟩ := h.slot hs
  exact ((hμ c _ "" hs rfl).of_value hs' hv).unique (h.resolves hμ ht)

/-- If the bindings have a solution, following them ends. The induction is
on the size of what the solution makes of the tree and, along a chain of
references, on the place of the cell. -/
theorem Settles.resolves_of_fulfils (h : fs.Settles fs') (hs : fs.Sound true) (hr : fs.Resolved)
    (hσ : fs.Fulfils σ) (t : Term) (τ : Tree) (ht : fs.Resolves t τ) :
    ∃ T, fs'.Resolves t T ∧ T.subst σ = τ.subst σ := by
  rcases ht.kind with ⟨c, name, hc⟩ | ⟨ha, hτ⟩ | ⟨name, args, home, τs, hc, hτ⟩
  · have hcell : fs.Resolves (.ref c name) τ := hc ▸ ht
    obtain ⟨s, hslot⟩ := Option.isSome_iff_exists.1 hcell.slot
    rw [hc]
    cases hu : Slot.shown true s with
    | none =>
      obtain ⟨s', hslot', hv⟩ := h.slot hslot
      rw [hcell.eq_cell hslot (value_of_shown hu)]
      exact ⟨.cell c, .unbound hslot' (hv.trans hu), rfl⟩
    | some u =>
      obtain ⟨τ', hτ', hagree⟩ := hcell.of_shown hr hslot hu
      have hrank : fs.rank u < fs.rank t := hc ▸ hs.rank_lt hslot hu name
      obtain ⟨T, hT, he⟩ := h.resolves_of_fulfils hs hr hσ u τ' hτ'
      exact ⟨T, h.value hslot hu hT, he.trans (hagree σ hσ).symm⟩
  · rw [hτ]
    exact ⟨_, .const ha, rfl⟩
  · obtain ⟨_, heq, hτs⟩ := (resolves_compound hc).1 ht
    cases hτ.symm.trans heq
    have hargs : List.Forall₂ (fun a τ => ∃ T, fs'.Resolves (a.bindIn home) T
        ∧ T.subst σ = τ.subst σ) args τs := by
      refine List.forall₂_iff_zip.2 ⟨hτs.length_eq, fun {a τ'} hm => ?_⟩
      have hsize : (τ'.subst σ).size < (τ.subst σ).size := by
        rw [hτ, Tree.subst_node]
        exact Tree.size_lt_node (List.mem_map_of_mem (List.of_mem_zip hm).2)
      exact h.resolves_of_fulfils hs hr hσ _ τ' (List.forall₂_zip hτs hm)
    obtain ⟨Ts, hTs, he⟩ := exists_forall₂_map_eq hargs
    refine ⟨.node name Ts, (resolves_compound hc).2 ⟨Ts, rfl, hTs⟩, ?_⟩
    rw [hτ, Tree.subst_node, Tree.subst_node, he]
termination_by ((τ.subst σ).size, fs.rank t)
decreasing_by
  · rw [← hagree σ hσ]
    exact .right _ hrank
  · exact .left _ _ hsize

/-- If the bindings are acyclic, following them ends. -/
theorem Settles.resolves_of_acyclic (h : fs.Settles fs') (hr : fs.Resolved) (ha : fs'.Acyclic)
    (ht : fs.Resolves t τ) : ∃ T, fs'.Resolves t T := by
  refine ha.resolves (P := fun t => ∃ τ, fs.Resolves t τ) (fun {t u} ⟨τ, ht⟩ hl => ?_)
    (fun {t} ⟨τ, ht⟩ => ?_) ⟨τ, ht⟩
  · cases hl with
    | value hs' hv =>
      obtain ⟨s, hs, hshown⟩ := h.shown hs'
      obtain ⟨τ', hτ', -⟩ := ht.of_shown hr hs (hshown.trans hv)
      exact ⟨τ', hτ'⟩
    | arg hc ha => exact ht.arg hc ha
  · rcases ht.kind with ⟨c, name, rfl⟩ | ⟨hat, -⟩ | ⟨_, _, _, _, hc, -⟩
    · obtain ⟨s, hs⟩ := Option.isSome_iff_exists.1 ht.slot
      obtain ⟨s', hs', -⟩ := h.slot hs
      exact .inr (.inr ⟨c, name, rfl, hs' ▸ rfl⟩)
    · exact .inl hat
    · exact .inr (.inl (hc ▸ rfl))

theorem assigns_of_ends (h : ∀ c s, fs.slot? c = some s → s.value = none →
    ∃ T, fs'.Resolves (.ref c "") T) : ∃ μ, fs.Assigns fs' μ := by
  have hcell : ∀ c, ∃ T, ∀ s, fs.slot? c = some s → s.value = none →
      fs'.Resolves (.ref c "") T := by
    intro c
    by_cases hc : ∃ s, fs.slot? c = some s ∧ s.value = none
    · obtain ⟨s, hs, hv⟩ := hc
      obtain ⟨T, hT⟩ := h c s hs hv
      exact ⟨T, fun _ _ _ => hT⟩
    · exact ⟨.cell c, fun s hs hv => absurd ⟨s, hs, hv⟩ hc⟩
  choose μ hμ using hcell
  exact ⟨μ, fun c s name hs hv => (hμ c s hs hv).rename⟩

/-- The bindings stand for a valuation that solves them, if they have any
solution or are acyclic, and every solution is an instance of it. -/
theorem Settles.exists_assigns (h : fs.Settles fs') (hs : fs.Sound true) (hr : fs.Resolved)
    (hends : (∃ σ, fs.Fulfils σ) ∨ fs'.Acyclic) : ∃ μ, fs.Assigns fs' μ ∧ fs.Fulfils μ
      ∧ ∀ σ, fs.Fulfils σ → ∀ c s, fs.slot? c = some s → s.value = none → σ c = (μ c).subst σ := by
  obtain ⟨μ, hμ⟩ : ∃ μ, fs.Assigns fs' μ := by
    refine assigns_of_ends fun c s hslot hv => ?_
    have hc : fs.Resolves (.ref c "") (.cell c) := .unbound hslot hv
    rcases hends with ⟨σ, hσ⟩ | ha
    · obtain ⟨T, hT, -⟩ := h.resolves_of_fulfils hs hr hσ _ _ hc
      exact ⟨T, hT⟩
    · exact h.resolves_of_acyclic hr ha hc
  refine ⟨μ, hμ, h.fulfils hμ, fun σ hσ c s hslot hv => ?_⟩
  have hc : fs.Resolves (.ref c "") (.cell c) := .unbound hslot hv
  obtain ⟨T, hT, he⟩ := h.resolves_of_fulfils hs hr hσ _ _ hc
  rw [(hμ c s "" hslot hv).unique hT, he, Tree.subst_cell]

end

end Frames

-- ================================================== most general unifiers

/-- Neither side of the equation meets a wildcard or a thunk. -/
structure Equation.Clear (e : Equation) (fs : Frames) : Prop where
  left : fs.Clear (fs.bindIn e.left e.leftIn)
  right : fs.Clear (fs.bindIn e.right e.rightIn)

/-- Between two arenas the equation was solved, by bindings that stand for a
valuation of the cells unbound before; and every valuation that makes the two
sides equal is an instance of it. -/
structure Equation.MostGeneral (e : Equation) (fs fs' : Frames) (μ : Valuation) : Prop where
  assigns : fs.Assigns fs' μ
  solved : ∃ T, fs'.Poses e (T, T)
  general : ∀ a b, fs.Poses e (a, b) → ∀ σ, a.subst σ = b.subst σ →
    ∀ c s, fs.slot? c = some s → s.value = none → σ c = (μ c).subst σ

namespace Act

variable {q q' : Query} {e : Equation} {equations : List Equation} {ps : List (Tree × Tree)}

theorem Underway.settles (h : Underway q q' equations) (hq : q.Sound true) :
    q'.frames.Settles (q'.frames.commit q'.pending) := by
  intro c
  rw [Frames.commit, Frames.slot?_foldl_modifySlot]
  by_cases hc : c ∈ q'.pending
  · obtain ⟨s, t, -, hs, hv⟩ := h.solving.tentative.bound hc
    rw [List.count_eq_one_of_mem h.nodup hc, hs, hv rfl]
    rfl
  · rw [List.count_eq_zero_of_not_mem hc]
    cases hs : q'.frames.slot? c with
    | none => rfl
    | some s =>
      rw [h.solving.tentative.other hc] at hs
      obtain ⟨value, scratch⟩ := s
      obtain rfl : scratch = none := hq.blank hs
      cases value <;> rfl

/-- Equations with a solution, or solved by acyclic bindings, were solved in
the most general way. -/
theorem Equating.mostGeneral (hq : q.Sound true) (h : Equating q q' [] [])
    {a b : Tree} (hp : q.frames.Poses e (a, b))
    (hsame : ∀ σ, q'.frames.Fulfils σ ↔ a.subst σ = b.subst σ)
    (hends : (∃ σ, a.subst σ = b.subst σ) ∨ (q'.frames.commit q'.pending).Acyclic) :
    ∃ μ, e.MostGeneral q.frames (q'.frames.commit q'.pending) μ := by
  have hsettles := h.settles hq
  obtain ⟨μ, hμ, hfulfils, hgeneral⟩ := hsettles.exists_assigns h.solving.arena h.resolved
    (hends.imp_left fun ⟨σ, hσ⟩ => ⟨σ, (hsame σ).2 hσ⟩)
  have hback : ∀ {c s}, q.frames.slot? c = some s → s.value = none →
      ∃ s', q'.frames.slot? c = some s' ∧ s'.value = none := by
    intro c s hs hv
    have hc := h.values c
    rw [hs, Option.map_some, hv] at hc
    exact Option.map_eq_some_iff.1 hc
  refine ⟨μ, ⟨fun c s name hs hv => ?_, ⟨a.subst μ, ?_⟩, fun a' b' hp' σ hσ c s hs hv => ?_⟩⟩
  · obtain ⟨s', hs', hv'⟩ := hback hs hv
    exact hμ c s' name hs' hv'
  · have hreslots := h.solving.tentative.reslots.trans
      (Frames.reslots_foldl_modifySlot (fun s => ⟨s.scratch, none⟩) q'.frames q'.pending).1
    have hend : ∀ {t home τ}, q.frames.Resolves (q.frames.bindIn t home) τ →
        (q'.frames.commit q'.pending).Resolves ((q'.frames.commit q'.pending).bindIn t home)
          (τ.subst μ) := by
      intro t home τ ht
      rw [Frames.commit, hreslots.bindIn]
      exact hsettles.resolves hμ (ht.congr h.values)
    refine ⟨hend hp.left, ?_⟩
    rw [(hsame μ).1 hfulfils]
    exact hend hp.right
  · obtain rfl := hp.left.unique hp'.left
    obtain rfl := hp.right.unique hp'.right
    obtain ⟨s', hs', hv'⟩ := hback hs hv
    exact hgeneral σ ((hsame σ).2 hσ) c s' hs' hv'

/-- Unification of two sides that stand for trees: with a unifier it succeeds,
and the size of the unified tree bounds the steps it takes; if it fails there
is none; and when it succeeds, unless the bindings have become cyclic, it has
found a most general one. -/
theorem solve_mostGeneral (hq : q.Sound true) (hr : e.Reads true q.frames) {a b : Tree}
    (hp : q.frames.Poses e (a, b)) (env : Env) (db : Database) :
    (∀ σ, a.subst σ = b.subst σ → (a.subst σ).size < env.steps →
        ∃ m, solve [e] env ⟨db, q⟩ = .ok true m)
      ∧ (∀ m, solve [e] env ⟨db, q⟩ = .ok false m → ∀ σ, a.subst σ ≠ b.subst σ)
      ∧ ∀ m m', solve [e] env ⟨db, q⟩ = .ok true m → commit env m = .ok ⟨⟩ m' →
        (∃ σ, a.subst σ = b.subst σ) ∨ m'.query.frames.Acyclic →
        ∃ μ, e.MostGeneral q.frames m'.query.frames μ := by
  have hsolves := solve_exact hq (List.forall_mem_singleton.2 hr) (.cons hp .nil) env db
  have hunifier : ∀ σ, Unifier q [(a, b)] σ ↔ a.subst σ = b.subst σ := by
    intro σ
    rw [unifier_cons]
    refine ⟨fun hσ => hσ.2, fun hσ => ⟨⟨fun c t τ hc => ?_, Valuation.unifies_nil⟩, hσ⟩⟩
    cases hq.blank hc
  refine ⟨fun σ hσ hsteps => ?_, fun m hended σ hσ => ?_, fun m m' hended hcommit hends => ?_⟩
  · cases hended : solve [e] env ⟨db, q⟩ with
    | ok found m =>
      cases found with
      | true => exact ⟨m, rfl⟩
      | false =>
        rw [hended] at hsolves
        exact absurd ((hunifier σ).2 hσ) (hsolves σ)
    | error failure m =>
      rw [hended] at hsolves
      have hle := hsolves σ ((hunifier σ).2 hσ)
      rw [Valuation.weight_cons, Valuation.weight_nil] at hle
      exact absurd hle (Nat.not_le.2 hsteps)
  · rw [hended] at hsolves
    exact hsolves σ ((hunifier σ).2 hσ)
  · rw [hended] at hsolves
    cases hcommit
    exact hsolves.1.mostGeneral hq hp (fun σ => (hsolves.2 σ).trans (hunifier σ)) hends

/-- The arena of every query that a strict session reaches is sound; and in a
sound arena, between the steps of a query or within one, unification computes
a most general unifier. The two sides must meet no wildcard and no thunk, not
even through a binding. -/
theorem unifies_most_generally :
    (∀ {s : Session} {q : Query} {phase : Phase}, s.Reached true → (q, phase) ∈ s.queries →
      q.Sound true)
    ∧ ∀ {q : Query} {e : Equation}, q.Sound true → q.frames.Acyclic → e.Reads true q.frames →
      e.Clear q.frames → ∃ a b, q.frames.Poses e (a, b) ∧ ∀ env db,
        (∀ σ, a.subst σ = b.subst σ → (a.subst σ).size < env.steps →
          ∃ m m' μ, solve [e] env ⟨db, q⟩ = .ok true m ∧ commit env m = .ok ⟨⟩ m'
            ∧ e.MostGeneral q.frames m'.query.frames μ)
        ∧ (∀ m, solve [e] env ⟨db, q⟩ = .ok false m → ∀ σ, a.subst σ ≠ b.subst σ)
        ∧ ∀ m m', solve [e] env ⟨db, q⟩ = .ok true m → commit env m = .ok ⟨⟩ m' →
          m'.query.frames.Acyclic → ∃ μ, e.MostGeneral q.frames m'.query.frames μ := by
  refine ⟨fun hs hq => hs.sound hq, fun {q e} hq hacyclic hr hclear => ?_⟩
  obtain ⟨a, ha⟩ := hq.arena.resolves hacyclic hr.left.bindIn hclear.left
  obtain ⟨b, hb⟩ := hq.arena.resolves hacyclic hr.right.bindIn hclear.right
  refine ⟨a, b, ⟨ha, hb⟩, fun env db => ?_⟩
  obtain ⟨hfinds, hnone, hgeneral⟩ := solve_mostGeneral hq hr ⟨ha, hb⟩ env db
  refine ⟨fun σ hσ hsteps => ?_, hnone, fun m m' hended hcommit hac =>
    hgeneral m m' hended hcommit (.inr hac)⟩
  obtain ⟨m, hended⟩ := hfinds σ hσ hsteps
  obtain ⟨μ, hμ⟩ := hgeneral m _ hended rfl (.inl ⟨σ, hσ⟩)
  exact ⟨m, _, μ, hended, rfl, hμ⟩

/-- A query starts with nothing bound. -/
theorem acyclic_start (entry : Clause) : (Query.start entry).frames.Acyclic := by
  intro c name m h
  obtain ⟨v, hv, -⟩ := Relation.TransGen.head'_iff.1 h
  obtain ⟨s, hs, hv⟩ := hv.of_ref
  rw [slot?_start hs] at hv
  cases hv

/-- A session may open a query of two variables. -/
theorem exists_reached_pair : ∃ db entry,
    Session.Reached true ⟨db, [(Query.start entry, .running)]⟩ ∧ entry.locals = 2 := by
  have hopens : (match Clause.ofGoal (.compound (.template 0) "=" [.var (.named "X"), .var (.named "Y")])
      false (Database.make false 1) with
    | .ok entry _ => entry.locals == 2
    | .error _ _ => false) = true := by cbv
  cases hgoal : Clause.ofGoal (.compound (.template 0) "=" [.var (.named "X"), .var (.named "Y")])
      false (Database.make false 1) with
  | error e db =>
    rw [hgoal] at hopens
    cases hopens
  | ok entry db =>
    rw [hgoal] at hopens
    refine ⟨db, entry, .step (.start false 1) (.opened ?_ hgoal), eq_of_beq hopens⟩
    simp [Term.fits_compound, Term.fits_var, Var.name, anyVars]

/-- The equation of `f(X, b)` and `f(a, Y)`, read in the root frame. -/
def crossing : Equation where
  left := .compound (.template 0) "f" [.var (.slot 0 "X"), .atom "b"]
  leftIn := some Query.root
  right := .compound (.template 1) "f" [.atom "a", .var (.slot 1 "Y")]
  rightIn := some Query.root

section

variable {entry : Clause}

theorem owner_start : (Query.start entry).frames.owner Query.root = Query.root := by
  rw [Frames.owner_eq (get?_start entry Query.root)]
  rfl

theorem slot?_root (h : entry.locals = 2) {i : Nat} (hi : i < 2) :
    (Query.start entry).frames.slot? ⟨Query.root, i⟩ = some {} := by
  rw [Frames.slot?_eq, get?_start, h]
  show (blanks 2)[i]? = some {}
  rw [Array.getElem?_replicate, if_pos hi]

theorem cell_root (h : entry.locals = 2) {i : Nat} (hi : i < 2) :
    ((Query.start entry).frames.world true).cell ⟨Query.root, i⟩ :=
  have hsound : (Query.start entry).Sound true := sound_start entry
  ⟨hsound.frame_root, fun _ => slot?_root h hi ▸ rfl⟩

theorem reads_crossing (h : entry.locals = 2) : crossing.Reads true (Query.start entry).frames := by
  have hroot : ((Query.start entry).frames.world true).frame
      ((Query.start entry).frames.owner Query.root) := by
    rw [owner_start]
    exact (sound_start entry).frame_root
  have hcell : ∀ i, i < 2 → ((Query.start entry).frames.world true).slotsOf
      ((Query.start entry).frames.owner Query.root) i := by
    rw [owner_start]
    exact fun i hi => cell_root h hi
  refine ⟨.framed ?_ hroot, .framed ?_ hroot⟩
  · simp [crossing, Term.fits_compound, Term.fits_var, Var.name, Var.number, hcell]
  · simp [crossing, Term.fits_compound, Term.fits_var, Var.name, Var.number, hcell]

theorem poses_crossing (h : entry.locals = 2) : (Query.start entry).frames.Poses crossing
    (.node "f" [.cell ⟨Query.root, 0⟩, .const (.atom "b")],
      .node "f" [.const (.atom "a"), .cell ⟨Query.root, 1⟩]) := by
  have hcell : ∀ i name, i < 2 → (Query.start entry).frames.Resolves
      (.ref ⟨(Query.start entry).frames.owner Query.root, i⟩ name) (.cell ⟨Query.root, i⟩) := by
    intro i name hi
    rw [owner_start]
    exact .unbound (slot?_root h hi) rfl
  constructor
  · refine (Frames.resolves_compound rfl).2 ⟨_, rfl, .cons ?_ (.cons (.const rfl) .nil)⟩
    exact hcell 0 "X" (by decide)
  · refine (Frames.resolves_compound rfl).2 ⟨_, rfl, .cons (.const rfl) (.cons ?_ .nil)⟩
    exact hcell 1 "Y" (by decide)

end

/-- In a query whose variables are `X` and `Y` the two terms are unified. -/
theorem unifies_most_generally_crossing : ∃ db entry m m' μ,
    Session.Reached true ⟨db, [(Query.start entry, .running)]⟩
    ∧ solve [crossing] (Env.nested 4 0) ⟨db, Query.start entry⟩ = .ok true m
    ∧ commit (Env.nested 4 0) m = .ok ⟨⟩ m'
    ∧ crossing.MostGeneral (Query.start entry).frames m'.query.frames μ := by
  obtain ⟨db, entry, hreached, hlocals⟩ := exists_reached_pair
  have hsound := unifies_most_generally.1 hreached List.mem_cons_self
  have hposes := poses_crossing hlocals
  obtain ⟨a, b, hab, hunify⟩ := unifies_most_generally.2 hsound (acyclic_start entry)
    (reads_crossing hlocals) ⟨hposes.left.clear, hposes.right.clear⟩
  obtain rfl := hab.left.unique hposes.left
  obtain rfl := hab.right.unique hposes.right
  obtain ⟨m, m', μ, hsolved⟩ := (hunify (Env.nested 4 0) db).1
    (fun c => if c.slot = 0 then .const (.atom "a") else .const (.atom "b")) (by simp)
    (by simp [Tree.size_node, Tree.size, Env.nested])
  exact ⟨db, entry, m, m', μ, hreached, hsolved⟩

end Act

end LogicMachine
