/-
Unification, unification again, and the standard order agree.

An equation whose sides match one tree is solved without a binding, and the
size of the tree bounds the steps that takes (`Act.solve_of_balances`). Two
things are read off that. What solving an equation has bound makes its sides
match one tree (`Act.Chasing.balances`), so once the bindings are committed it
is solved again without any more; and of terms that stand for trees those
that are level in the standard order are those that unify without a binding.

A wildcard that is what a cell is bound to is taken for a value, not for a
wildcard. A variable may be bound to it, and then the two do not unify again;
so no such cell may be met.
-/
import LogicMachine.Proofs.StandardOrder
import LogicMachine.Proofs.Symmetry

namespace LogicMachine

-- ================================================== equations in balance

/-- Both sides of the equation match the tree. -/
structure Frames.Balances (fs : Frames) (e : Equation) (τ : Tree) : Prop where
  left : fs.Matches (fs.bindIn e.left e.leftIn) τ
  right : fs.Matches (fs.bindIn e.right e.rightIn) τ

theorem Frames.Poses.balances {fs : Frames} {e : Equation} {τ : Tree} (h : fs.Poses e (τ, τ)) :
    fs.Balances e τ :=
  ⟨h.left.matches, h.right.matches⟩

theorem Term.bindTo_ne_wildcard {t : Term} (h : t ≠ .var .wildcard) (frame : FrameId) :
    t.bindTo frame ≠ .var .wildcard := by
  cases t with
  | var v => cases v <;> first | exact absurd rfl h | exact nofun
  | compound form => cases form <;> exact nofun
  | _ => exact nofun

theorem Term.ref_ne_wildcard {c : Cell} {name : String} : Term.ref c name ≠ .var .wildcard := by
  intro h
  cases h

namespace Frames

section

variable {fs : Frames} {t : Term} {τ : Tree} {c : Cell} {name : String} {frame : Option FrameId}

theorem bindIn_ne_wildcard (h : t ≠ .var .wildcard) : fs.bindIn t frame ≠ .var .wildcard := by
  cases frame with
  | none => exact h
  | some f => exact Term.bindTo_ne_wildcard h _

theorem Matches.bindIn (h : fs.Matches t τ) (frame : Option FrameId) :
    fs.Matches (fs.bindIn t frame) τ := by
  cases frame with
  | none => exact h
  | some f => exact h.bindTo _

/-- With nothing bound tentatively, what a cell leads to matches what the cell
does, and is no wildcard. -/
theorem Matches.follow (hblank : fs.Blank) (h : fs.Matches (.ref c name) τ) (cells : Nat) :
    fs.Matches (fs.follow true cells c name) τ
      ∧ fs.follow true cells c name ≠ .var .wildcard := by
  induction cells generalizing c name with
  | zero => exact ⟨h, Term.ref_ne_wildcard⟩
  | succ cells ih =>
    obtain ⟨s, hs, hcell⟩ := matches_ref.1 h
    unfold Frames.follow
    rw [hs]
    dsimp only
    rcases hcell with ⟨hv, -⟩ | ⟨v, hv, hw, hm⟩
    · have hshown : Slot.shown true s = none := by
        rw [Slot.shown, hv]
        exact hblank hs
      rw [hshown]
      exact ⟨h, Term.ref_ne_wildcard⟩
    · have hshown : Slot.shown true s = some v := by rw [Slot.shown, hv]
      rw [hshown]
      cases v with
      | ref d m => exact ih hm
      | _ => exact ⟨hm, hw⟩

theorem Matches.side (hblank : fs.Blank) (h : fs.Matches (fs.bindIn t frame) τ)
    (hw : t ≠ .var .wildcard) :
    fs.Matches (fs.side t frame) τ ∧ fs.side t frame ≠ .var .wildcard := by
  have hread : ∀ {u}, fs.Matches u τ ∧ u ≠ .var .wildcard →
      fs.Matches (fs.bindIn u frame) τ ∧ fs.bindIn u frame ≠ .var .wildcard :=
    fun hu => ⟨hu.1.bindIn frame, bindIn_ne_wildcard hu.2⟩
  unfold Frames.side tentative
  split
  · exact absurd rfl hw
  · rename_i v f hv
    have hcell := (matches_var fun he => hv (he ▸ rfl)).1 h
    exact hread ((matches_ref.2 (matches_ref.1 hcell)).follow hblank _)
  · refine hread (Matches.follow hblank ?_ _)
    cases frame <;> exact h
  · exact ⟨h, bindIn_ne_wildcard hw⟩

end

end Frames

-- ================================================== deciding them

/-- The verdict asks for no binding: what it asks for is in balance too, and
smaller. -/
def Verdict.Settled (fs : Frames) (τ : Tree) : Verdict → Prop
  | .solved => True
  | .split equations =>
    ∃ τs, List.Forall₂ fs.Balances equations τs ∧ (τs.map Tree.size).sum < τ.size
  | _ => False

namespace Equation

section

variable {fs : Frames} {x y : Term} {τ : Tree}

theorem balances_between {xs ys : List Term} {fx fy : Option FrameId} {τs : List Tree}
    (hx : List.Forall₂ (fun a τ => fs.Matches (fs.bindIn a fx) τ) xs τs)
    (hy : List.Forall₂ (fun a τ => fs.Matches (fs.bindIn a fy) τ) ys τs) :
    List.Forall₂ fs.Balances (between xs fx ys fy) τs := by
  induction hx generalizing ys with
  | nil =>
    cases hy
    exact .nil
  | cons hx _ ih =>
    cases hy with
    | cons hy hys => exact .cons ⟨hx, hy⟩ (ih hys)

/-- Two compounds that match one tree ask for their arguments. -/
theorem compounds_settled (hx : x.Live (fs.world true)) (hy : y.Live (fs.world true)) {f : String}
    {xs ys : List Term} {fx fy : Option FrameId} {τs : List Tree}
    (hcx : x.compound? = some (f, xs, fx)) (hcy : y.compound? = some (f, ys, fy))
    (ha : fs.Matches x (.node f τs)) (hb : fs.Matches y (.node f τs)) :
    (if xs.length == ys.length && f == f then Verdict.split (between xs fx ys fy)
      else .clash).Settled fs (.node f τs) := by
  obtain ⟨_, heq, hτs⟩ := (Frames.matches_compound hcx).1 ha
  cases heq
  obtain ⟨_, heq, hτs'⟩ := (Frames.matches_compound hcy).1 hb
  cases heq
  have hlen : xs.length = ys.length := hτs.length_eq.trans hτs'.length_eq.symm
  rw [hlen, beq_self_eq_true, beq_self_eq_true, Bool.and_self, if_pos rfl]
  simp only [← fs.bindIn_home hx hcx, ← fs.bindIn_home hy hcy] at hτs hτs'
  refine ⟨τs, balances_between hτs hτs', ?_⟩
  rw [Tree.size_node]
  exact Nat.lt_succ_self _

/-- Two sides that stand for themselves and match one tree. -/
theorem decideSides_settled (hx : x.Live (fs.world true)) (hy : y.Live (fs.world true))
    (hux : ∀ c m, x = .ref c m → τ = .cell c) (huy : ∀ c m, y = .ref c m → τ = .cell c)
    (hwx : x ≠ .var .wildcard) (hwy : y ≠ .var .wildcard) (ha : fs.Matches x τ)
    (hb : fs.Matches y τ) : (decideSides fs x y).Settled fs τ := by
  unfold decideSides
  split
  · trivial
  rename_i hid
  -- both are cells, or constants, or compounds
  rcases ha.kind hwx with ⟨c, m, rfl⟩ | ⟨hat, rfl⟩ | ⟨f, xs, fx, τs, hcx, rfl⟩
  · obtain rfl := hux c m rfl
    rcases hb.kind hwy with ⟨d, n, rfl⟩ | ⟨-, he⟩ | ⟨_, _, _, _, -, he⟩
    · cases huy d n rfl
      exact absurd (beq_self_eq_true c) hid
    · cases he
    · cases he
  · rcases hb.kind hwy with ⟨d, n, rfl⟩ | ⟨-, he⟩ | ⟨_, _, _, _, -, he⟩
    · cases huy d n rfl
    · cases he
      exact absurd (Term.identical_of_isAtomic hat) hid
    · cases he
  · rcases hb.kind hwy with ⟨d, n, rfl⟩ | ⟨-, he⟩ | ⟨g, ys, fy, _, hcy, he⟩
    · cases huy d n rfl
    · cases he
    · cases he
      have hsettled := compounds_settled hx hy hcx hcy ha hb
      cases x with
      | compound | closure =>
        cases hcx
        cases y with
        | compound | closure =>
          cases hcy
          exact hsettled
        | _ => cases hcy
      | _ => cases hcx

/-- An equation in balance asks for no binding. -/
theorem decide_settled (hs : fs.Sound true) (hw : fs.Within) (hblank : fs.Blank) {e : Equation}
    (he : e.Reads true fs) (h : fs.Balances e τ) : (e.decide fs).Settled fs τ := by
  have hcell : ∀ {d m}, (∃ s, fs.slot? d = some s ∧ Frames.Slot.shown true s = none) →
      fs.Matches (.ref d m) τ → τ = .cell d := by
    rintro d m ⟨s, hslot, hshown⟩ hm
    obtain ⟨s', hslot', ⟨-, rfl⟩ | ⟨v, hv, -⟩⟩ := Frames.matches_ref.1 hm
    · rfl
    · cases hslot.symm.trans hslot'
      rw [Frames.value_of_shown hshown] at hv
      cases hv
  unfold decide
  split
  · trivial
  · rename_i hwild
    rw [Bool.or_eq_true, not_or, Term.isWildcard_iff, Term.isWildcard_iff] at hwild
    obtain ⟨hx, hwx⟩ := h.left.side hblank hwild.1
    obtain ⟨hy, hwy⟩ := h.right.side hblank hwild.2
    refine decideSides_settled (hs.side_live he.left) (hs.side_live he.right) ?_ ?_ hwx hwy hx hy
    · intro c m hc
      exact hcell (hs.side_unbound hw he.left hc) (hc ▸ hx)
    · intro c m hc
      exact hcell (hs.side_unbound hw he.right hc) (hc ▸ hy)

end

end Equation

-- ================================================== solving them

namespace Act

section

variable {q : Query} {e : Equation} {τ : Tree}

/-- Equations in balance are solved, and nothing is bound. -/
theorem solveWithin_of_balances (hq : q.Sound true) (steps : Nat) {equations : List Equation}
    {τs : List Tree} (he : ∀ e ∈ equations, e.Reads true q.frames)
    (h : List.Forall₂ q.frames.Balances equations τs) (hsteps : (τs.map Tree.size).sum < steps)
    (env : Env) (db : Database) :
    solveWithin steps equations env ⟨db, q⟩ = .ok true ⟨db, q⟩ := by
  induction steps generalizing equations τs with
  | zero => exact absurd hsteps (Nat.not_lt_zero _)
  | succ steps ih =>
    cases h with
    | nil => rfl
    | cons hbalances hrest =>
      rename_i e τ rest τs
      obtain ⟨hreads, hreadsRest⟩ := List.forall_mem_cons.1 he
      have hsettled := Equation.decide_settled hq.arena hq.within hq.blank hreads hbalances
      have hsound := Equation.decide_sound hq.arena hq.orderly.frames hq.within hreads
      have hpos := τ.size_pos
      rw [List.map_cons, List.sum_cons] at hsteps
      rw [solveWithin_cons]
      cases hv : e.decide q.frames with
      | solved => exact ih hreadsRest hrest (by omega)
      | split es =>
        rw [hv] at hsettled hsound
        obtain ⟨τs', hτs', hlt⟩ := hsettled
        refine ih ?_ (List.rel_append hτs' hrest) ?_
        · exact fun e' he' => (List.mem_append.1 he').elim (hsound e') (hreadsRest e')
        · rw [List.map_append, List.sum_append]
          omega
      | _ =>
        rw [hv] at hsettled
        exact hsettled.elim

/-- An equation in balance is solved, and nothing is bound. -/
theorem solve_of_balances (hq : q.Sound true) (he : e.Reads true q.frames)
    (h : q.frames.Balances e τ) {env : Env} (hsteps : τ.size < env.steps) (db : Database) :
    solve [e] env ⟨db, q⟩ = .ok true ⟨db, q⟩ := by
  have hsolved := solveWithin_of_balances hq env.steps (List.forall_mem_singleton.2 he)
    (.cons h .nil) (by simpa using hsteps) env db
  simp only [solve, bind_apply, steps_apply, attempt_apply, hsolved]
  rfl

end

end Act

-- ================================================== what has been bound

/-- No cell that is met is bound to a wildcard. -/
def Equation.Starless (e : Equation) (fs : Frames) : Prop :=
  ∀ c name s, e.Meets fs (.ref c name) → fs.slot? c = some s → s.value ≠ some (.var .wildcard)

/-- The query is sound, the equation makes sense in it, and neither a thunk
nor a cell that is bound to a wildcard is met. -/
structure Equation.Regular (e : Equation) (q : Query) : Prop where
  sound : q.Sound true
  reads : e.Reads true q.frames
  thunkless : e.Thunkless q.frames
  starless : e.Starless q.frames

/-- What one arena shows, with the tentative bindings followed, the other
holds committed. -/
def Frames.Ahead (fs fs' : Frames) : Prop :=
  ∀ c s v, fs.slot? c = some s → Slot.shown true s = some v →
    ∃ s', fs'.slot? c = some s' ∧ s'.value = some v

/-- What the verdict asks for is so in the arena. -/
def Verdict.Granted (fs : Frames) : Verdict → Prop
  | .solved => True
  | .bind cell _ value => ∃ s, fs.slot? cell = some s ∧ s.value = some value
  | .split equations => ∀ e ∈ equations, ∃ τ, fs.Balances e τ
  | _ => False

section

variable {fs fs' : Frames} {x y t : Term} {τ : Tree} {cell : Cell} {value : Term}

/-- If cells are bound to constants alone, the bindings are acyclic. -/
theorem Frames.acyclic_of_atomic
    (h : ∀ c s v, fs.slot? c = some s → s.value = some v → v.isAtomic = true) : fs.Acyclic := by
  intro c name m hc
  obtain ⟨v, hv, hrest⟩ := Relation.TransGen.head'_iff.1 hc
  obtain ⟨s, hs, hv⟩ := hv.of_ref
  have hatomic := h c s v hs hv
  rcases Relation.ReflTransGen.cases_head hrest with rfl | ⟨u, hu, -⟩
  · cases hatomic
  · cases hu with
    | value => cases hatomic
    | arg ht => cases ht.symm.trans (Term.compound?_of_isAtomic hatomic)

theorem Frames.Settles.ahead (h : fs.Settles fs') : fs.Ahead fs' := by
  intro c s v hs hv
  obtain ⟨s', hs', hv'⟩ := h.slot hs
  exact ⟨s', hs', hv'.trans hv⟩

/-- What shows after one more binding is what showed before and the binding. -/
theorem Frames.Ahead.of_scratched (hs : fs.slot? cell = some ⟨none, none⟩)
    (h : (fs.scratched cell value).Ahead fs') :
    fs.Ahead fs' ∧ ∃ s, fs'.slot? cell = some s ∧ s.value = some value := by
  have hcell : (fs.scratched cell value).slot? cell = some ⟨none, some value⟩ := by
    rw [slot?_modifySlot, hs]
    rfl
  refine ⟨fun c s v hc hv => ?_, h cell _ _ hcell rfl⟩
  by_cases hne : c = cell
  · subst hne
    cases hs.symm.trans hc
    cases hv
  · exact h c s v ((slot?_modifySlot_of_ne _ _ hne).trans hc) hv

/-- A live term is the same in any frame, unless it is a template. -/
theorem Term.bindTo_of_live (ht : t.Live (fs.world true)) (frame : FrameId) :
    t.bindTo frame = t ∨ ∃ serial name args, t = .compound (.template serial) name args := by
  cases t with
  | var v =>
    obtain rfl | ⟨-, hraw⟩ := Term.fits_var.1 ht
    · exact .inl rfl
    · cases hraw
  | compound form name args =>
    cases form with
    | plain => exact .inl rfl
    | template serial => exact .inr ⟨serial, name, args, rfl⟩
  | _ => exact .inl rfl

/-- A live term has no bare variables, so in a frame it matches nothing more. -/
theorem Frames.Matches.of_bindTo {t : Term} {τ : Tree} (ht : t.Live (fs.world true))
    {frame : FrameId} (h : fs'.Matches (t.bindTo frame) τ) : fs'.Matches t τ := by
  rcases Term.bindTo_of_live ht frame with he | ⟨serial, name, args, rfl⟩
  · rwa [he] at h
  · obtain ⟨τs, rfl, hargs⟩ := (matches_compound rfl).1 h
    obtain ⟨hlen, hzip⟩ := List.forall₂_iff_zip.1 hargs
    refine (matches_compound rfl).2 ⟨τs, rfl, List.forall₂_iff_zip.2 ⟨hlen, fun {a τ'} hm => ?_⟩⟩
    have hlive := (Term.fits_compound.1 ht).2 a (List.of_mem_zip hm).1
    have hsize : τ'.size < (Tree.node name τs).size := Tree.size_lt_node (List.of_mem_zip hm).2
    have ha : fs'.Matches (a.bindTo frame) τ' := hzip hm
    exact ha.of_bindTo hlive
termination_by τ.size

end

namespace Equation

section

variable {fs fs' : Frames} {x y : Term}

/-- Equations between arguments that are in balance, each for itself. -/
theorem exists_balances_between {xs ys : List Term} {fx fy : Option FrameId}
    (hlen : xs.length = ys.length) (h : ∀ e ∈ between xs fx ys fy, ∃ τ, fs.Balances e τ) :
    ∃ τs, List.Forall₂ (fun a τ => fs.Matches (fs.bindIn a fx) τ) xs τs
      ∧ List.Forall₂ (fun a τ => fs.Matches (fs.bindIn a fy) τ) ys τs := by
  induction xs generalizing ys with
  | nil =>
    cases ys with
    | nil => exact ⟨[], .nil, .nil⟩
    | cons => cases hlen
  | cons x xs ih =>
    cases ys with
    | nil => cases hlen
    | cons y ys =>
      obtain ⟨⟨τ, hτ⟩, hrest⟩ := List.forall_mem_cons.1 h
      obtain ⟨τs, hxs, hys⟩ := ih (Nat.succ.inj hlen) hrest
      exact ⟨τ :: τs, .cons hτ.left hxs, .cons hτ.right hys⟩

/-- Sides that stand for themselves match one tree, once what they ask for is
granted. -/
theorem exists_matches_of_granted (hx : x.Live (fs'.world true)) (hy : y.Live (fs'.world true))
    (hwx : x ≠ .var .wildcard) (hwy : y ≠ .var .wildcard) (ha : ∃ τ, fs'.Matches x τ)
    (hb : ∃ τ, fs'.Matches y τ) (hv : (decideSides fs x y).Granted fs') :
    ∃ τ, fs'.Matches x τ ∧ fs'.Matches y τ := by
  obtain ⟨α, ha⟩ := ha
  obtain ⟨β, hb⟩ := hb
  unfold decideSides at hv
  split at hv
  · rename_i hid
    exact ⟨α, ha, ha.of_identical hx hy hid⟩
  split at hv
  · split at hv
    · obtain ⟨s, hs, hvalue⟩ := hv
      exact ⟨α, ha, .bound hs hvalue hwx ha⟩
    · obtain ⟨s, hs, hvalue⟩ := hv
      exact ⟨β, .bound hs hvalue hwy hb, hb⟩
  · obtain ⟨s, hs, hvalue⟩ := hv
    exact ⟨β, .bound hs hvalue hwy hb, hb⟩
  · obtain ⟨s, hs, hvalue⟩ := hv
    exact ⟨α, ha, .bound hs hvalue hwx ha⟩
  · exact hv.elim
  · exact hv.elim
  · split at hv
    · rename_i f xs fx g ys fy hcx hcy
      split at hv
      · rename_i heq
        simp only [Bool.and_eq_true, beq_iff_eq] at heq
        obtain ⟨hlen, rfl⟩ := heq
        obtain ⟨τs, hxs, hys⟩ := exists_balances_between hlen hv
        simp only [fs'.bindIn_home hx hcx, fs'.bindIn_home hy hcy] at hxs hys
        exact ⟨.node f τs, (Frames.matches_compound hcx).2 ⟨τs, rfl, hxs⟩,
          (Frames.matches_compound hcy).2 ⟨τs, rfl, hys⟩⟩
      · exact hv.elim
    · exact hv.elim

end

end Equation

namespace Act

/-- A query in the course of solving the equation, in an arena without bare
variables; and no cell has been bound to a wildcard. -/
structure Chasing (e : Equation) (q q' : Query) (equations : List Equation) : Prop
    extends Pursuing e q q' equations, Underway q q' equations where
  filled : ∀ {c s t}, q'.frames.slot? c = some s → s.scratch = some t → t ≠ .var .wildcard

namespace Chasing

variable {e e' : Equation} {q q' : Query} {equations : List Equation} {fs : Frames}

theorem start (hr : e.Regular q) : Chasing e q q [e] where
  toPursuing := .start hr.sound.blank
  toUnderway := .start hr.sound (List.forall_mem_singleton.2 hr.reads)
  filled hs ht := by
    rw [hr.sound.blank hs] at ht
    cases ht

/-- No cell that is met shows a wildcard. -/
theorem shown_ne (h : Chasing e q q' equations) (hr : e.Regular q) {c : Cell}
    {name : String} {s : Slot} {t : Term} (hc : e.Meets q.frames (.ref c name))
    (hs : q'.frames.slot? c = some s) (ht : Frames.Slot.shown true s = some t) :
    t ≠ .var .wildcard := by
  rcases h.shown_cases hs ht with ⟨s₀, hs₀, hv⟩ | hscratch
  · rintro rfl
    exact hr.starless c name s₀ hc hs₀ hv
  · exact h.filled hs hscratch

/-- In an arena that is ahead, a cell that is met matches what it leads to
does, which is no wildcard. -/
theorem of_follow (h : Chasing e q q' equations) (hr : e.Regular q)
    (hahead : q'.frames.Ahead fs) (cells : Nat) {c : Cell} {name : String}
    (hc : e.Meets q.frames (.ref c name)) :
    q'.frames.follow true cells c name ≠ .var .wildcard
      ∧ ∀ τ, fs.Matches (q'.frames.follow true cells c name) τ → fs.Matches (.ref c name) τ := by
  induction cells generalizing c name with
  | zero => exact ⟨Term.ref_ne_wildcard, fun _ hm => hm⟩
  | succ cells ih =>
    unfold Frames.follow
    split
    · exact ⟨Term.ref_ne_wildcard, fun _ hm => hm⟩
    · rename_i slot hslot
      have hvalue : ∀ {t τ}, Frames.Slot.shown true slot = some t → fs.Matches t τ →
          fs.Matches (.ref c name) τ := by
        intro t τ ht hm
        obtain ⟨s', hs', hv⟩ := hahead c slot t hslot ht
        exact .bound hs' hv (h.shown_ne hr hc hslot ht) hm
      split
      · exact ⟨Term.ref_ne_wildcard, fun _ hm => hm⟩
      · rename_i hshown
        obtain ⟨hne, hmatches⟩ := ih (h.shown hc hslot hshown)
        exact ⟨hne, fun τ hm => hvalue hshown (hmatches τ hm)⟩
      · rename_i hshown
        exact ⟨h.shown_ne hr hc hslot hshown, fun τ hm => hvalue hshown hm⟩

/-- The same of a side, unless it is a wildcard itself. -/
theorem of_side (h : Chasing e q q' equations) (hr : e.Regular q) (hahead : q'.frames.Ahead fs)
    {t : Term} {frame : Option FrameId} (ht : e.Comes q.frames t frame) (hw : t ≠ .var .wildcard) :
    q'.frames.side t frame ≠ .var .wildcard
      ∧ ∀ τ, fs.Matches (q'.frames.side t frame) τ → fs.Matches (q.frames.bindIn t frame) τ := by
  -- what the cell leads to is live, so the frame adds nothing to it
  have hread : ∀ {u τ}, e.Meets q.frames u → fs.Matches (q'.frames.bindIn u frame) τ →
      fs.Matches u τ := by
    intro u τ hu hm
    cases frame with
    | none => exact hm
    | some f => exact hm.of_bindTo (hu.live hr.sound.arena hr.reads)
  have hfollow : ∀ {c name}, q'.frames.bindIn t frame = .ref c name →
      q'.frames.bindIn (q'.frames.follow true (q'.frames.made + 1) c name) frame ≠ .var .wildcard
        ∧ ∀ τ, fs.Matches (q'.frames.bindIn (q'.frames.follow true (q'.frames.made + 1) c name)
            frame) τ → fs.Matches (q'.frames.bindIn t frame) τ := by
    intro c name hc
    have hmet : e.Meets q.frames (.ref c name) := by
      rw [← hc, h.reslots.bindIn]
      exact ht.met
    obtain ⟨hne, hmatches⟩ := h.of_follow hr hahead (q'.frames.made + 1) hmet
    rw [hc]
    exact ⟨Frames.bindIn_ne_wildcard hne, fun τ hm => hmatches τ (hread (h.follow _ hmet) hm)⟩
  rw [← h.reslots.bindIn]
  unfold Frames.side Frames.tentative
  split
  · exact absurd rfl hw
  · rename_i v f hv
    refine hfollow ?_
    cases v with
    | wildcard => exact absurd rfl hv
    | named | slot => rfl
  · refine hfollow ?_
    cases frame <;> rfl
  · exact ⟨Frames.bindIn_ne_wildcard hw, fun _ hm => hm⟩

/-- Once what it asks for is granted, an equation is in balance. -/
theorem balances (h : Chasing e q q' (e' :: equations)) (hr : e.Regular q)
    (hreslots : q.frames.Reslots fs) (hahead : q'.frames.Ahead fs)
    (hends : ∀ t, e.Meets q.frames t → ∃ τ, fs.Matches t τ)
    (hv : (e'.decide q'.frames).Granted fs) : ∃ τ, fs.Balances e' τ := by
  obtain ⟨hleft, hright⟩ := h.comes e' List.mem_cons_self
  have hwild : ∀ {t frame}, t.isWildcard = true → ∀ τ, fs.Matches (fs.bindIn t frame) τ := by
    intro t frame ht τ
    rw [Term.isWildcard_iff.1 ht]
    exact Frames.Matches.wildcard.bindIn frame
  have hmatches : ∀ {t frame}, e.Comes q.frames t frame → ∃ τ, fs.Matches (fs.bindIn t frame) τ := by
    intro t frame ht
    rw [hreslots.bindIn]
    exact hends _ ht.met
  unfold Equation.decide at hv
  by_cases hx : e'.left.isWildcard = true
  · obtain ⟨τ, hτ⟩ := hmatches hright
    exact ⟨τ, hwild hx τ, hτ⟩
  by_cases hy : e'.right.isWildcard = true
  · obtain ⟨τ, hτ⟩ := hmatches hleft
    exact ⟨τ, hτ, hwild hy τ⟩
  rw [if_neg (by simp [hx, hy])] at hv
  have hlive : ∀ {u}, e.Meets q.frames u → u.Live (fs.world true) := fun hu =>
    (hu.live hr.sound.arena hr.reads).mono hreslots.grows.world_le fun _ hraw => hraw
  obtain ⟨hwx, hofx⟩ := h.of_side hr hahead hleft (mt Term.isWildcard_iff.2 hx)
  obtain ⟨hwy, hofy⟩ := h.of_side hr hahead hright (mt Term.isWildcard_iff.2 hy)
  have hmx := h.side hleft
  have hmy := h.side hright
  obtain ⟨τ, hxτ, hyτ⟩ := Equation.exists_matches_of_granted (hlive hmx) (hlive hmy) hwx hwy
    (hends _ hmx) (hends _ hmy) hv
  refine ⟨τ, ?_, ?_⟩
  · rw [hreslots.bindIn]
    exact hofx τ hxτ
  · rw [hreslots.bindIn]
    exact hofy τ hyτ

theorem rest (h : Chasing e q q' (e' :: equations)) : Chasing e q q' equations :=
  ⟨h.toPursuing.rest, h.toUnderway.rest, h.filled⟩

theorem append {es : List Equation} (h : Chasing e q q' equations)
    (hcomes : ∀ e' ∈ es, e.Comes q.frames e'.left e'.leftIn ∧ e.Comes q.frames e'.right e'.rightIn)
    (hreads : ∀ e' ∈ es, e'.Reads true q'.frames) : Chasing e q q' (es ++ equations) :=
  ⟨h.toPursuing.append hcomes, h.toUnderway.append hreads, h.filled⟩

/-- One more binding, to what is no wildcard. -/
theorem bind (h : Chasing e q q' equations) {cell : Cell} {name : String} {value : Term}
    (hv : (Verdict.bind cell name value).Sound true q'.frames) (hmet : e.Meets q.frames value)
    (hne : value ≠ .var .wildcard) :
    q'.frames.slot? cell = some ⟨none, none⟩ ∧ Chasing e q
      { q' with frames := q'.frames.scratched cell value, pending := cell :: q'.pending }
      equations := by
  obtain ⟨hs, hunderway⟩ := h.toUnderway.bind hv
  refine ⟨hs, ⟨h.toPursuing.bind cell hmet _, hunderway, fun {c s t} hc ht => ?_⟩⟩
  by_cases heq : c = cell
  · subst heq
    rw [Frames.slot?_modifySlot] at hc
    obtain ⟨s₀, -, rfl⟩ := Option.map_eq_some_iff.1 hc
    cases ht
    exact hne
  · rw [Frames.slot?_modifySlot_of_ne _ _ heq] at hc
    exact h.filled hc ht

/-- A cell is bound to no wildcard. -/
theorem bound_ne (h : Chasing e q q' (e' :: equations)) (hr : e.Regular q) {cell : Cell}
    {name : String} {value : Term} (hv : e'.decide q'.frames = .bind cell name value) :
    value ≠ .var .wildcard := by
  obtain ⟨hleft, hright⟩ := h.comes e' List.mem_cons_self
  have hahead := (h.settles hr.sound).ahead
  unfold Equation.decide at hv
  split at hv
  · cases hv
  rename_i hwild
  rw [Bool.or_eq_true, not_or, Term.isWildcard_iff, Term.isWildcard_iff] at hwild
  have hwx := (h.of_side hr hahead hleft hwild.1).1
  have hwy := (h.of_side hr hahead hright hwild.2).1
  unfold Equation.decideSides at hv
  split at hv
  · cases hv
  split at hv
  · split at hv
    · cases hv
      exact hwx
    · cases hv
      exact hwy
  · cases hv
    exact hwy
  · cases hv
    exact hwx
  · cases hv
  · cases hv
  · split at hv
    · split at hv <;> cases hv
    · cases hv

/-- If the bindings are acyclic, following them ends. -/
theorem ends (h : Chasing e q q' []) (hr : e.Regular q)
    (hacyclic : (q'.frames.commit q'.pending).Acyclic) (t : Term) (hmet : e.Meets q.frames t) :
    ∃ τ, (q'.frames.commit q'.pending).Matches t τ := by
  have hsettles := h.settles hr.sound
  refine hacyclic.matches (P := e.Meets q.frames) (fun {t u} ht hl => ?_) (fun {t} hmet => ?_) hmet
  · cases hl with
    | value hs' hv =>
      obtain ⟨s, hs, hshown⟩ := hsettles.shown hs'
      exact h.shown ht hs (hshown.trans hv)
    | arg hc ha => exact ht.leads (.arg hc ha)
  · have hlive := hmet.live hr.sound.arena hr.reads
    cases t with
    | var v =>
      obtain rfl | ⟨-, hraw⟩ := Term.fits_var.1 hlive
      · exact .inl rfl
      · cases hraw
    | ref c name =>
      obtain ⟨s₀, hs₀⟩ := Option.isSome_iff_exists.1 ((Term.fits_ref.1 hlive).2 rfl)
      have hsame := h.values c
      rw [hs₀, Option.map_some] at hsame
      obtain ⟨s, hs, -⟩ := Option.map_eq_some_iff.1 hsame
      obtain ⟨s', hs', hv⟩ := hsettles.slot hs
      refine .inr (.inr (.inr ⟨c, name, s', rfl, hs', fun hwild => ?_⟩))
      exact h.shown_ne hr hmet hs (hv.symm.trans hwild) rfl
    | thunk id => exact absurd hmet (hr.thunkless id)
    | compound | closure => exact .inr (.inr (.inl rfl))
    | _ => exact .inr (.inl rfl)

end Chasing

/-- On the way from one query to the other the equations were solved: what
was bound holds, and if the bindings are acyclic the equations are in
balance. -/
structure Chased (e : Equation) (q q' q'' : Query) (equations : List Equation) : Prop where
  chasing : Chasing e q q'' []
  ahead : q'.frames.Ahead (q''.frames.commit q''.pending)
  balances : (q''.frames.commit q''.pending).Acyclic →
    ∀ e' ∈ equations, ∃ τ, (q''.frames.commit q''.pending).Balances e' τ

section

variable {e e' : Equation} {q q' q'' : Query} {equations : List Equation}

theorem Chased.reslots (h : Chased e q q' q'' equations) :
    q.frames.Reslots (q''.frames.commit q''.pending) :=
  h.chasing.reslots.trans (Frames.reslots_foldl_modifySlot _ q''.frames q''.pending).1

/-- One equation more, whose verdict the bindings grant. -/
theorem Chased.cons (h : Chased e q q' q'' equations) (hr : e.Regular q)
    (hchasing : Chasing e q q' (e' :: equations))
    (hv : (q''.frames.commit q''.pending).Acyclic →
      (e'.decide q'.frames).Granted (q''.frames.commit q''.pending)) :
    Chased e q q' q'' (e' :: equations) := by
  refine ⟨h.chasing, h.ahead, fun hacyclic => List.forall_mem_cons.2 ⟨?_, h.balances hacyclic⟩⟩
  exact hchasing.balances hr h.reslots h.ahead (h.chasing.ends hr hacyclic) (hv hacyclic)

/-- What solving equations has bound brings them in balance. The arena in
which they are to balance is the last one: it is ahead of every one before, so
what any step asked for is granted in it. -/
theorem solveWithin_balances (hr : e.Regular q) (steps : Nat) (h : Chasing e q q' equations)
    {env : Env} {db : Database} {m : Machine}
    (hended : solveWithin steps equations env ⟨db, q'⟩ = .ok true m) :
    Chased e q q' m.query equations := by
  induction steps generalizing q' equations with
  | zero => cases hended
  | succ steps ih =>
    obtain _ | ⟨e', rest⟩ := equations
    · cases hended
      exact ⟨h, (h.settles hr.sound).ahead, fun _ _ hmem => absurd hmem List.not_mem_nil⟩
    have hpursued := h.decide_pursued hr.sound.arena hr.reads hr.thunkless
    have hsound := h.toUnderway.sound hr.sound
    rw [solveWithin_cons] at hended
    cases hv : e'.decide q'.frames with
    | solved =>
      rw [hv] at hended
      exact (ih h.rest hended).cons hr h fun _ => hv ▸ trivial
    | clash =>
      rw [hv] at hended
      cases hended
    | bind cell name value =>
      rw [hv] at hended hpursued hsound
      obtain ⟨hs, hbound⟩ := h.rest.bind hsound hpursued (h.bound_ne hr hv)
      simp only [bindTentatively_apply hs] at hended
      have hrest := ih hbound hended
      obtain ⟨hahead, hgranted⟩ := hrest.ahead.of_scratched hs
      exact Chased.cons ⟨hrest.chasing, hahead, hrest.balances⟩ hr h fun _ => hv ▸ hgranted
    | split es =>
      rw [hv] at hended hpursued hsound
      have hrest := ih (h.rest.append hpursued hsound) hended
      have hbalances := fun hacyclic => List.forall_mem_append.1 (hrest.balances hacyclic)
      exact Chased.cons ⟨hrest.chasing, hrest.ahead, fun hacyclic => (hbalances hacyclic).2⟩ hr h
        fun hacyclic => hv ▸ (hbalances hacyclic).1
    | forceLeft | forceRight =>
      rw [hv] at hpursued
      exact hpursued.elim

theorem solveWithin_of_solve {env : Env} {m m' : Machine}
    (h : solve equations env m = .ok true m') :
    solveWithin env.steps equations env m = .ok true m' := by
  simp only [solve, bind_apply, steps_apply, attempt_apply] at h
  cases hended : solveWithin env.steps equations env m with
  | ok found m₁ =>
    rw [hended] at h
    cases found with
    | true => exact h
    | false => cases h
  | error failure m₁ =>
    rw [hended] at h
    cases h

/-- Once what it has bound is committed, an equation that was solved is solved
again, and nothing more is bound. -/
theorem solve_again (hr : e.Regular q) {env : Env} {db : Database} {m m' : Machine}
    (hended : solve [e] env ⟨db, q⟩ = .ok true m) (hcommit : commit env m = .ok ⟨⟩ m')
    (hacyclic : m'.query.frames.Acyclic) :
    ∃ steps, ∀ env' : Env, steps ≤ env'.steps → solve [e] env' m' = .ok true m' := by
  have hchased := solveWithin_balances hr env.steps (.start hr) (solveWithin_of_solve hended)
  cases hcommit
  obtain ⟨τ, hτ⟩ := hchased.balances hacyclic e List.mem_cons_self
  have hreads : e.Reads true (m.query.frames.commit m.query.pending) :=
    ⟨hr.reads.left.reslots hchased.reslots, hr.reads.right.reslots hchased.reslots⟩
  exact ⟨τ.size + 1, fun env' hsteps =>
    solve_of_balances (hchased.chasing.solving.commit hr.sound).sound hreads hτ hsteps m.db⟩

end

-- ================================================== cells bound to a wildcard

section

variable {fs : Frames} {q : Query} {e : Equation} {c d : Cell} {x y : String} {s : Slot}

theorem solve_of_bind {value : Term} (hv : e.decide q.frames = .bind c x value)
    (hs : q.frames.slot? c = some s) {env : Env} (hsteps : 1 < env.steps) (db : Database) :
    solve [e] env ⟨db, q⟩ = .ok true
      ⟨db, { q with frames := q.frames.scratched c value, pending := c :: q.pending }⟩ := by
  obtain ⟨steps, hsteps⟩ := Nat.exists_eq_add_of_le' hsteps
  simp only [solve, bind_apply, steps_apply, attempt_apply, hsteps, solveWithin_cons, hv,
    bindTentatively_apply hs]
  rfl

theorem solve_of_clash (hv : e.decide q.frames = .clash) (hpending : q.pending = []) {env : Env}
    (hsteps : 0 < env.steps) (db : Database) : solve [e] env ⟨db, q⟩ = .ok false ⟨db, q⟩ := by
  obtain ⟨steps, hsteps⟩ := Nat.exists_eq_succ_of_ne_zero hsteps.ne'
  have hback : { q with frames := q.frames.rollback q.pending, pending := [] } = q := by
    cases q
    cases hpending
    rfl
  simp only [solve, bind_apply, steps_apply, attempt_apply, hsteps, solveWithin_cons, hv]
  exact congrArg (fun q => EStateM.Result.ok false (Machine.mk db q)) hback

theorem side_of_shown {v : Term} (hs : fs.slot? c = some s)
    (hv : Frames.Slot.shown true s = some v) (hne : ∀ d m, v ≠ .ref d m) :
    fs.side (.ref c x) none = v := by
  show fs.follow true (fs.made + 1) c x = v
  rw [Frames.follow, hs]
  dsimp only
  rw [hv]
  cases v with
  | ref d m => exact absurd rfl (hne d m)
  | _ => rfl

theorem side_of_unbound (hs : fs.slot? c = some s) (hv : Frames.Slot.shown true s = none) :
    fs.side (.ref c x) none = .ref c x := by
  show fs.follow true (fs.made + 1) c x = .ref c x
  rw [Frames.follow, hs]
  dsimp only
  rw [hv]

/-- A variable unifies with a cell that is bound to a wildcard, and is bound
to the wildcard too; then the two do not unify again. -/
theorem solve_bound_wildcard (hpending : q.pending = [])
    (hc : q.frames.slot? c = some ⟨some (.var .wildcard), none⟩)
    (hd : q.frames.slot? d = some ⟨none, none⟩) {env : Env} (hsteps : 1 < env.steps)
    (db : Database) : ∃ m m', solve [⟨.ref c x, none, .ref d y, none⟩] env ⟨db, q⟩ = .ok true m
      ∧ commit env m = .ok ⟨⟩ m'
      ∧ solve [⟨.ref c x, none, .ref d y, none⟩] env m' = .ok false m' := by
  have hbinds : Equation.decide q.frames ⟨.ref c x, none, .ref d y, none⟩
      = .bind d y (.var .wildcard) := by
    show Equation.decideSides q.frames (q.frames.side _ none) (q.frames.side _ none) = _
    rw [side_of_shown hc rfl nofun, side_of_unbound hd rfl]
    rfl
  have hne : c ≠ d := by
    rintro rfl
    cases hc.symm.trans hd
  -- both cells are now bound to the wildcard
  let fs := (q.frames.scratched d (.var .wildcard)).commit (d :: q.pending)
  have hcell : ∀ {b}, b = c ∨ b = d → fs.slot? b = some ⟨some (.var .wildcard), none⟩ := by
    rintro b (rfl | rfl)
    · simp only [fs, hpending, Frames.commit, List.foldl_cons, List.foldl_nil]
      rw [Frames.slot?_modifySlot_of_ne _ _ hne, Frames.slot?_modifySlot_of_ne _ _ hne, hc]
    · simp only [fs, hpending, Frames.commit, List.foldl_cons, List.foldl_nil]
      rw [Frames.slot?_modifySlot, Frames.slot?_modifySlot, hd]
      rfl
  have hclashes : Equation.decide fs ⟨.ref c x, none, .ref d y, none⟩ = .clash := by
    show Equation.decideSides fs (fs.side _ none) (fs.side _ none) = _
    rw [side_of_shown (hcell (.inl rfl)) rfl nofun, side_of_shown (hcell (.inr rfl)) rfl nofun]
    rfl
  exact ⟨_, _, solve_of_bind hbinds hd hsteps db, rfl,
    solve_of_clash hclashes rfl (Nat.zero_lt_of_lt hsteps) db⟩

/-- The first turn of a query for the goal guards it, and the catcher that the frame
keeps is a wildcard, while the variable of the goal is unbound. -/
def guardsWithWildcard (goal : Term) (db : Database) : Bool :=
  match Clause.ofGoal goal false db with
  | .ok entry db => match entry.code,
      Act.advance .running (Env.nested 2 0) ⟨db, Query.start entry⟩ with
    | .call .., .ok .running m => m.query.choices.serial == 1 && m.query.pending.isEmpty
      && match m.query.frames.slot? ⟨1, Control.catcherSlot⟩, m.query.frames.slot? ⟨0, 0⟩ with
        | some ⟨some (.var .wildcard), none⟩, some ⟨none, none⟩ => true
        | _, _ => false
    | _, _ => false
  | .error _ _ => false

/-- The frame of the guarded goal `catch(X, _, true)` keeps the catcher in a
cell: with `X` it unifies once, and not again. -/
theorem solve_bound_wildcard_catcher : ∃ db q c d, Session.Reached true ⟨db, [(q, .running)]⟩
    ∧ q.frames.slot? c = some ⟨some (.var .wildcard), none⟩
    ∧ q.frames.slot? d = some ⟨none, none⟩
    ∧ ∃ m m', solve [⟨.ref c "_", none, .ref d "X", none⟩] (Env.nested 2 0) ⟨db, q⟩ = .ok true m
      ∧ commit (Env.nested 2 0) m = .ok ⟨⟩ m'
      ∧ solve [⟨.ref c "_", none, .ref d "X", none⟩] (Env.nested 2 0) m' = .ok false m' := by
  obtain ⟨goal, hgoal, db₀, hdb₀, hrun⟩ : ∃ goal : Term, goal.Fits .none anyVars ∧ ∃ db₀,
      Session.Reached true ⟨db₀, []⟩ ∧ guardsWithWildcard goal db₀ = true :=
    ⟨.compound (.template 0) "catch" [.var (.named "X"), .var .wildcard, .atom "true"],
      by simp [Term.fits_compound, Term.fits_var, Term.isPlain, Var.name, anyVars],
      _, .step (.start false 1)
        (.request (.register (some ⟨"catch", 3⟩) (.framed .guarded))
          (by simp [Request.Detached, Procedure.Fits])), by cbv⟩
  unfold guardsWithWildcard at hrun
  cases hopen : Clause.ofGoal goal false db₀ with
  | error e db =>
    rw [hopen] at hrun
    cases hrun
  | ok entry db =>
    rw [hopen] at hrun
    dsimp only at hrun
    split at hrun
    · rename_i callee args next m hcode hadvanced
      simp only [Bool.and_eq_true, beq_iff_eq, List.isEmpty_iff] at hrun
      obtain ⟨⟨hserial, hpending⟩, hcells⟩ := hrun
      split at hcells
      · rename_i hc hd
        have hreached : Session.Reached true ⟨m.db, [(m.query, .running)]⟩ :=
          (hdb₀.step (.opened hgoal hopen)).step <|
            @Session.Step.advanced true _ _ [] [] _ _ _ _ 2 0 Nat.two_pos
              (fun _ hbare => by
                have hfail : entry.code = .fail := hbare.1
                rw [hcode] at hfail
                cases hfail)
              (fun _ => by rw [hserial]; decide) hadvanced
        exact ⟨m.db, m.query, _, _, hreached, hc, hd,
          solve_bound_wildcard hpending hc hd (by decide) m.db⟩
      · cases hcells
    · cases hrun

end

-- ================================================== the standard order

section

variable {q : Query} {e : Equation} {a b : Tree}

/-- Sides that stand for trees are level in the standard order if the trees
are equal. -/
theorem compareTerms_eq_iff (hq : q.Sound true) {x y : Term} (ha : q.frames.Means x a)
    (hb : q.frames.Means y b) {env : Env} (hsteps : a.size < env.steps) (db : Database) :
    compareTerms x y env ⟨db, q⟩ = .ok .eq ⟨db, q⟩ ↔ a = b := by
  rw [compareTerms_apply hq ha hb hsteps db, ← ha.resolves.compare_tops hq.arena hq.orderly.frames
    hb.resolves, EStateM.Result.ok.injEq]
  exact and_iff_left rfl

/-- Sides that stand for trees unify without a binding if the trees are
equal. -/
theorem solve_unbinding_iff (hq : q.Sound true) (he : e.Reads true q.frames)
    (hp : q.frames.Poses e (a, b)) {env : Env} (hsteps : a.size < env.steps) (db : Database) :
    (∃ m, solve [e] env ⟨db, q⟩ = .ok true m ∧ m.query.pending = []) ↔ a = b := by
  constructor
  · rintro ⟨m, hended, hpending⟩
    have hsolves := solve_exact hq (List.forall_mem_singleton.2 he) (.cons hp .nil) env db
    rw [hended] at hsolves
    obtain ⟨hequating, hunifiers⟩ := hsolves
    have hfulfils : m.query.frames.Fulfils Tree.cell := by
      intro c t τ hs _
      rw [hequating.solving.tentative.other (hpending ▸ List.not_mem_nil)] at hs
      cases hq.blank hs
    have hsame := (unifier_cons.1 ((hunifiers Tree.cell).1 hfulfils)).2
    rwa [Tree.subst_self, Tree.subst_self] at hsame
  · rintro rfl
    exact ⟨_, solve_of_balances hq he hp.balances hsteps db, hq.pending⟩

/-- A query binds nothing by asking whether two terms unify; but for that the
answer is the same as if it had unified them. -/
theorem unify_fails_iff (x y : Term) (env : Env) (m : Machine) :
    (∃ m', unify x y env m = .ok false m') ↔ ∃ m', unifiable x y env m = .ok false m' := by
  unfold unify unifiable
  simp only [bind_apply]
  cases solve [⟨x, none, y, none⟩] env m with
  | ok found m₁ =>
    cases found with
    | true => exact ⟨fun ⟨_, h⟩ => (nomatch h), fun ⟨_, h⟩ => (nomatch h)⟩
    | false => exact ⟨fun _ => ⟨_, rfl⟩, fun _ => ⟨_, rfl⟩⟩
  | error failure m₁ => exact ⟨fun ⟨_, h⟩ => (nomatch h), fun ⟨_, h⟩ => (nomatch h)⟩

/-- Unification, unification again and the standard order agree. Once what it
has bound is committed, and is acyclic, an equation that was solved is solved
again without a further binding, if no cell that is met is bound to a
wildcard. Where the bindings are acyclic and neither side meets a wildcard,
the two sides unify without a binding if they are level in the standard order.
And two terms do not unify if the question whether they do is answered with
no. -/
theorem unification_agrees (hq : q.Sound true) (he : e.Reads true q.frames)
    (ht : e.Thunkless q.frames) :
    (e.Starless q.frames → ∀ env db m m', solve [e] env ⟨db, q⟩ = .ok true m →
      commit env m = .ok ⟨⟩ m' → m'.query.frames.Acyclic →
      ∃ steps, ∀ env' : Env, steps ≤ env'.steps → solve [e] env' m' = .ok true m')
    ∧ (q.frames.Acyclic → e.Clear q.frames →
      ∃ steps, ∀ (env : Env) db, steps ≤ env.steps →
        ((∃ m, solve [e] env ⟨db, q⟩ = .ok true m ∧ m.query.pending = []) ↔
          compareTerms (q.frames.bindIn e.left e.leftIn) (q.frames.bindIn e.right e.rightIn) env
            ⟨db, q⟩ = .ok .eq ⟨db, q⟩))
    ∧ ∀ x y env db, (∃ m, unify x y env ⟨db, q⟩ = .ok false m) ↔
        ∃ m, unifiable x y env ⟨db, q⟩ = .ok false m := by
  refine ⟨fun hstar env db m m' hended hcommit hacyclic =>
    solve_again ⟨hq, he, ht, hstar⟩ hended hcommit hacyclic, fun hacyclic hclear => ?_,
    fun x y env db => unify_fails_iff x y env ⟨db, q⟩⟩
  obtain ⟨a, ha⟩ := hq.arena.resolves hacyclic he.left.bindIn hclear.left
  obtain ⟨b, hb⟩ := hq.arena.resolves hacyclic he.right.bindIn hclear.right
  refine ⟨a.size + 1, fun env db hsteps => ?_⟩
  rw [solve_unbinding_iff hq he ⟨ha, hb⟩ hsteps, compareTerms_eq_iff hq ⟨he.left.bindIn, ha⟩
    ⟨he.right.bindIn, hb⟩ hsteps]

end

/-- The equation of `X`, the first variable of the query, and `a`. -/
def naming : Equation := ⟨.ref ⟨Query.root, 0⟩ "X", none, .atom "a", none⟩

/-- In a query of two variables `X` and `a` are unified, and once `X` is `a`
they are unified again. -/
theorem unification_agrees_naming : ∃ db entry m m' steps,
    Session.Reached true ⟨db, [(Query.start entry, .running)]⟩
    ∧ solve [naming] (Env.nested 2 0) ⟨db, Query.start entry⟩ = .ok true m
    ∧ commit (Env.nested 2 0) m = .ok ⟨⟩ m'
    ∧ ∀ env : Env, steps ≤ env.steps → solve [naming] env m' = .ok true m' := by
  obtain ⟨db, entry, hreached, hlocals⟩ := exists_reached_pair
  have hsound := hreached.sound List.mem_cons_self
  have hcell := slot?_root hlocals (i := 0) (by decide)
  have hreads : naming.Reads true (Query.start entry).frames :=
    ⟨.bare (Term.fits_ref.2 (cell_root hlocals (by decide))), .bare Term.fits_atom⟩
  have hposes : (Query.start entry).frames.Poses naming
      (.cell ⟨Query.root, 0⟩, .const (.atom "a")) := ⟨.unbound hcell rfl, .const rfl⟩
  have hthunks : naming.Thunkless (Query.start entry).frames :=
    hsound.arena.thunkless hreads (fun u hu => (hposes.left.clear u hu).2)
      fun u hu => (hposes.right.clear u hu).2
  have hstar : naming.Starless (Query.start entry).frames := by
    intro c name s _ hs
    rw [slot?_start hs]
    exact nofun
  have hbinds : naming.decide (Query.start entry).frames
      = .bind ⟨Query.root, 0⟩ "X" (.atom "a") := by
    have hside : (Query.start entry).frames.side (.ref ⟨Query.root, 0⟩ "X") none
        = .ref ⟨Query.root, 0⟩ "X" := side_of_unbound hcell rfl
    show Equation.decideSides _ ((Query.start entry).frames.side (.ref ⟨Query.root, 0⟩ "X") none)
      (.atom "a") = _
    rw [hside]
    rfl
  have hsteps : 1 < (Env.nested 2 0).steps := by decide
  have hended := solve_of_bind hbinds hcell hsteps db
  have hacyclic : (((Query.start entry).frames.scratched ⟨Query.root, 0⟩ (.atom "a")).commit
      [⟨Query.root, 0⟩]).Acyclic := by
    refine Frames.acyclic_of_atomic fun c s v hs hv => ?_
    simp only [Frames.commit, List.foldl_cons, List.foldl_nil] at hs
    by_cases hc : c = ⟨Query.root, 0⟩
    · rw [hc, Frames.slot?_modifySlot, Frames.slot?_modifySlot, hcell] at hs
      cases hs
      cases hv
      rfl
    · rw [Frames.slot?_modifySlot_of_ne _ _ hc, Frames.slot?_modifySlot_of_ne _ _ hc] at hs
      rw [slot?_start hs] at hv
      cases hv
  obtain ⟨steps, hagain⟩ := (unification_agrees hsound hreads hthunks).1 hstar _ _ _ _ hended rfl
    hacyclic
  exact ⟨db, entry, _, _, steps, hreached, hended, rfl, hagain⟩

end Act

end LogicMachine
