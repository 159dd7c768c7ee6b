/-
What an equation between terms asks for, and what solving leaves open.

A tentative binding of a cell is an equation between the cell and the tree
that its value stands for; a valuation that solves all of them fulfils the
arena (`Frames.Fulfils`). What one equation asks for is exact: among the
valuations that fulfil the arena, those that make both sides equal are those
that solve what is asked instead (`Equation.decide_exact`). So solving keeps
the set of unifiers, and each equation that is decided takes away from the
size of what a unifier makes of those still open (`Act.solveWithin_exact`).
-/
import LogicMachine.Proofs.Trees
import LogicMachine.Proofs.Unifying

namespace LogicMachine

-- ================================================== pairs of trees

namespace Valuation

/-- The valuation makes the two trees of each pair equal. -/
def Unifies (σ : Valuation) (ps : List (Tree × Tree)) : Prop :=
  ∀ p ∈ ps, p.1.subst σ = p.2.subst σ

/-- The size of what the valuation makes of the first trees. -/
def weight (σ : Valuation) (ps : List (Tree × Tree)) : Nat :=
  (ps.map fun p => (p.1.subst σ).size).sum

section

variable {σ : Valuation} {p : Tree × Tree} {ps qs : List (Tree × Tree)}

theorem unifies_nil : σ.Unifies [] := fun _ hp => absurd hp List.not_mem_nil

theorem unifies_cons : σ.Unifies (p :: ps) ↔ p.1.subst σ = p.2.subst σ ∧ σ.Unifies ps :=
  List.forall_mem_cons

theorem unifies_append : σ.Unifies (ps ++ qs) ↔ σ.Unifies ps ∧ σ.Unifies qs :=
  List.forall_mem_append

theorem weight_nil : σ.weight [] = 0 := rfl

theorem weight_cons : σ.weight (p :: ps) = (p.1.subst σ).size + σ.weight ps := by
  rw [weight, List.map_cons, List.sum_cons, weight]

theorem weight_append : σ.weight (ps ++ qs) = σ.weight ps + σ.weight qs := by
  rw [weight, List.map_append, List.sum_append, weight, weight]

theorem weight_cons_pos : σ.weight ps < σ.weight (p :: ps) := by
  rw [weight_cons]
  exact Nat.lt_add_of_pos_left (Tree.size_pos _)

/-- Lists are made equal if their members are, pair by pair. -/
theorem unifies_zip {as bs : List Tree} (h : as.length = bs.length) :
    σ.Unifies (as.zip bs) ↔ as.map (Tree.subst σ) = bs.map (Tree.subst σ) := by
  induction as generalizing bs with
  | nil =>
    cases bs with
    | nil => exact ⟨fun _ => rfl, fun _ => unifies_nil⟩
    | cons => cases h
  | cons a as ih =>
    cases bs with
    | nil => cases h
    | cons b bs =>
      rw [List.zip_cons_cons, unifies_cons, ih (Nat.succ.inj h), List.map_cons, List.map_cons,
        List.cons.injEq]

theorem weight_zip_le (as bs : List Tree) :
    σ.weight (as.zip bs) ≤ ((as.map (Tree.subst σ)).map Tree.size).sum := by
  induction as generalizing bs with
  | nil => exact Nat.zero_le _
  | cons a as ih =>
    cases bs with
    | nil => exact Nat.zero_le _
    | cons b bs =>
      rw [List.zip_cons_cons, weight_cons, List.map_cons, List.map_cons, List.sum_cons]
      exact Nat.add_le_add_left (ih bs) _

/-- The arguments of a node weigh less than the node. -/
theorem weight_zip_lt (name : String) (as bs : List Tree) :
    σ.weight (as.zip bs) < ((Tree.node name as).subst σ).size := by
  rw [Tree.subst_node, Tree.size_node]
  exact Nat.lt_succ_of_le (weight_zip_le as bs)

end

end Valuation

-- ================================================== tentative bindings as equations

namespace Frames

/-- Every tentative value stands for a tree. -/
def Resolved (fs : Frames) : Prop :=
  ∀ c t, fs.slot? c = some ⟨none, some t⟩ → ∃ τ, fs.Resolves t τ

/-- The valuation gives every cell that is bound tentatively what it makes
of the value. -/
def Fulfils (fs : Frames) (σ : Valuation) : Prop :=
  ∀ c t τ, fs.slot? c = some ⟨none, some t⟩ → fs.Resolves t τ → σ c = τ.subst σ

/-- The valuations that fulfil the arena make the two trees equal. -/
def Agree (fs : Frames) (a b : Tree) : Prop := ∀ σ, fs.Fulfils σ → a.subst σ = b.subst σ

/-- The two sides of the equation stand for the two trees. -/
structure Poses (fs : Frames) (e : Equation) (p : Tree × Tree) : Prop where
  left : fs.Resolves (fs.bindIn e.left e.leftIn) p.1
  right : fs.Resolves (fs.bindIn e.right e.rightIn) p.2

section

variable {fs : Frames} {t : Term} {τ : Tree}

/-- What a cell shows stands for what the cell does, as far as the valuations
in question go. -/
theorem Resolves.of_shown {c : Cell} {name : String} {s : Slot} (h : fs.Resolves (.ref c name) τ)
    (hr : fs.Resolved) (hs : fs.slot? c = some s) (ht : Slot.shown true s = some t) :
    ∃ τ', fs.Resolves t τ' ∧ fs.Agree τ τ' := by
  obtain ⟨value, scratch⟩ := s
  cases value with
  | some v =>
    cases ht
    exact ⟨τ, h.of_value hs rfl, fun _ _ => rfl⟩
  | none =>
    obtain rfl : scratch = some t := ht
    obtain ⟨τ', hτ'⟩ := hr c t hs
    refine ⟨τ', hτ', fun σ hσ => ?_⟩
    rw [h.eq_cell hs rfl, Tree.subst_cell, hσ c t τ' hs hτ']

/-- With the tentative bindings followed too, a reference stands for a tree
that is the same under every valuation in question. -/
theorem follow_resolves (hr : fs.Resolved) (cells : Nat) {c : Cell} {name : String}
    (h : fs.Resolves (.ref c name) τ) :
    ∃ τ', fs.Resolves (fs.follow true cells c name) τ' ∧ fs.Agree τ τ' := by
  induction cells generalizing c name τ with
  | zero => exact ⟨τ, h, fun _ _ => rfl⟩
  | succ cells ih =>
    unfold follow
    split
    · exact ⟨τ, h, fun _ _ => rfl⟩
    · rename_i slot hslot
      split
      · exact ⟨τ, h, fun _ _ => rfl⟩
      · rename_i d m hshown
        obtain ⟨τ₁, h₁, he₁⟩ := h.of_shown hr hslot hshown
        obtain ⟨τ₂, h₂, he₂⟩ := ih h₁
        exact ⟨τ₂, h₂, fun σ hσ => (he₁ σ hσ).trans (he₂ σ hσ)⟩
      · rename_i hshown
        exact h.of_shown hr hslot hshown

theorem side_resolves (hr : fs.Resolved) {frame : Option FrameId}
    (h : fs.Resolves (fs.bindIn t frame) τ) :
    ∃ τ', fs.Resolves (fs.side t frame) τ' ∧ fs.Agree τ τ' := by
  have hfollow : ∀ {c name}, fs.Resolves (.ref c name) τ → ∃ τ',
      fs.Resolves (fs.bindIn (fs.follow true (fs.made + 1) c name) frame) τ' ∧ fs.Agree τ τ' := by
    intro c name h
    obtain ⟨τ', hτ', he⟩ := follow_resolves hr (fs.made + 1) h
    exact ⟨τ', hτ'.bindIn frame, he⟩
  unfold side tentative
  split
  · exact ⟨τ, h, fun _ _ => rfl⟩
  · rename_i v f hv
    exact hfollow (resolves_var h)
  · cases frame <;> exact hfollow h
  · exact ⟨τ, h, fun _ _ => rfl⟩

end

end Frames

-- ================================================== what an equation asks for

/-- Among the valuations that fulfil the arena, those that make the two
trees equal are those that solve what is asked for instead; and that is
smaller. -/
def Verdict.Exact (fs : Frames) (a b : Tree) : Verdict → Prop
  | .solved => fs.Agree a b
  | .clash => ∀ σ, fs.Fulfils σ → a.subst σ ≠ b.subst σ
  | .bind cell _ value => ∃ τ, fs.Resolves value τ
      ∧ ∀ σ, fs.Fulfils σ → (a.subst σ = b.subst σ ↔ σ cell = τ.subst σ)
  | .split equations => ∃ ps, List.Forall₂ fs.Poses equations ps
      ∧ ∀ σ, fs.Fulfils σ → (a.subst σ = b.subst σ ↔ σ.Unifies ps) ∧ σ.weight ps < (a.subst σ).size
  | .forceLeft _ _ | .forceRight _ _ => False

section

variable {fs : Frames} {a b a' b' : Tree}

theorem Verdict.Exact.of_agree {v : Verdict} (h : v.Exact fs a' b') (ha : fs.Agree a a')
    (hb : fs.Agree b b') : v.Exact fs a b := by
  cases v with
  | solved => exact fun σ hσ => (ha σ hσ).trans ((h σ hσ).trans (hb σ hσ).symm)
  | clash =>
    intro σ hσ
    rw [ha σ hσ, hb σ hσ]
    exact h σ hσ
  | bind cell name value =>
    obtain ⟨τ, hτ, hiff⟩ := h
    refine ⟨τ, hτ, fun σ hσ => ?_⟩
    rw [ha σ hσ, hb σ hσ]
    exact hiff σ hσ
  | split equations =>
    obtain ⟨ps, hps, hiff⟩ := h
    refine ⟨ps, hps, fun σ hσ => ?_⟩
    rw [ha σ hσ, hb σ hσ]
    exact hiff σ hσ
  | forceLeft => exact h
  | forceRight => exact h

/-- In a sound arena the arguments of a compound are read where it says. -/
theorem Frames.bindIn_home (fs : Frames) {t : Term} (ht : t.Live (fs.world true)) {name : String}
    {args : List Term} {home : Option FrameId} (hc : t.compound? = some (name, args, home))
    (a : Term) : fs.bindIn a home = a.bindIn home := by
  cases t with
  | compound form n as =>
    cases hc
    rfl
  | closure serial n as f =>
    cases hc
    obtain ⟨-, -, hown⟩ := (Term.fits_closure.1 ht).1
    show a.bindTo (fs.owner f) = a.bindTo f
    rw [hown]
  | _ => cases hc

namespace Equation

theorem poses_between {xs ys : List Term} {fx fy : Option FrameId} {τs τs' : List Tree}
    (hx : List.Forall₂ (fun a τ => fs.Resolves (fs.bindIn a fx) τ) xs τs)
    (hy : List.Forall₂ (fun a τ => fs.Resolves (fs.bindIn a fy) τ) ys τs') :
    List.Forall₂ fs.Poses (between xs fx ys fy) (τs.zip τs') := by
  induction hx generalizing ys τs' with
  | nil => exact .nil
  | cons hx _ ih =>
    cases hy with
    | nil => exact .nil
    | cons hy hys => exact .cons ⟨hx, hy⟩ (ih hys)

/-- Two compounds ask for their arguments, or cannot be made equal. -/
theorem compounds_exact {x y : Term} (hx : x.Live (fs.world true)) (hy : y.Live (fs.world true))
    (ha : fs.Resolves x a) (hb : fs.Resolves y b) {f g : String} {xs ys : List Term}
    {fx fy : Option FrameId} (hcx : x.compound? = some (f, xs, fx))
    (hcy : y.compound? = some (g, ys, fy)) :
    (if xs.length == ys.length && f == g then Verdict.split (between xs fx ys fy)
      else .clash).Exact fs a b := by
  obtain ⟨τs, rfl, hτs⟩ := (Frames.resolves_compound hcx).1 ha
  obtain ⟨τs', rfl, hτs'⟩ := (Frames.resolves_compound hcy).1 hb
  have hlen := hτs.length_eq
  have hlen' := hτs'.length_eq
  split
  · rename_i heq
    simp only [Bool.and_eq_true, beq_iff_eq] at heq
    obtain ⟨hxy, rfl⟩ := heq
    simp only [← fs.bindIn_home hx hcx, ← fs.bindIn_home hy hcy] at hτs hτs'
    refine ⟨τs.zip τs', poses_between hτs hτs', fun σ _ => ⟨?_, Valuation.weight_zip_lt f τs τs'⟩⟩
    rw [Valuation.unifies_zip (by omega), Tree.subst_node, Tree.subst_node, Tree.node.injEq]
    exact ⟨fun h => h.2, fun h => ⟨rfl, h⟩⟩
  · rename_i hne
    intro σ _ he
    rw [Tree.subst_node, Tree.subst_node, Tree.node.injEq] at he
    have hτ := congrArg List.length he.2
    rw [List.length_map, List.length_map] at hτ
    apply hne
    simp only [Bool.and_eq_true, beq_iff_eq]
    exact ⟨by omega, he.1⟩

/-- Different constants, or a constant and a compound, cannot be made equal. -/
theorem clash_exact {x y : Term} (ha : fs.Resolves x a) (hb : fs.Resolves y b)
    (hx : ∀ c name, x ≠ .ref c name) (hy : ∀ c name, y ≠ .ref c name)
    (hid : ¬ x.identical y = true)
    (hno : ∀ f xs fx g ys fy, x.compound? = some (f, xs, fx) → y.compound? ≠ some (g, ys, fy)) :
    Verdict.clash.Exact fs a b := by
  intro σ _ he
  rcases ha.kind with ⟨c, name, hc⟩ | ⟨hax, rfl⟩ | ⟨f, xs, fx, τs, hcx, rfl⟩
  · exact hx c name hc
  · rcases hb.kind with ⟨c, name, hc⟩ | ⟨-, rfl⟩ | ⟨g, ys, fy, τs, -, rfl⟩
    · exact hy c name hc
    · rw [Tree.subst_const, Tree.subst_const, Tree.const.injEq] at he
      subst he
      exact hid (Term.identical_of_isAtomic hax)
    · rw [Tree.subst_const, Tree.subst_node] at he
      cases he
  · rcases hb.kind with ⟨c, name, hc⟩ | ⟨-, rfl⟩ | ⟨g, ys, fy, τs', hcy, rfl⟩
    · exact hy c name hc
    · rw [Tree.subst_const, Tree.subst_node] at he
      cases he
    · exact hno _ _ _ _ _ _ hcx hcy

/-- Two sides that stand for themselves, an unbound cell for a cell. -/
theorem decideSides_exact {x y : Term} (hx : x.Live (fs.world true)) (hy : y.Live (fs.world true))
    (ha : fs.Resolves x a) (hb : fs.Resolves y b) (hux : ∀ d m, x = .ref d m → a = .cell d)
    (huy : ∀ d m, y = .ref d m → b = .cell d) : (decideSides fs x y).Exact fs a b := by
  have hleft : ∀ {d m}, x = .ref d m → (Verdict.bind d m y).Exact fs a b := by
    rintro d m he
    obtain rfl := hux d m he
    exact ⟨b, hb, fun σ _ => by rw [Tree.subst_cell]⟩
  have hright : ∀ {d m}, y = .ref d m → (Verdict.bind d m x).Exact fs a b := by
    rintro d m he
    obtain rfl := huy d m he
    exact ⟨a, ha, fun σ _ => by rw [Tree.subst_cell]; exact eq_comm⟩
  unfold decideSides
  split
  · rename_i hid
    intro σ _
    rw [hb.eq_of_matches (ha.matches.of_identical hx hy hid)]
  · rename_i hid
    split
    · split
      · exact hright rfl
      · exact hleft rfl
    · exact hleft rfl
    · exact hright rfl
    · exact absurd ha Frames.not_resolves_thunk
    · exact absurd hb Frames.not_resolves_thunk
    · split
      · rename_i hcx hcy
        exact compounds_exact hx hy ha hb hcx hcy
      · rename_i hrefx _ hrefy _ _ _ _ hno
        exact clash_exact ha hb hrefx hrefy hid hno

/-- What an equation asks for is exact. -/
theorem decide_exact (hs : fs.Sound true) (hw : fs.Within) (hr : fs.Resolved) {e : Equation}
    (he : e.Reads true fs) (hp : fs.Poses e (a, b)) : (e.decide fs).Exact fs a b := by
  obtain ⟨a', ha, hagree⟩ := Frames.side_resolves hr hp.left
  obtain ⟨b', hb, hagree'⟩ := Frames.side_resolves hr hp.right
  have hstar : ∀ {t : Term} {home τ}, t.isWildcard = true → ¬ fs.Resolves (fs.bindIn t home) τ := by
    intro t home τ ht
    obtain rfl := Term.isWildcard_iff.1 ht
    cases home <;> exact Frames.not_resolves_var
  have hcell : ∀ {d m τ}, (∃ s, fs.slot? d = some s ∧ Frames.Slot.shown true s = none) →
      fs.Resolves (.ref d m) τ → τ = .cell d := by
    rintro d m τ ⟨s, hslot, hshown⟩ h
    exact h.eq_cell hslot (Frames.value_of_shown hshown)
  unfold decide
  split
  · rename_i hwild
    rw [Bool.or_eq_true] at hwild
    rcases hwild with hwild | hwild
    · exact absurd hp.left (hstar hwild)
    · exact absurd hp.right (hstar hwild)
  · refine (decideSides_exact (hs.side_live he.left) (hs.side_live he.right) ha hb ?_ ?_).of_agree
      hagree hagree'
    · intro d m hd
      exact hcell (hs.side_unbound hw he.left hd) (hd ▸ ha)
    · intro d m hd
      exact hcell (hs.side_unbound hw he.right hd) (hd ▸ hb)

end Equation

end

-- ================================================== binding a cell

namespace Frames

/-- The arena with a cell bound tentatively. -/
abbrev scratched (fs : Frames) (cell : Cell) (value : Term) : Frames :=
  fs.modifySlot cell fun s => { s with scratch := some value }

section

variable {fs : Frames} {cell : Cell} {value : Term} {t : Term} {τ : Tree} {σ : Valuation}

theorem values_scratched (fs : Frames) (cell : Cell) (value : Term) (c : Cell) :
    ((fs.scratched cell value).slot? c).map (·.value) = (fs.slot? c).map (·.value) := by
  rw [slot?_modifySlot_eq]
  split
  · cases fs.slot? c <;> rfl
  · rfl

theorem resolves_scratched : (fs.scratched cell value).Resolves t τ ↔ fs.Resolves t τ :=
  ⟨.congr fun c => (values_scratched fs cell value c).symm, .congr (values_scratched fs cell value)⟩

theorem Poses.scratched {e : Equation} {p : Tree × Tree} (h : fs.Poses e p) :
    (fs.scratched cell value).Poses e p := by
  have hbind := (Reslots.modifySlot fs cell fun s => { s with scratch := some value }).bindIn
  refine ⟨resolves_scratched.2 ?_, resolves_scratched.2 ?_⟩
  · rw [hbind]
    exact h.left
  · rw [hbind]
    exact h.right

theorem slot?_scratched (hs : fs.slot? cell = some ⟨none, none⟩) {c : Cell} :
    (fs.scratched cell value).slot? c = some ⟨none, some t⟩ ↔
      (c = cell ∧ t = value) ∨ fs.slot? c = some ⟨none, some t⟩ := by
  rw [slot?_modifySlot_eq]
  split
  · rename_i hc
    rw [hc, hs]
    simp [eq_comm]
  · rename_i hc
    exact ⟨.inr, fun h => h.resolve_left fun he => hc he.1⟩

/-- A valuation fulfils one more binding if it fulfils the others and solves
it. -/
theorem fulfils_scratched (hs : fs.slot? cell = some ⟨none, none⟩) (hτ : fs.Resolves value τ) :
    (fs.scratched cell value).Fulfils σ ↔ fs.Fulfils σ ∧ σ cell = τ.subst σ := by
  constructor
  · intro h
    refine ⟨fun c t τ' hc ht => ?_, ?_⟩
    · exact h c t τ' ((slot?_scratched hs).2 (.inr hc)) (resolves_scratched.2 ht)
    · exact h cell value τ ((slot?_scratched hs).2 (.inl ⟨rfl, rfl⟩)) (resolves_scratched.2 hτ)
  · rintro ⟨h, hcell⟩ c t τ' hc ht
    rw [resolves_scratched] at ht
    rcases (slot?_scratched hs).1 hc with ⟨rfl, rfl⟩ | hc
    · rw [hcell, hτ.unique ht]
    · exact h c t τ' hc ht

theorem Resolved.scratched (h : fs.Resolved) (hs : fs.slot? cell = some ⟨none, none⟩)
    (hτ : fs.Resolves value τ) : (fs.scratched cell value).Resolved := by
  intro c t hc
  rcases (slot?_scratched hs).1 hc with ⟨-, rfl⟩ | hc
  · exact ⟨τ, resolves_scratched.2 hτ⟩
  · obtain ⟨τ', ht⟩ := h c t hc
    exact ⟨τ', resolves_scratched.2 ht⟩

end

end Frames

-- ================================================== solving

namespace Act

/-- A query in which equations remain to be solved. -/
structure Underway (q q' : Query) (equations : List Equation) : Prop where
  solving : Solving true q q'
  nodup : q'.pending.Nodup
  reads : ∀ e ∈ equations, e.Reads true q'.frames

namespace Underway

variable {q q' : Query} {e : Equation} {equations es : List Equation}

theorem start (hq : q.Sound true) (hr : ∀ e ∈ equations, e.Reads true q.frames) :
    Underway q q equations where
  solving := .start hq
  nodup := by
    rw [hq.pending]
    exact List.nodup_nil
  reads := hr

theorem rest (h : Underway q q' (e :: equations)) : Underway q q' equations :=
  { h with reads := fun e' he => h.reads e' (List.mem_cons_of_mem e he) }

theorem within (h : Underway q q' equations) (hq : q.Sound true) : q'.frames.Within :=
  h.solving.tentative.reslots.within h.solving.tentative.made hq.within

theorem sound (h : Underway q q' (e :: equations)) (hq : q.Sound true) :
    (e.decide q'.frames).Sound true q'.frames :=
  e.decide_sound h.solving.arena
    (hq.orderly.frames.heads_same (.of_reslots h.solving.tentative.reslots)) (h.within hq)
    (h.reads e List.mem_cons_self)

theorem append (h : Underway q q' equations) (hr : ∀ e ∈ es, e.Reads true q'.frames) :
    Underway q q' (es ++ equations) :=
  { h with reads := fun e' he => (List.mem_append.1 he).elim (hr e') (h.reads e') }

/-- A cell to be bound shows nothing, so it is bound once. -/
theorem bind (h : Underway q q' equations) {cell : Cell} {name : String} {value : Term}
    (hv : (Verdict.bind cell name value).Sound true q'.frames) :
    q'.frames.slot? cell = some ⟨none, none⟩ ∧ Underway q
      { q' with frames := q'.frames.scratched cell value, pending := cell :: q'.pending }
      equations := by
  obtain ⟨⟨bound, scratch⟩, hs, hshown⟩ := hv.2.1 rfl
  obtain rfl : bound = none := Frames.value_of_shown hshown
  obtain rfl : scratch = none := hshown
  have hnot : cell ∉ q'.pending := by
    intro hmem
    obtain ⟨s, t, -, hs', -⟩ := h.solving.tentative.bound hmem
    rw [hs, Option.some.injEq, Slot.mk.injEq] at hs'
    cases hs'.2
  exact ⟨hs, {
    solving := h.solving.bind hs hv.1 hv.2
    nodup := List.nodup_cons.2 ⟨hnot, h.nodup⟩
    reads := fun e he => ⟨(h.reads e he).left.reslots (.modifySlot ..),
      (h.reads e he).right.reslots (.modifySlot ..)⟩ }⟩

/-- Committed cells hold what they did. -/
theorem values (h : Underway q q' equations) (c : Cell) :
    (q'.frames.slot? c).map (·.value) = (q.frames.slot? c).map (·.value) := by
  by_cases hc : c ∈ q'.pending
  · obtain ⟨s, t, hs, hs', -⟩ := h.solving.tentative.bound hc
    rw [hs, hs']
    rfl
  · rw [h.solving.tentative.other hc]

end Underway

/-- A query in which equations, that pose pairs of trees, remain to be
solved. -/
structure Equating (q q' : Query) (equations : List Equation) (ps : List (Tree × Tree)) : Prop
    extends Underway q q' equations where
  resolved : q'.frames.Resolved
  poses : List.Forall₂ q'.frames.Poses equations ps

namespace Equating

variable {q q' : Query} {e : Equation} {equations : List Equation} {p : Tree × Tree}
  {ps : List (Tree × Tree)}

theorem start (hq : q.Sound true) (hr : ∀ e ∈ equations, e.Reads true q.frames)
    (hp : List.Forall₂ q.frames.Poses equations ps) : Equating q q equations ps where
  toUnderway := .start hq hr
  resolved c t hc := by cases hq.blank hc
  poses := hp

theorem rest (h : Equating q q' (e :: equations) (p :: ps)) : Equating q q' equations ps where
  toUnderway := h.toUnderway.rest
  resolved := h.resolved
  poses := (List.forall₂_cons.1 h.poses).2

theorem exact (h : Equating q q' (e :: equations) (p :: ps)) (hq : q.Sound true) :
    (e.decide q'.frames).Exact q'.frames p.1 p.2 :=
  e.decide_exact h.solving.arena (h.within hq) h.resolved (h.reads e List.mem_cons_self)
    (List.forall₂_cons.1 h.poses).1

theorem split {es : List Equation} {qs : List (Tree × Tree)}
    (h : Equating q q' (e :: equations) (p :: ps)) (hr : ∀ e ∈ es, e.Reads true q'.frames)
    (hp : List.Forall₂ q'.frames.Poses es qs) : Equating q q' (es ++ equations) (qs ++ ps) where
  toUnderway := h.toUnderway.rest.append hr
  resolved := h.resolved
  poses := List.rel_append hp h.rest.poses

theorem bind (h : Equating q q' equations ps) {cell : Cell} {name : String} {value : Term} {τ : Tree}
    (hv : (Verdict.bind cell name value).Sound true q'.frames) (hτ : q'.frames.Resolves value τ) :
    q'.frames.slot? cell = some ⟨none, none⟩ ∧ Equating q
      { q' with frames := q'.frames.scratched cell value, pending := cell :: q'.pending }
      equations ps := by
  obtain ⟨hs, hunderway⟩ := h.toUnderway.bind hv
  exact ⟨hs, {
    toUnderway := hunderway
    resolved := h.resolved.scratched hs hτ
    poses := h.poses.imp fun _ _ hp => hp.scratched }⟩

end Equating

/-- The unifiers of the pairs among the valuations that fulfil the arena. -/
def Unifier (q : Query) (ps : List (Tree × Tree)) (σ : Valuation) : Prop :=
  q.frames.Fulfils σ ∧ σ.Unifies ps

/-- Solving ended as it should, given how many unifiers there are: what is
left open when it succeeds is fulfilled by all of them and no others, when it
fails there are none, and when the steps were used up every one of them
weighs as much. -/
def Solves (q q' : Query) (ps : List (Tree × Tree)) (steps : Nat) :
    EStateM.Result Failure Machine Bool → Prop
  | .ok true m => Equating q m.query [] [] ∧ ∀ σ, m.query.frames.Fulfils σ ↔ Unifier q' ps σ
  | .ok false _ => ∀ σ, ¬ Unifier q' ps σ
  | .error _ _ => ∀ σ, Unifier q' ps σ → steps ≤ σ.weight ps

section

variable {q q' q'' : Query} {e : Equation} {equations : List Equation} {p : Tree × Tree}
  {ps qs : List (Tree × Tree)}

/-- One step that keeps the unifiers and makes them weigh less. -/
theorem Solves.step {steps : Nat} {r : EStateM.Result Failure Machine Bool}
    (h : Solves q q'' qs steps r) (hsame : ∀ σ, Unifier q'' qs σ ↔ Unifier q' ps σ)
    (hless : ∀ σ, Unifier q' ps σ → σ.weight qs < σ.weight ps) : Solves q q' ps (steps + 1) r := by
  cases r with
  | ok found m =>
    cases found with
    | true => exact ⟨h.1, fun σ => (h.2 σ).trans (hsame σ)⟩
    | false => exact fun σ hσ => h σ ((hsame σ).2 hσ)
  | error failure m => exact fun σ hσ => (h σ ((hsame σ).2 hσ)).trans_lt (hless σ hσ)

theorem unifier_cons {σ : Valuation} :
    Unifier q (p :: ps) σ ↔ Unifier q ps σ ∧ p.1.subst σ = p.2.subst σ := by
  unfold Unifier
  rw [Valuation.unifies_cons]
  tauto

theorem bindTentatively_apply {cell : Cell} {s : Slot} (hs : q.frames.slot? cell = some s)
    (name : String) (value : Term) (env : Env) (db : Database) :
    bindTentatively cell name value env ⟨db, q⟩ = .ok ⟨⟩ ⟨db, { q with
      frames := q.frames.scratched cell value, pending := cell :: q.pending }⟩ := by
  rw [bindTentatively_eq, hs]
  rfl

/-- Solving keeps the unifiers, and each step takes from their weight. -/
theorem solveWithin_exact (hq : q.Sound true) (steps : Nat) (h : Equating q q' equations ps)
    (env : Env) (db : Database) :
    Solves q q' ps steps (solveWithin steps equations env ⟨db, q'⟩) := by
  induction steps generalizing q' equations ps with
  | zero => exact fun σ _ => Nat.zero_le _
  | succ steps ih =>
    obtain _ | ⟨e, rest⟩ := equations
    · cases h.poses
      exact ⟨h, fun σ => ⟨fun hσ => ⟨hσ, Valuation.unifies_nil⟩, fun hσ => hσ.1⟩⟩
    obtain _ | ⟨p, ps⟩ := ps
    · cases h.poses
    have hexact := h.exact hq
    have hsound := h.sound hq
    have hless : ∀ σ, Unifier q' (p :: ps) σ → σ.weight ps < σ.weight (p :: ps) :=
      fun σ _ => Valuation.weight_cons_pos
    rw [solveWithin]
    simp only [bind_apply, frames_apply]
    cases hv : e.decide q'.frames <;> rw [hv] at hexact hsound
    case solved =>
      refine (ih h.rest).step (fun σ => ?_) hless
      rw [unifier_cons]
      exact ⟨fun hσ => ⟨hσ, hexact σ hσ.1⟩, fun hσ => hσ.1⟩
    case clash => exact fun σ hσ => hexact σ hσ.1 (unifier_cons.1 hσ).2
    case bind cell name value =>
      obtain ⟨τ, hτ, hiff⟩ := hexact
      obtain ⟨hs, hbound⟩ := h.rest.bind hsound hτ
      simp only [bind_apply, bindTentatively_apply hs]
      refine (ih hbound).step (fun σ => ?_) hless
      rw [unifier_cons]
      unfold Unifier
      rw [Frames.fulfils_scratched hs hτ]
      constructor
      · rintro ⟨⟨hσ, hcell⟩, hps⟩
        exact ⟨⟨hσ, hps⟩, (hiff σ hσ).2 hcell⟩
      · rintro ⟨⟨hσ, hps⟩, heq⟩
        exact ⟨⟨hσ, (hiff σ hσ).1 heq⟩, hps⟩
    case split es =>
      obtain ⟨qs, hqs, hiff⟩ := hexact
      refine (ih (h.split hsound hqs)).step (fun σ => ?_) fun σ hσ => ?_
      · rw [unifier_cons]
        unfold Unifier
        rw [Valuation.unifies_append]
        constructor
        · rintro ⟨hσ, hhead, hps⟩
          exact ⟨⟨hσ, hps⟩, (hiff σ hσ).1.2 hhead⟩
        · rintro ⟨⟨hσ, hps⟩, heq⟩
          exact ⟨hσ, (hiff σ hσ).1.1 heq, hps⟩
      · rw [Valuation.weight_append, Valuation.weight_cons]
        exact Nat.add_lt_add_right (hiff σ hσ.1).2 _
    case forceLeft => exact hexact.elim
    case forceRight => exact hexact.elim

/-- The same of a whole attempt: taking the bindings back after a failure
changes nothing of what is said. -/
theorem solve_exact (hq : q.Sound true) (hr : ∀ e ∈ equations, e.Reads true q.frames)
    (hp : List.Forall₂ q.frames.Poses equations ps) (env : Env) (db : Database) :
    Solves q q ps env.steps (solve equations env ⟨db, q⟩) := by
  have hsolved := solveWithin_exact hq env.steps (.start hq hr hp) env db
  simp only [solve, bind_apply, steps_apply, attempt_apply]
  cases hended : solveWithin env.steps equations env ⟨db, q⟩ with
  | ok found m =>
    rw [hended] at hsolved
    cases found with
    | true => exact hsolved
    | false => exact hsolved
  | error failure m =>
    rw [hended] at hsolved
    exact hsolved

end

end Act

end LogicMachine
