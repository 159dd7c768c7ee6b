/-
What a unification makes of all the other terms.

A unification puts a valuation in for the cells that were unbound: whatever
stood for a tree stands for that tree with the valuation put in
(`Machine.Instance`). A most general one puts in no more than it has to, so every
valuation that makes the two sides equal absorbs it (`Machine.Absorbs`): put in
afterwards, it gives what it would have given by itself. This is all that has to
be known of a run of unifications that one valuation solves
(`Machine.Absorbs.trans`).

If one side is an unbound cell and the other a tree that is no cell and does not
have it, the valuation is known outright (`Act.unify_binds`), and a tree without
that cell is spared (`Machine.Spares`).
-/
import LogicMachine.Proofs.Arguments
import LogicMachine.Proofs.ExactCopying

namespace LogicMachine

-- ================================================== the cells of a tree

namespace Tree

mutual

/-- The unbound cells that a tree has, from the left. -/
def cells : Tree → List Cell
  | .cell c => [c]
  | .const _ => []
  | .node _ args => cellsAll args

def cellsAll : List Tree → List Cell
  | [] => []
  | t :: ts => cells t ++ cellsAll ts

end

section

variable {σ σ' : Valuation} {t : Tree} {c : Cell}

@[simp] theorem cells_cell (c : Cell) : (Tree.cell c).cells = [c] := by rw [cells]

@[simp] theorem cells_const (value : Term) : (Tree.const value).cells = [] := by rw [cells]

theorem cellsAll_eq (ts : List Tree) : cellsAll ts = ts.flatMap cells := by
  induction ts with
  | nil => rw [cellsAll, List.flatMap_nil]
  | cons t ts ih => rw [cellsAll, ih, List.flatMap_cons]

@[simp] theorem cells_node (name : String) (ts : List Tree) :
    (Tree.node name ts).cells = ts.flatMap cells := by
  rw [cells, cellsAll_eq]

theorem mem_cells_node {name : String} {ts : List Tree} (ht : t ∈ ts) (hc : c ∈ t.cells) :
    c ∈ (Tree.node name ts).cells := by
  rw [cells_node]
  exact List.mem_flatMap_of_mem ht hc

/-- What holds of cells and constants, and of a compound if it holds of its
arguments, holds of every tree. -/
@[elab_as_elim]
theorem induct {P : Tree → Prop} (cell : ∀ c, P (.cell c)) (const : ∀ value, P (.const value))
    (node : ∀ name ts, (∀ t ∈ ts, P t) → P (.node name ts)) (t : Tree) : P t := by
  cases t with
  | cell c => exact cell c
  | const value => exact const value
  | node name ts =>
    apply node
    intro t ht
    have : t.size < (Tree.node name ts).size := size_lt_node ht
    exact induct cell const node t
termination_by t.size

/-- What is put in depends on the cells of the tree alone. -/
theorem subst_congr (h : ∀ c ∈ t.cells, σ c = σ' c) : t.subst σ = t.subst σ' := by
  induction t using induct with
  | cell c =>
    rw [subst_cell, subst_cell]
    exact h c (by simp)
  | const value => rw [subst_const, subst_const]
  | node name ts ih =>
    rw [subst_node, subst_node]
    refine congrArg _ (List.map_congr_left fun t ht => ih t ht fun c hc => ?_)
    exact h c (mem_cells_node ht hc)

theorem subst_subst (t : Tree) : (t.subst σ).subst σ' = t.subst fun c => (σ c).subst σ' := by
  induction t using induct with
  | cell c => rw [subst_cell, subst_cell]
  | const value => rw [subst_const, subst_const, subst_const]
  | node name ts ih =>
    rw [subst_node, subst_node, subst_node, List.map_map]
    exact congrArg _ (List.map_congr_left ih)

/-- With other cells a tree has the same size. -/
theorem size_rename (ρ : Cell → Cell) (t : Tree) :
    (t.subst fun c => .cell (ρ c)).size = t.size := by
  induction t using induct with
  | cell c => rw [subst_cell, size, size]
  | const value => rw [subst_const]
  | node name ts ih =>
    rw [subst_node, size_node, size_node, List.map_map]
    exact congrArg (List.sum · + 1) (List.map_congr_left ih)

end

end Tree

namespace Valuation

/-- One cell is given a tree, the others stay. -/
def single (c : Cell) (b : Tree) : Valuation := fun d => if d = c then b else .cell d

variable {c d : Cell} {b t : Tree}

@[simp] theorem single_self : single c b c = b := if_pos rfl

theorem single_of_ne (h : d ≠ c) : single c b d = .cell d := if_neg h

/-- A tree without the cell stays. -/
theorem subst_single (h : c ∉ t.cells) : t.subst (single c b) = t := by
  have hstays : ∀ d ∈ t.cells, single c b d = .cell d := fun d hd =>
    single_of_ne fun he => h (he ▸ hd)
  rw [Tree.subst_congr hstays, Tree.subst_self]

end Valuation

namespace Frames

/-- The terms are unbound variables, each another one. -/
structure Variables (fs : Frames) (vars : List Term) (cells : List Cell) : Prop where
  means : List.Forall₂ fs.Means vars (cells.map .cell)
  nodup : cells.Nodup

variable {fs : Frames} {t : Term} {τ : Tree} {c : Cell} {s : Slot}

theorem Variables.length_eq {vars : List Term} {cells : List Cell} (h : fs.Variables vars cells) :
    vars.length = cells.length := by
  rw [h.means.length_eq, List.length_map]

/-- The cells of a tree that a term stands for are there, and unbound. -/
theorem Resolves.unbound_of_mem (h : fs.Resolves t τ) (hc : c ∈ τ.cells) :
    ∃ s, fs.slot? c = some s ∧ s.value = none := by
  induction h with
  | const => simp at hc
  | unbound hs hv =>
    obtain rfl : c = _ := by simpa using hc
    exact ⟨_, hs, hv⟩
  | bound _ _ _ ih => exact ih hc
  | @node t name args home τs _ hlen _ ih =>
    rw [Tree.cells_node] at hc
    obtain ⟨τ, hτ, hc⟩ := List.mem_flatMap.1 hc
    rw [← List.map_snd_zip hlen.ge] at hτ
    obtain ⟨⟨a, τ⟩, hm, rfl⟩ := List.mem_map.1 hτ
    exact ih a τ hm hc

/-- A cell that is new is in no tree yet. -/
theorem Means.not_mem_of_none (h : fs.Means t τ) (hnone : fs.slot? c = none) : c ∉ τ.cells := by
  intro hc
  obtain ⟨s, hs, -⟩ := h.resolves.unbound_of_mem hc
  cases hnone.symm.trans hs

/-- Each of them is what a reference to it stands for. -/
theorem Means.cell (hs : fs.Sound true) (h : fs.Means t τ) (hc : c ∈ τ.cells) :
    fs.Means (.ref c "") (.cell c) := by
  obtain ⟨s, hslot, hv⟩ := h.resolves.unbound_of_mem hc
  have hthere : (fs.slot? c).isSome := hslot ▸ rfl
  exact ⟨Term.fits_ref.2 ⟨hs.frame_of_slot? hthere, fun _ => hthere⟩, .unbound hslot hv⟩

/-- Giving a frame more slots changes none of those there are. -/
theorem slot?_expand_of_some (h : fs.slot? c = some s) (id : FrameId) (count : Nat) :
    (fs.expand id count).1.slot? c = some s := by
  rw [slot?_eq] at h ⊢
  obtain ⟨f, hf, hs⟩ := Option.bind_eq_some_iff.1 h
  rw [get?_expand, hf, Option.map_some, Option.bind_some]
  split
  · rw [Frame.slots_withSlots, Array.getElem?_append_left (Array.getElem?_eq_some_iff.1 hs).1]
    exact hs
  · exact hs

end Frames

-- ================================================== instances

/-- Work leaves bound cells as they are. -/
theorem Work.bound {q q' : Query} (h : Work true q q') {c : Cell} {s : Slot} {v : Term}
    (hs : q.frames.slot? c = some s) (hv : s.value = some v) :
    ∃ s', q'.frames.slot? c = some s' ∧ s'.value = some v := by
  cases h with
  | bind cells hb hu =>
    have hc : c ∉ cells := by
      intro hc
      cases hs.symm.trans (hu rfl c hc)
      cases hv
    exact ⟨s, (hb.other hc).trans hs, hv⟩
  | grow id count => exact ⟨s, Frames.slot?_expand_of_some hs id count, hv⟩
  | _ => exact ⟨s, hs, hv⟩

theorem Works.bound {q q' : Query} (h : Works true q q') {c : Cell} {s : Slot} {v : Term}
    (hs : q.frames.slot? c = some s) (hv : s.value = some v) :
    ∃ s', q'.frames.slot? c = some s' ∧ s'.value = some v := by
  induction h with
  | refl => exact ⟨s, hs, hv⟩
  | tail _ hw ih =>
    obtain ⟨s', hs', hv'⟩ := ih
    exact hw.bound hs' hv'

namespace Machine

/-- Nothing dangles in the machine. -/
structure Sound (m : Machine) : Prop where
  db : m.db.Sound
  query : m.query.Sound true

/-- In the arena of the machine, the term stands for the tree. -/
abbrev Means (m : Machine) : Term → Tree → Prop := m.query.frames.Means

/-- What stood for a tree in the one machine stands in the other for the tree
with the valuation put in. -/
structure Instance (m : Machine) (μ : Valuation) (m' : Machine) : Prop where
  sound : m'.Sound
  slots : ∀ {c}, (m.query.frames.slot? c).isSome → (m'.query.frames.slot? c).isSome
  means : ∀ {t τ}, m.Means t τ → m'.Means t (τ.subst μ)

/-- Of the trees that terms stand for, the first valuation makes the same whether
or not the second is put in before. -/
def Absorbs (m : Machine) (σ μ : Valuation) : Prop :=
  ∀ {t τ}, m.Means t τ → (τ.subst μ).subst σ = τ.subst σ

section

variable {m m' m'' : Machine} {σ μ ν : Valuation} {t : Term} {τ : Tree} {cells cells' : List Cell}

/-- Nothing has been put in. -/
theorem Instance.stays (h : m.Instance .cell m') (ht : m.Means t τ) : m'.Means t τ :=
  τ.subst_self ▸ h.means ht

/-- With the frames as they were, nothing has been put in. -/
theorem Instance.of_query (hm : m'.Sound) (h : m'.query = m.query) : m.Instance .cell m' := by
  refine ⟨hm, fun hc => h ▸ hc, fun {t τ} ht => ?_⟩
  rw [Tree.subst_self]
  show m'.query.frames.Means t τ
  rwa [h]

theorem Instance.trans (h : m.Instance μ m') (h' : m'.Instance ν m'') :
    m.Instance (fun c => (μ c).subst ν) m'' :=
  ⟨h'.sound, fun hc => h'.slots (h.slots hc), fun {_ τ} ht =>
    τ.subst_subst ▸ h'.means (h.means ht)⟩

/-- After nothing has been put in, the valuation is. -/
theorem Instance.stays_trans (h : m.Instance .cell m') (h' : m'.Instance ν m'') :
    m.Instance ν m'' :=
  ⟨h'.sound, fun hc => h'.slots (h.slots hc), fun ht => h'.means (h.stays ht)⟩

/-- What a valuation absorbs one after the other, it absorbs put together. -/
theorem Absorbs.trans (h : m.Absorbs σ μ) (hi : m.Instance μ m') (h' : m'.Absorbs σ ν) :
    m.Absorbs σ fun c => (μ c).subst ν := by
  intro t τ ht
  rw [← Tree.subst_subst, h' (hi.means ht), h ht]

/-- What stands for a tree with none of the cells goes on to stand for it. -/
structure Spares (m : Machine) (cells : List Cell) (m' : Machine) : Prop where
  sound : m'.Sound
  slots : ∀ {c}, (m.query.frames.slot? c).isSome → (m'.query.frames.slot? c).isSome
  means : ∀ {t τ}, m.Means t τ → cells.Disjoint τ.cells → m'.Means t τ

/-- What stood for the one cell stands for the tree that it was given, -/
theorem Instance.given {c : Cell} {b : Tree} (h : m.Instance (.single c b) m')
    (ht : m.Means t (.cell c)) : m'.Means t b := by
  have hmeans := h.means ht
  rwa [Tree.subst_cell, Valuation.single_self] at hmeans

/-- and what stood for a tree without it still does. -/
theorem Instance.spares_single {c : Cell} {b : Tree} (h : m.Instance (.single c b) m') :
    m.Spares [c] m' := by
  refine ⟨h.sound, h.slots, fun ht hc => ?_⟩
  have hmeans := h.means ht
  rwa [Valuation.subst_single (by simpa using hc)] at hmeans

theorem Instance.stays_spares (h : m.Instance .cell m') (h' : m'.Spares cells m'') :
    m.Spares cells m'' :=
  ⟨h'.sound, fun hc => h'.slots (h.slots hc), fun ht hc => h'.means (h.stays ht) hc⟩

theorem Spares.trans (h : m.Spares cells m') (h' : m'.Spares cells' m'') :
    m.Spares (cells ++ cells') m'' := by
  refine ⟨h'.sound, fun hc => h'.slots (h.slots hc), fun ht hc => ?_⟩
  rw [List.disjoint_append_left] at hc
  exact h'.means (h.means ht hc.1) hc.2

/-- Other variables remain what they are. -/
theorem Spares.variables (h : m.Spares cells m') {xs : List Term} {others : List Cell}
    (hx : List.Forall₂ m.Means xs (others.map .cell)) (hothers : ∀ c ∈ cells, c ∉ others) :
    List.Forall₂ m'.Means xs (others.map .cell) := by
  rw [List.forall₂_map_right_iff, List.forall₂_iff_zip] at hx ⊢
  refine ⟨hx.1, fun {x d} hmem => h.means (hx.2 hmem) ?_⟩
  intro c hc hd
  rw [Tree.cells_cell, List.mem_singleton] at hd
  exact hothers c hc (hd ▸ (List.of_mem_zip hmem).2)

/-- Work that assigns the unbound cells something. -/
theorem instance_of_touches (hdb : m'.db.Sound) (h : Act.Touches true m.query m'.query)
    (hμ : m.query.frames.Assigns m'.query.frames μ) : m.Instance μ m' :=
  ⟨⟨hdb, h.sound⟩, h.works.steady.1.isSome_slot?, fun ht =>
    ⟨h.live ht.live, hμ.resolves h.works.bound ht.resolves⟩⟩

end

end Machine

-- ================================================== unification

namespace Act

section

variable {env : Env} {m : Machine} {x y : Term} {a b : Tree} {c : Cell}

/-- Unification of two sides with a unifier succeeds: what it puts in makes them
equal, and every unifier absorbs it. -/
theorem unify_instance (hm : m.Sound) (henv : env.Sound false) (hx : m.Means x a)
    (hy : m.Means y b) {σ : Valuation} (hσ : a.subst σ = b.subst σ)
    (hsteps : (a.subst σ).size < env.steps) :
    ∃ m' μ, unify x y env m = .ok true m' ∧ m.Instance μ m' ∧ a.subst μ = b.subst μ
      ∧ ∀ σ, a.subst σ = b.subst σ → m.Absorbs σ μ := by
  obtain ⟨db, q⟩ := m
  have hposes : q.frames.Poses ⟨x, none, y, none⟩ (a, b) := ⟨hx.resolves, hy.resolves⟩
  obtain ⟨hfinds, -, hgeneral⟩ :=
    solve_mostGeneral hm.query ⟨.bare hx.live, .bare hy.live⟩ hposes env db
  obtain ⟨m₁, hsolve⟩ := hfinds σ hσ hsteps
  obtain ⟨m', hcommit⟩ : ∃ m', commit env m₁ = .ok ⟨⟩ m' := ⟨_, rfl⟩
  obtain ⟨μ, hμ⟩ := hgeneral m₁ m' hsolve hcommit (.inl ⟨σ, hσ⟩)
  have hunify : unify x y env ⟨db, q⟩ = .ok true m' := by
    simp only [unify, bind_apply, hsolve, if_true, hcommit]
    rfl
  have hended := (tries_unify (μ := .exacting) hm.query hx.live hy.live).ends env db henv hm.db
  rw [hunify] at hended
  obtain ⟨hdb, htouches, -⟩ := hended
  have hi : Machine.Instance ⟨db, q⟩ μ m' := Machine.instance_of_touches hdb htouches hμ.assigns
  refine ⟨m', μ, hunify, hi, ?_, fun σ hσ t τ ht => ?_⟩
  · obtain ⟨T, hT⟩ := hμ.solved
    rw [(hi.means hx).resolves.unique hT.left, (hi.means hy).resolves.unique hT.right]
  · rw [Tree.subst_subst]
    refine Tree.subst_congr fun d hd => ?_
    obtain ⟨s, hs, hv⟩ := ht.resolves.unbound_of_mem hd
    exact (hμ.general a b hposes σ hσ d s hs hv).symm

/-- An unbound cell is bound to a tree that is no cell and does not have it, and
nothing else happens. -/
theorem unify_binds (hm : m.Sound) (henv : env.Sound false)
    (hx : m.Means x (.cell c)) (hy : m.Means y b)
    (hb : ∀ d, b ≠ .cell d) (hc : c ∉ b.cells) (hsteps : b.size < env.steps) :
    ∃ m', unify x y env m = .ok true m' ∧ m.Instance (.single c b) m' := by
  have hself : b.subst (.single c b) = b := Valuation.subst_single hc
  have hσ : (Tree.cell c).subst (.single c b) = b.subst (.single c b) := by
    rw [Tree.subst_cell, Valuation.single_self, hself]
  obtain ⟨m', μ, hunify, hi, hsame, habsorbs⟩ :=
    unify_instance hm henv hx hy hσ (by rwa [hσ, hself])
  -- what another cell is given is made that cell again, and `b` is no cell
  have hothers : ∀ {t τ}, m.Means t τ → ∀ d ∈ τ.cells, d ≠ c → μ d = .cell d := by
    intro t τ ht d hd hne
    have habsorbed := habsorbs _ hσ (ht.cell hm.query.arena hd)
    rw [Tree.subst_cell, Tree.subst_cell, Valuation.single_of_ne hne] at habsorbed
    cases hμ : μ d with
    | cell e =>
      rw [hμ, Tree.subst_cell] at habsorbed
      by_cases he : e = c
      · rw [he, Valuation.single_self] at habsorbed
        exact absurd habsorbed (hb d)
      · rwa [Valuation.single_of_ne he] at habsorbed
    | const value =>
      rw [hμ, Tree.subst_const] at habsorbed
      cases habsorbed
    | node name ts =>
      rw [hμ, Tree.subst_node] at habsorbed
      cases habsorbed
  have hgiven : μ c = b := by
    have hstays : b.subst μ = b.subst .cell :=
      Tree.subst_congr fun d hd => hothers hy d hd fun he => hc (he ▸ hd)
    rw [hstays, Tree.subst_self, Tree.subst_cell] at hsame
    exact hsame
  refine ⟨m', hunify, hi.sound, hi.slots, fun {t τ} ht => ?_⟩
  have heq : τ.subst μ = τ.subst (.single c b) := by
    refine Tree.subst_congr fun d hd => ?_
    by_cases hd' : d = c
    · rw [hd', hgiven, Valuation.single_self]
    · rw [hothers ht d hd hd', Valuation.single_of_ne hd']
  exact heq ▸ hi.means ht

/-- In the same way a variable is given a tree that has been made since. -/
theorem unify_made {m₁ : Machine} (henv : env.Sound false) (hi : m.Instance .cell m₁)
    (hx : m.Means x (.cell c)) (hy : m₁.Means y b) (hb : ∀ d, b ≠ .cell d) (hc : c ∉ b.cells)
    (hsteps : b.size < env.steps) :
    ∃ m', unify x y env m₁ = .ok true m' ∧ m.Spares [c] m' ∧ m'.Means x b := by
  have hx₁ := hi.stays hx
  obtain ⟨m', hunify, hbound⟩ := unify_binds hi.sound henv hx₁ hy hb hc hsteps
  exact ⟨m', hunify, hi.stays_spares hbound.spares_single, hbound.given hx₁⟩

end

-- ================================================== new variables

/-- Fresh variables are unbound cells that were not there before. -/
theorem freshVars_instance {env : Env} {m : Machine} (hm : m.Sound) (henv : env.Sound false)
    (count : Nat) : ∃ (m' : Machine) (vars : List Term) (cells : List Cell),
      freshVars count env m = .ok vars m' ∧ m.Instance .cell m'
        ∧ m'.query.frames.Variables vars cells ∧ cells.length = count
        ∧ ∀ c ∈ cells, m.query.frames.slot? c = none := by
  obtain ⟨db, q⟩ := m
  have hended := (tries_freshVars (μ := .exacting) hm.query count).ends env db henv hm.db
  obtain ⟨hlt, -, hown⟩ := hm.query.frame_owner hm.query.orderly.live
  let owner := q.frames.owner q.callee
  let cell (i : Nat) : Cell := ⟨owner, q.frames.locals (q.frames.owner owner) + i⟩
  let var (i : Nat) : Term :=
    .ref (cell i) ("_G" ++ toString (q.frames.locals (q.frames.owner owner) + i))
  let m' : Machine := ⟨db, { q with frames := (q.frames.expand owner count).1 }⟩
  have hmade : freshVars count env ⟨db, q⟩ = .ok ((List.range count).map var) m' := rfl
  rw [hmade] at hended
  obtain ⟨hdb, htouches, hlive⟩ := hended
  refine ⟨m', _, (List.range count).map cell, hmade, ?_, ⟨?_, ?_⟩, by simp, ?_⟩
  · apply Machine.instance_of_touches hdb htouches
    intro c s name hs hv
    exact .unbound (Frames.slot?_expand_of_some hs owner count) hv
  · rw [List.map_map, List.forall₂_map_left_iff, List.forall₂_map_right_iff, List.forall₂_same]
    intro i hi
    refine ⟨hlive _ (List.mem_map_of_mem hi), .unbound (s := {}) ?_ rfl⟩
    have hin : q.frames.locals owner ≤ (cell i).slot
        ∧ (cell i).slot < q.frames.locals owner + count := by
      simp only [cell, hown, owner]
      have := List.mem_range.1 hi
      omega
    show (q.frames.expand owner count).1.slot? (cell i) = some {}
    rw [Frames.slot?_expand hlt hown, if_pos ⟨rfl, hin⟩]
  · apply List.Nodup.map _ List.nodup_range
    intro i j he
    simpa [cell] using he
  · intro c hc
    obtain ⟨i, -, rfl⟩ := List.mem_map.1 hc
    apply Frames.slot?_of_locals_le hown
    simp [hown, owner]

end Act

end LogicMachine
