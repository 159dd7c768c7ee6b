/-
The finite trees that terms stand for.

With every binding followed, a term stands for a tree whose leaves are
constants and unbound cells (`Frames.Resolves`). Only committed bindings are
followed, so tentative ones do not show. A wildcard, a thunk, a bare variable
and a term that contains itself stand for no tree; where the bindings are
acyclic, any other term does (`Frames.Acyclic.resolves`).

A term with wildcards matches many trees (`Frames.Matches`), one that stands
for a tree just that one.
-/
import LogicMachine.Proofs.Solving

namespace LogicMachine

-- ================================================== trees

/-- A finite tree over cells. -/
inductive Tree where
  | cell (c : Cell)
  | const (value : Term)
  | node (name : String) (args : List Tree)

/-- A tree for each cell. -/
abbrev Valuation := Cell → Tree

namespace Tree

mutual

/-- The tree with each cell replaced by its value. -/
def subst (σ : Valuation) : Tree → Tree
  | .cell c => σ c
  | .const value => .const value
  | .node name args => .node name (substAll σ args)

def substAll (σ : Valuation) : List Tree → List Tree
  | [] => []
  | t :: ts => subst σ t :: substAll σ ts

end

mutual

def size : Tree → Nat
  | .cell _ | .const _ => 1
  | .node _ args => sizeAll args + 1

def sizeAll : List Tree → Nat
  | [] => 0
  | t :: ts => size t + sizeAll ts

end

section

variable {σ : Valuation}

@[simp] theorem subst_cell (c : Cell) : (Tree.cell c).subst σ = σ c := by rw [subst]

@[simp] theorem subst_const (value : Term) : (Tree.const value).subst σ = .const value := by
  rw [subst]

theorem substAll_eq (ts : List Tree) : substAll σ ts = ts.map (subst σ) := by
  induction ts with
  | nil => rw [substAll, List.map_nil]
  | cons t ts ih => rw [substAll, ih, List.map_cons]

@[simp] theorem subst_node (name : String) (args : List Tree) :
    (Tree.node name args).subst σ = .node name (args.map (subst σ)) := by
  rw [subst, substAll_eq]

mutual

/-- A tree in which each cell stays is the same. -/
theorem subst_self : (t : Tree) → t.subst .cell = t
  | .cell c => by rw [subst]
  | .const value => by rw [subst]
  | .node name args => by rw [subst, substAll_self args]

theorem substAll_self : (ts : List Tree) → substAll .cell ts = ts
  | [] => by rw [substAll]
  | t :: ts => by rw [substAll, subst_self t, substAll_self ts]

end

theorem sizeAll_eq (ts : List Tree) : sizeAll ts = (ts.map size).sum := by
  induction ts with
  | nil => rw [sizeAll, List.map_nil, List.sum_nil]
  | cons t ts ih => rw [sizeAll, ih, List.map_cons, List.sum_cons]

theorem size_node (name : String) (args : List Tree) :
    (Tree.node name args).size = (args.map size).sum + 1 := by
  rw [size, sizeAll_eq]

theorem size_pos (t : Tree) : 0 < t.size := by
  cases t with
  | node name args =>
    rw [size_node]
    exact Nat.succ_pos _
  | _ =>
    rw [size]
    exact Nat.one_pos

theorem size_lt_node {t : Tree} {name : String} {args : List Tree} (h : t ∈ args) :
    t.size < (Tree.node name args).size := by
  rw [size_node]
  exact Nat.lt_succ_of_le (List.le_sum_of_mem (List.mem_map_of_mem h))

end

end Tree

-- ================================================== lists

section

variable {α β : Type} {R : α → β → Prop} {as : List α} {bs bs' : List β}

theorem eq_of_forall₂ (h : List.Forall₂ (fun a b => ∀ b', R a b' → b = b') as bs)
    (h' : List.Forall₂ R as bs') : bs = bs' := by
  induction h generalizing bs' with
  | nil =>
    cases h'
    rfl
  | cons hb _ ih =>
    cases h' with
    | cons hb' h' => rw [hb _ hb', ih h']

theorem exists_forall₂_map_eq {γ : Type} {f : β → γ}
    (h : List.Forall₂ (fun a b => ∃ b', R a b' ∧ f b' = f b) as bs) :
    ∃ bs', List.Forall₂ R as bs' ∧ bs'.map f = bs.map f := by
  induction h with
  | nil => exact ⟨[], .nil, rfl⟩
  | cons h _ ih =>
    obtain ⟨b', hb', he⟩ := h
    obtain ⟨bs', hbs', hes⟩ := ih
    exact ⟨b' :: bs', .cons hb' hbs', by rw [List.map_cons, List.map_cons, he, hes]⟩

theorem exists_forall₂ (h : ∀ a ∈ as, ∃ b, R a b) : ∃ bs, List.Forall₂ R as bs := by
  induction as with
  | nil => exact ⟨[], .nil⟩
  | cons a as ih =>
    obtain ⟨b, hb⟩ := h a List.mem_cons_self
    obtain ⟨bs, hbs⟩ := ih fun a' ha => h a' (List.mem_cons_of_mem a ha)
    exact ⟨b :: bs, .cons hb hbs⟩

end

-- ================================================== resolving

theorem Term.identical_of_isAtomic {t : Term} (h : t.isAtomic = true) : t.identical t = true := by
  cases t <;> simp only [Term.isAtomic, Bool.false_eq_true] at h <;>
    exact beq_self_eq_true _

theorem Term.compound?_of_isAtomic {t : Term} (h : t.isAtomic = true) : t.compound? = none := by
  cases t <;> first | rfl | cases h

/-- Paired with a frame, a compound is what it was, or its arguments are
read in that frame. -/
theorem Term.compound?_bindTo {t : Term} {name : String} {args : List Term} {home : Option FrameId}
    (h : t.compound? = some (name, args, home)) (frame : FrameId) :
    (t.bindTo frame).compound? = some (name, args, home)
      ∨ home = none ∧ (t.bindTo frame).compound? = some (name, args, some frame) := by
  cases t with
  | compound form n as =>
    cases form with
    | plain => exact .inl h
    | template serial =>
      cases h
      exact .inr ⟨rfl, rfl⟩
  | closure serial n as f => exact .inl h
  | _ => cases h

namespace Frames

/-- With all committed bindings followed, the term stands for the tree. -/
inductive Resolves (fs : Frames) : Term → Tree → Prop
  | const {t : Term} (h : t.isAtomic = true) : Resolves fs t (.const t)
  | unbound {c : Cell} {name : String} {s : Slot} (hs : fs.slot? c = some s)
      (hv : s.value = none) : Resolves fs (.ref c name) (.cell c)
  | bound {c : Cell} {name : String} {s : Slot} {v : Term} {τ : Tree}
      (hs : fs.slot? c = some s) (hv : s.value = some v) (h : Resolves fs v τ) :
      Resolves fs (.ref c name) τ
  | node {t : Term} {name : String} {args : List Term} {home : Option FrameId} {τs : List Tree}
      (ht : t.compound? = some (name, args, home)) (hlen : args.length = τs.length)
      (h : ∀ a τ, (a, τ) ∈ args.zip τs → Resolves fs (a.bindIn home) τ) :
      Resolves fs t (.node name τs)

section

variable {fs fs' : Frames} {t : Term} {τ τ' : Tree} {name : String} {args : List Term}
  {home : Option FrameId} {c : Cell}

theorem resolves_compound (ht : t.compound? = some (name, args, home)) : fs.Resolves t τ ↔
    ∃ τs, τ = .node name τs ∧ List.Forall₂ (fun a τ => fs.Resolves (a.bindIn home) τ) args τs := by
  constructor
  · intro h
    cases h with
    | const ha => cases ht.symm.trans (Term.compound?_of_isAtomic ha)
    | unbound => cases ht
    | bound => cases ht
    | node ht' hlen h =>
      cases ht.symm.trans ht'
      exact ⟨_, rfl, List.forall₂_iff_zip.2 ⟨hlen, fun hm => h _ _ hm⟩⟩
  · rintro ⟨τs, rfl, h⟩
    obtain ⟨hlen, h⟩ := List.forall₂_iff_zip.1 h
    exact .node ht hlen fun a τ hm => h hm

/-- A reference stands for the same under any name. -/
theorem Resolves.rename {m : String} (h : fs.Resolves (.ref c name) τ) :
    fs.Resolves (.ref c m) τ := by
  cases h with
  | const h => cases h
  | unbound hs hv => exact .unbound hs hv
  | bound hs hv h => exact .bound hs hv h
  | node ht => cases ht

/-- The cell of a reference that stands for a tree is there. -/
theorem Resolves.slot (h : fs.Resolves (.ref c name) τ) : (fs.slot? c).isSome := by
  cases h with
  | const h => cases h
  | unbound hs => exact hs ▸ rfl
  | bound hs => exact hs ▸ rfl
  | node ht => cases ht

theorem not_resolves_var {v : Var} : ¬ fs.Resolves (.var v) τ := by
  intro h
  cases h with
  | const h => cases h
  | node ht => cases ht

theorem not_resolves_thunk {id : Nat} : ¬ fs.Resolves (.thunk id) τ := by
  intro h
  cases h with
  | const h => cases h
  | node ht => cases ht

/-- What an unbound cell stands for is the cell. -/
theorem Resolves.eq_cell (h : fs.Resolves (.ref c name) τ) {s : Slot} (hs : fs.slot? c = some s)
    (hv : s.value = none) : τ = .cell c := by
  cases h with
  | const h => cases h
  | unbound => rfl
  | bound hs' hv' =>
    cases hs.symm.trans hs'
    rw [hv] at hv'
    cases hv'
  | node ht => cases ht

/-- What a bound cell stands for is what its value does. -/
theorem Resolves.of_value (h : fs.Resolves (.ref c name) τ) {s : Slot} {v : Term}
    (hs : fs.slot? c = some s) (hv : s.value = some v) : fs.Resolves v τ := by
  cases h with
  | const h => cases h
  | unbound hs' hv' =>
    cases hs.symm.trans hs'
    rw [hv] at hv'
    cases hv'
  | bound hs' hv' h =>
    cases hs.symm.trans hs'
    cases hv.symm.trans hv'
    exact h
  | node ht => cases ht

/-- What terms stand for depends on the committed values alone. -/
theorem Resolves.congr (hv : ∀ c, (fs'.slot? c).map (·.value) = (fs.slot? c).map (·.value))
    (h : fs.Resolves t τ) : fs'.Resolves t τ := by
  have hslot : ∀ {c s}, fs.slot? c = some s → ∃ s', fs'.slot? c = some s' ∧ s'.value = s.value := by
    intro c s hs
    have hc := hv c
    rw [hs, Option.map_some] at hc
    exact Option.map_eq_some_iff.1 hc
  induction h with
  | const ha => exact .const ha
  | unbound hs hu =>
    obtain ⟨s', hs', he⟩ := hslot hs
    exact .unbound hs' (he.trans hu)
  | bound hs hb _ ih =>
    obtain ⟨s', hs', he⟩ := hslot hs
    exact .bound hs' (he.trans hb) ih
  | node ht hlen _ ih => exact .node ht hlen ih

/-- A term that stands for a tree does so in any frame. -/
theorem Resolves.bindTo (h : fs.Resolves t τ) (frame : FrameId) : fs.Resolves (t.bindTo frame) τ := by
  induction h with
  | const ha =>
    rename_i t
    rw [Term.bindTo_of_isPlain frame (by cases t <;> first | rfl | cases ha)]
    exact .const ha
  | unbound hs hv => exact .unbound hs hv
  | bound hs hv h _ => exact .bound hs hv h
  | node ht hlen h ih =>
    rcases Term.compound?_bindTo ht frame with ht' | ⟨rfl, ht'⟩
    · exact .node ht' hlen h
    · exact .node ht' hlen ih

theorem Resolves.bindIn (h : fs.Resolves t τ) (frame : Option FrameId) :
    fs.Resolves (fs.bindIn t frame) τ := by
  cases frame with
  | none => exact h
  | some f => exact h.bindTo _

theorem resolves_var {v : Var} {frame : FrameId} (h : fs.Resolves ((Term.var v).bindTo frame) τ) :
    fs.Resolves (.ref ⟨frame, v.number⟩ v.name) τ := by
  cases v with
  | wildcard => exact absurd h not_resolves_var
  | named n => exact h
  | slot i n => exact h

-- ================================================== wildcards

/-- With all committed bindings followed, and the right tree put for each
wildcard, the term stands for the tree. A wildcard that a cell is bound to
stands for no tree: the unifier takes it for a value. -/
inductive Matches (fs : Frames) : Term → Tree → Prop
  | wildcard {τ : Tree} : Matches fs (.var .wildcard) τ
  | const {t : Term} (h : t.isAtomic = true) : Matches fs t (.const t)
  | unbound {c : Cell} {name : String} {s : Slot} (hs : fs.slot? c = some s)
      (hv : s.value = none) : Matches fs (.ref c name) (.cell c)
  | bound {c : Cell} {name : String} {s : Slot} {v : Term} {τ : Tree}
      (hs : fs.slot? c = some s) (hv : s.value = some v) (hw : v ≠ .var .wildcard)
      (h : Matches fs v τ) : Matches fs (.ref c name) τ
  | node {t : Term} {name : String} {args : List Term} {home : Option FrameId} {τs : List Tree}
      (ht : t.compound? = some (name, args, home)) (hlen : args.length = τs.length)
      (h : ∀ a τ, (a, τ) ∈ args.zip τs → Matches fs (a.bindIn home) τ) :
      Matches fs t (.node name τs)

theorem matches_compound (ht : t.compound? = some (name, args, home)) : fs.Matches t τ ↔
    ∃ τs, τ = .node name τs ∧ List.Forall₂ (fun a τ => fs.Matches (a.bindIn home) τ) args τs := by
  constructor
  · intro h
    cases h with
    | const ha => cases ht.symm.trans (Term.compound?_of_isAtomic ha)
    | wildcard | unbound | bound => cases ht
    | node ht' hlen h =>
      cases ht.symm.trans ht'
      exact ⟨_, rfl, List.forall₂_iff_zip.2 ⟨hlen, fun hm => h _ _ hm⟩⟩
  · rintro ⟨τs, rfl, h⟩
    obtain ⟨hlen, h⟩ := List.forall₂_iff_zip.1 h
    exact .node ht hlen fun a τ hm => h hm

theorem matches_ref : fs.Matches (.ref c name) τ ↔ ∃ s, fs.slot? c = some s ∧
    (s.value = none ∧ τ = .cell c
      ∨ ∃ v, s.value = some v ∧ v ≠ .var .wildcard ∧ fs.Matches v τ) := by
  constructor
  · intro h
    cases h with
    | const h => cases h
    | unbound hs hv => exact ⟨_, hs, .inl ⟨hv, rfl⟩⟩
    | bound hs hv hw h => exact ⟨_, hs, .inr ⟨_, hv, hw, h⟩⟩
    | node ht => cases ht
  · rintro ⟨s, hs, ⟨hv, rfl⟩ | ⟨v, hv, hw, h⟩⟩
    · exact .unbound hs hv
    · exact .bound hs hv hw h

/-- What matches a tree and is no wildcard is a reference, a constant or a
compound. -/
theorem Matches.kind (h : fs.Matches t τ) (hw : t ≠ .var .wildcard) :
    (∃ c name, t = .ref c name) ∨ (t.isAtomic = true ∧ τ = .const t)
    ∨ ∃ name args home τs, t.compound? = some (name, args, home) ∧ τ = .node name τs := by
  cases h with
  | wildcard => exact absurd rfl hw
  | const ha => exact .inr (.inl ⟨ha, rfl⟩)
  | unbound => exact .inl ⟨_, _, rfl⟩
  | bound => exact .inl ⟨_, _, rfl⟩
  | node ht => exact .inr (.inr ⟨_, _, _, _, ht, rfl⟩)

theorem Resolves.matches (h : fs.Resolves t τ) : fs.Matches t τ := by
  induction h with
  | const ha => exact .const ha
  | unbound hs hv => exact .unbound hs hv
  | bound hs hv h ih =>
    refine .bound hs hv ?_ ih
    rintro rfl
    exact not_resolves_var h
  | node ht hlen _ ih => exact .node ht hlen ih

/-- What stands for a tree is a reference, a constant or a compound. -/
theorem Resolves.kind (h : fs.Resolves t τ) : (∃ c name, t = .ref c name)
    ∨ (t.isAtomic = true ∧ τ = .const t)
    ∨ ∃ name args home τs, t.compound? = some (name, args, home) ∧ τ = .node name τs := by
  refine h.matches.kind ?_
  rintro rfl
  exact not_resolves_var h

/-- A term that stands for a tree matches no other. -/
theorem Resolves.eq_of_matches (h : fs.Resolves t τ) (h' : fs.Matches t τ') : τ = τ' := by
  induction h generalizing τ' with
  | const ha =>
    cases h' with
    | const => rfl
    | wildcard | unbound | bound => cases ha
    | node ht => cases ht.symm.trans (Term.compound?_of_isAtomic ha)
  | unbound hs hv =>
    obtain ⟨s, hs', ⟨-, rfl⟩ | ⟨v, hv', -⟩⟩ := matches_ref.1 h'
    · rfl
    · cases hs.symm.trans hs'
      cases hv.symm.trans hv'
  | bound hs hv _ ih =>
    obtain ⟨s, hs', ⟨hv', -⟩ | ⟨v, hv', -, h'⟩⟩ := matches_ref.1 h'
    · cases hs.symm.trans hs'
      cases hv.symm.trans hv'
    · cases hs.symm.trans hs'
      cases hv.symm.trans hv'
      exact ih h'
  | node ht hlen _ ih =>
    obtain ⟨τs', rfl, hargs⟩ := (matches_compound ht).1 h'
    rw [eq_of_forall₂ (List.forall₂_iff_zip.2 ⟨hlen, fun hm τ' => ih _ _ hm⟩) hargs]

/-- A term stands for one tree. -/
theorem Resolves.unique (h : fs.Resolves t τ) (h' : fs.Resolves t τ') : τ = τ' :=
  h.eq_of_matches h'.matches

/-- In whatever frame it is read, a term matches what it does by itself. -/
theorem Matches.bindTo (h : fs.Matches t τ) (frame : FrameId) : fs.Matches (t.bindTo frame) τ := by
  induction h with
  | wildcard => exact .wildcard
  | const ha =>
    rename_i t
    rw [Term.bindTo_of_isPlain frame (by cases t <;> first | rfl | cases ha)]
    exact .const ha
  | unbound hs hv => exact .unbound hs hv
  | bound hs hv hw h _ => exact .bound hs hv hw h
  | node ht hlen h ih =>
    rcases Term.compound?_bindTo ht frame with ht' | ⟨rfl, ht'⟩
    · exact .node ht' hlen h
    · exact .node ht' hlen ih

-- ================================================== terms that are the same

theorem matches_args {frame : FrameId} (hc : t.compound? = some (name, args, none))
    (h : fs.Matches (t.bindTo frame) τ) :
    ∃ τs, τ = .node name τs ∧ List.Forall₂ (fun a τ => fs.Matches (a.bindTo frame) τ) args τs := by
  rcases Term.compound?_bindTo hc frame with hc' | ⟨-, hc'⟩
  · obtain ⟨τs, rfl, hargs⟩ := (matches_compound hc').1 h
    exact ⟨τs, rfl, hargs.imp fun a τ ha => ha.bindTo frame⟩
  · exact (matches_compound hc').1 h

/-- The arguments of a plain compound are the same in any frame. -/
theorem matches_of_args {frame : FrameId} {form : Form} {w : World} {vars : Nat → Prop}
    (ht : (Term.compound form name args).Fits w vars) {τs : List Tree}
    (h : List.Forall₂ (fun a τ => fs.Matches (a.bindTo frame) τ) args τs) :
    fs.Matches ((Term.compound form name args).bindTo frame) (.node name τs) := by
  cases form with
  | template serial =>
    refine (matches_compound rfl).2 ⟨τs, rfl, ?_⟩
    exact h
  | plain =>
    have hplain := List.all_eq_true.1 ((Term.fits_compound.1 ht).1 rfl)
    refine (matches_compound rfl).2 ⟨τs, rfl, ?_⟩
    obtain ⟨hlen, hzip⟩ := List.forall₂_iff_zip.1 h
    refine List.forall₂_iff_zip.2 ⟨hlen, fun {a τ} hm => ?_⟩
    have ha := hzip hm
    rw [Term.bindTo_of_isPlain frame (hplain a (List.of_mem_zip hm).1)] at ha
    exact ha

theorem matches_var {v : Var} {frame : FrameId} (hv : v ≠ .wildcard) :
    fs.Matches ((Term.var v).bindTo frame) τ ↔ fs.Matches (.ref ⟨frame, v.number⟩ "") τ := by
  have hbind : (Term.var v).bindTo frame = .ref ⟨frame, v.number⟩ v.name := by
    cases v with
    | wildcard => exact absurd rfl hv
    | named | slot => rfl
  rw [hbind, matches_ref, matches_ref]

mutual

/-- Terms that are the same as written match the same trees in a frame. -/
theorem Matches.of_same {w : World} {frame : FrameId} : {vars : Nat → Prop} → {a b : Term} →
    {τ : Tree} → a.Fits w vars → b.Fits w vars → a.same b = true →
    fs.Matches (a.bindTo frame) τ → fs.Matches (b.bindTo frame) τ
  | _, .atom _, b, _, _, _, hs, h | _, .number _, b, _, _, _, hs, h
  | _, .host _, b, _, _, _, hs, h | _, .thunk _, b, _, _, _, hs, h => by
    cases b <;> simp only [Term.same, Bool.false_eq_true, beq_iff_eq] at hs
    subst hs
    exact h
  | _, .var v, b, _, ha, hb, hs, h => by
    cases b <;> simp only [Term.same, Var.same, Bool.false_eq_true, Bool.and_eq_true, beq_iff_eq] at hs
    rename_i u
    -- of the variables that fit only the wildcard bears its name
    rcases Term.fits_var.1 ha with rfl | ⟨hv, -⟩
    · rcases Term.fits_var.1 hb with rfl | ⟨hu, -⟩
      · exact h
      · exact absurd hs.2.symm hu
    · have hwild : v ≠ .wildcard := fun he => hv (he ▸ rfl)
      have hwild' : u ≠ .wildcard := fun he => hv (hs.2.trans (he ▸ rfl))
      rw [matches_var hwild, hs.1] at h
      exact (matches_var hwild').2 h
  | _, .ref c n, b, _, _, _, hs, h => by
    cases b <;> simp only [Term.same, Bool.false_eq_true, beq_iff_eq] at hs
    subst hs
    exact matches_ref.2 (matches_ref.1 h)
  | _, .compound _ _ as, b, _, ha, hb, hs, h => by
    cases b <;> simp only [Term.same, Bool.false_eq_true, Bool.and_eq_true, beq_iff_eq] at hs
    obtain ⟨τs, rfl, hargs⟩ := matches_args rfl h
    rw [hs.1]
    exact matches_of_args hb (of_sameAll (Term.fits_compound.1 ha).2 (Term.fits_compound.1 hb).2
      hs.2 hargs)
  | _, .closure _ _ as home, b, _, ha, hb, hs, h => by
    cases b <;> simp only [Term.same, Bool.false_eq_true, Bool.and_eq_true, beq_iff_eq] at hs
    obtain ⟨⟨rfl, rfl⟩, hs⟩ := hs
    obtain ⟨τs, rfl, hargs⟩ := (matches_compound rfl).1 h
    refine (matches_compound rfl).2 ⟨τs, rfl, ?_⟩
    exact of_sameAll (Term.fits_closure.1 ha).2 (Term.fits_closure.1 hb).2 hs hargs

theorem of_sameAll {w : World} {frame : FrameId} : {vars : Nat → Prop} → {as bs : List Term} →
    {τs : List Tree} → (∀ a ∈ as, a.Fits w vars) → (∀ b ∈ bs, b.Fits w vars) →
    Term.sameAll as bs = true → List.Forall₂ (fun a τ => fs.Matches (a.bindTo frame) τ) as τs →
    List.Forall₂ (fun b τ => fs.Matches (b.bindTo frame) τ) bs τs
  | _, [], [], _, _, _, _, .nil => .nil
  | _, [], _ :: _, _, _, _, hs, _ | _, _ :: _, [], _, _, _, hs, _ => by simp [Term.sameAll] at hs
  | _, _ :: _, _ :: _, _, ha, hb, hs, .cons h hrest => by
    rw [Term.sameAll, Bool.and_eq_true] at hs
    rw [List.forall_mem_cons] at ha hb
    exact .cons (Matches.of_same ha.1 hb.1 hs.1 h) (of_sameAll ha.2 hb.2 hs.2 hrest)

end

/-- What the unifier takes for equal matches the same trees. -/
theorem Matches.of_identical {w : World} {vars : Nat → Prop} {u : Term} (ht : t.Fits w vars)
    (hu : u.Fits w vars) (hi : t.identical u = true) (h : fs.Matches t τ) : fs.Matches u τ := by
  unfold Term.identical at hi
  split at hi
  · obtain rfl := eq_of_beq hi
    exact h
  · obtain rfl := eq_of_beq hi
    exact h
  · obtain rfl := eq_of_beq hi
    exact h
  · obtain rfl := eq_of_beq hi
    exact h
  · obtain rfl := eq_of_beq hi
    exact matches_ref.2 (matches_ref.1 h)
  · simp only [Bool.and_eq_true, beq_iff_eq] at hi
    obtain ⟨⟨⟨rfl, rfl⟩, rfl⟩, hsame⟩ := hi
    obtain ⟨τs, rfl, hargs⟩ := (matches_compound rfl).1 h
    refine (matches_compound rfl).2 ⟨τs, rfl, ?_⟩
    exact of_sameAll (Term.fits_closure.1 ht).2 (Term.fits_closure.1 hu).2 hsame hargs
  · cases hi

end

-- ================================================== acyclic bindings

/-- From a cell to its value, from a compound to an argument. -/
inductive Leads (fs : Frames) : Term → Term → Prop
  | value {c : Cell} {name : String} {s : Slot} {v : Term} (hs : fs.slot? c = some s)
      (hv : s.value = some v) : Leads fs (.ref c name) v
  | arg {t : Term} {name : String} {args : List Term} {home : Option FrameId} {a : Term}
      (ht : t.compound? = some (name, args, home)) (ha : a ∈ args) : Leads fs t (a.bindIn home)

/-- No cell is met again on a way down from it. -/
def Acyclic (fs : Frames) : Prop :=
  ∀ c name m, ¬ Relation.TransGen fs.Leads (.ref c name) (.ref c m)

/-- No cell that is met on a way down from the term is met again below it. -/
def AcyclicFrom (fs : Frames) (t : Term) : Prop :=
  ∀ c name m, Relation.ReflTransGen fs.Leads t (.ref c name) →
    ¬ Relation.TransGen fs.Leads (.ref c name) (.ref c m)

/-- No wildcard and no thunk is met on a way down from the term. -/
def Clear (fs : Frames) (t : Term) : Prop :=
  ∀ u, Relation.ReflTransGen fs.Leads t u → u ≠ .var .wildcard ∧ ∀ id, u ≠ .thunk id

section

variable {fs : Frames} {t u : Term} {c : Cell} {name : String}

theorem Leads.of_ref (h : fs.Leads (.ref c name) u) :
    ∃ s, fs.slot? c = some s ∧ s.value = some u := by
  cases h with
  | value hs hv => exact ⟨_, hs, hv⟩
  | arg ht => cases ht

theorem Leads.of_compound {args : List Term} {home : Option FrameId}
    (ht : t.compound? = some (name, args, home)) (h : fs.Leads t u) :
    ∃ a ∈ args, u = a.bindIn home := by
  cases h with
  | value => cases ht
  | arg ht' ha =>
    cases ht.symm.trans ht'
    exact ⟨_, ha, rfl⟩

/-- Where a cell leads to does not depend on its name. -/
theorem leads_rename {m : String} (h : Relation.TransGen fs.Leads (.ref c name) u) :
    Relation.TransGen fs.Leads (.ref c m) u := by
  obtain ⟨v, hv, hrest⟩ := Relation.TransGen.head'_iff.1 h
  obtain ⟨s, hs, hv⟩ := hv.of_ref
  exact .head' (.value hs hv) hrest

/-- An argument of a compound that stands for a tree does so too. -/
theorem Resolves.arg {args : List Term} {home : Option FrameId} {τ : Tree} {a : Term}
    (h : fs.Resolves t τ) (ht : t.compound? = some (name, args, home)) (ha : a ∈ args) :
    ∃ τ', fs.Resolves (a.bindIn home) τ' := by
  obtain ⟨τs, -, hτs⟩ := (resolves_compound ht).1 h
  rw [← List.map_fst_zip hτs.length_eq.le] at ha
  obtain ⟨⟨a, τ'⟩, hm, rfl⟩ := List.mem_map.1 ha
  exact ⟨τ', List.forall₂_zip hτs hm⟩

theorem Resolves.leads {τ : Tree} (h : fs.Resolves t τ) (hu : fs.Leads t u) :
    ∃ τ', fs.Resolves u τ' := by
  cases hu with
  | value hs hv => exact ⟨τ, h.of_value hs hv⟩
  | arg ht ha => exact h.arg ht ha

/-- A term that stands for a tree meets no wildcard and no thunk. -/
theorem Resolves.clear {τ : Tree} (h : fs.Resolves t τ) : fs.Clear t := by
  intro u hu
  obtain ⟨τ', hτ'⟩ : ∃ τ', fs.Resolves u τ' := by
    induction hu with
    | refl => exact ⟨τ, h⟩
    | tail _ hlast ih =>
      obtain ⟨τ', hτ'⟩ := ih
      exact hτ'.leads hlast
  refine ⟨?_, fun id => ?_⟩
  · rintro rfl
    exact not_resolves_var hτ'
  · rintro rfl
    exact not_resolves_thunk hτ'

/-- The cells of an arena are finitely many. -/
theorem finite_cells (fs : Frames) : Finite {c : Cell // (fs.slot? c).isSome} := by
  have hframe : ∀ c : {c : Cell // (fs.slot? c).isSome}, c.1.frame < fs.size := fun c =>
    lt_size_of_slot? (Option.eq_some_of_isSome c.2)
  have hslot : ∀ c : {c : Cell // (fs.slot? c).isSome}, c.1.slot < fs.total := fun c =>
    (Nat.le_add_left _ _).trans_lt (place_lt_total c.2)
  refine Finite.of_injective (β := Fin fs.size × Fin fs.total)
    (fun c => (⟨c.1.frame, hframe c⟩, ⟨c.1.slot, hslot c⟩)) ?_
  rintro ⟨⟨f, i⟩, _⟩ ⟨⟨g, j⟩, _⟩ he
  simp only [Prod.mk.injEq, Fin.mk.injEq] at he
  simp only [he.1, he.2]

/-- Every way down from the term comes to an end. -/
abbrev Ends (fs : Frames) (t : Term) : Prop := Acc (fun u t => fs.Leads t u) t

theorem ends_leaf (hr : ∀ c name, t ≠ .ref c name) (ht : t.compound? = none) : fs.Ends t := by
  refine ⟨_, fun u hu => ?_⟩
  cases hu with
  | value => exact absurd rfl (hr _ _)
  | arg ht' => cases ht.symm.trans ht'

theorem ends_compound {args : List Term} {home : Option FrameId}
    (ht : t.compound? = some (name, args, home)) (h : ∀ a ∈ args, fs.Ends (a.bindIn home)) :
    fs.Ends t := by
  refine ⟨_, fun u hu => ?_⟩
  obtain ⟨a, ha, rfl⟩ := hu.of_compound ht
  exact h a ha

theorem compound?_bindIn {args : List Term} {k : Option FrameId}
    (ht : t.compound? = some (name, args, k)) (home : Option FrameId) :
    ∃ k', (t.bindIn home).compound? = some (name, args, k') := by
  cases home with
  | none => exact ⟨k, ht⟩
  | some f =>
    rcases Term.compound?_bindTo ht f with ht' | ⟨-, ht'⟩
    · exact ⟨_, ht'⟩
    · exact ⟨_, ht'⟩

mutual

/-- The ways down from a term end if those from the cells on them do. -/
theorem ends_of_cells : (t : Term) → (home : Option FrameId) →
    (∀ c name, Relation.ReflTransGen fs.Leads (t.bindIn home) (.ref c name) →
      fs.Ends (.ref c name)) → fs.Ends (t.bindIn home)
  | .compound form name args, home, h => by
    obtain ⟨k, ht⟩ := compound?_bindIn (t := .compound form name args) rfl home
    exact ends_compound ht (ends_of_cells_all args k fun a ha c name hr =>
      h c name (.head (.arg ht ha) hr))
  | .closure serial name args f, home, h => by
    obtain ⟨k, ht⟩ := compound?_bindIn (t := .closure serial name args f) rfl home
    exact ends_compound ht (ends_of_cells_all args k fun a ha c name hr =>
      h c name (.head (.arg ht ha) hr))
  | .ref c name, none, h | .ref c name, some _, h => h c name .refl
  | .var v, none, _ => ends_leaf (fun _ _ => nofun) rfl
  | .var .wildcard, some _, _ => ends_leaf (fun _ _ => nofun) rfl
  | .var (.named _), some _, h | .var (.slot _ _), some _, h => h _ _ .refl
  | .atom _, none, _ | .number _, none, _ | .host _, none, _ | .thunk _, none, _
  | .atom _, some _, _ | .number _, some _, _ | .host _, some _, _ | .thunk _, some _, _ =>
    ends_leaf (fun _ _ => nofun) rfl

theorem ends_of_cells_all : (ts : List Term) → (home : Option FrameId) →
    (∀ t ∈ ts, ∀ c name, Relation.ReflTransGen fs.Leads (t.bindIn home) (.ref c name) →
      fs.Ends (.ref c name)) → ∀ t ∈ ts, fs.Ends (t.bindIn home)
  | [], _, _ => fun _ ht => absurd ht List.not_mem_nil
  | t :: ts, home, h => List.forall_mem_cons.2
    ⟨ends_of_cells t home (h t List.mem_cons_self),
      ends_of_cells_all ts home fun t' ht => h t' (List.mem_cons_of_mem t ht)⟩

end

/-- If no cell is met again on a way down from the term, every way down from it
ends. The induction is on the cells there are, each after those below it. -/
theorem AcyclicFrom.ends (h : fs.AcyclicFrom t) : fs.Ends t := by
  let Met (c : Cell) : Prop := ∃ m, Relation.ReflTransGen fs.Leads t (.ref c m)
  let below (d c : {c : Cell // (fs.slot? c).isSome}) : Prop :=
    Met c.1 ∧ ∃ m n, Relation.TransGen fs.Leads (.ref c.1 m) (.ref d.1 n)
  have := fs.finite_cells
  have : IsTrans _ below := ⟨fun _ _ _ ⟨_, _, _, hab⟩ ⟨hc, _, _, hbc⟩ =>
    ⟨hc, _, _, hbc.trans (leads_rename hab)⟩⟩
  have : Std.Irrefl below := ⟨fun _ ⟨⟨m, hm⟩, _, _, hc⟩ => h _ _ _ hm (leads_rename hc)⟩
  have hlost : ∀ {c name}, ¬ (fs.slot? c).isSome → fs.Ends (.ref c name) := fun hno => by
    refine ⟨_, fun u hu => ?_⟩
    obtain ⟨s, hs, -⟩ := hu.of_ref
    rw [hs] at hno
    exact absurd rfl hno
  have hthere : ∀ (c : {c : Cell // (fs.slot? c).isSome}) name,
      Relation.ReflTransGen fs.Leads t (.ref c.1 name) → fs.Ends (.ref c.1 name) := by
    intro c
    induction c using (Finite.wellFounded_of_trans_of_irrefl below).induction with
    | _ c ih =>
      intro name hmet
      refine ⟨_, fun u hu => ends_of_cells u none fun d m hr => ?_⟩
      by_cases hd : (fs.slot? d).isSome
      · have hdown := Relation.TransGen.head' hu hr
        exact ih ⟨d, hd⟩ ⟨⟨name, hmet⟩, _, _, hdown⟩ m (hmet.trans hdown.to_reflTransGen)
      · exact hlost hd
  refine ends_of_cells t none fun c name hmet => ?_
  by_cases hc : (fs.slot? c).isSome
  · exact hthere ⟨c, hc⟩ name hmet
  · exact hlost hc

theorem Acyclic.ends (h : fs.Acyclic) (t : Term) : fs.Ends t :=
  AcyclicFrom.ends fun c name m _ => h c name m

/-- In an acyclic arena a term matches a tree if all that it leads to is
wildcards, constants, cells that are there and are bound to no wildcard, and
compounds. -/
theorem Acyclic.matches (h : fs.Acyclic) {P : Term → Prop}
    (hdown : ∀ {t u}, P t → fs.Leads t u → P u)
    (hkind : ∀ {t}, P t → t = .var .wildcard ∨ t.isAtomic = true ∨ t.compound?.isSome
      ∨ ∃ c name s, t = .ref c name ∧ fs.slot? c = some s ∧ s.value ≠ some (.var .wildcard))
    (ht : P t) : ∃ τ, fs.Matches t τ := by
  induction h.ends t with
  | intro t _ ih =>
    rcases hkind ht with rfl | ha | hc | ⟨c, name, ⟨value, scratch⟩, rfl, hs, hv⟩
    · exact ⟨.node "" [], .wildcard⟩
    · exact ⟨_, .const ha⟩
    · obtain ⟨⟨name, args, home⟩, hc⟩ := Option.isSome_iff_exists.1 hc
      have hargs : ∀ a ∈ args, ∃ τ, fs.Matches (a.bindIn home) τ := fun a ha =>
        have hl := Leads.arg hc ha
        ih _ hl (hdown ht hl)
      obtain ⟨τs, hτs⟩ := exists_forall₂ hargs
      exact ⟨_, (matches_compound hc).2 ⟨τs, rfl, hτs⟩⟩
    · cases value with
      | none => exact ⟨_, .unbound hs rfl⟩
      | some v =>
        have hl : fs.Leads (.ref c name) v := .value hs rfl
        obtain ⟨τ, hτ⟩ := ih _ hl (hdown ht hl)
        exact ⟨τ, .bound hs rfl (fun he => hv (congrArg some he)) hτ⟩

/-- A term that leads to no wildcard stands for the tree that it matches. -/
theorem Matches.resolves {τ : Tree} (h : fs.Matches t τ) {P : Term → Prop}
    (hdown : ∀ {t u}, P t → fs.Leads t u → P u) (hstar : ¬ P (.var .wildcard)) (ht : P t) :
    fs.Resolves t τ := by
  induction h with
  | wildcard => exact absurd ht hstar
  | const ha => exact .const ha
  | unbound hs hv => exact .unbound hs hv
  | bound hs hv _ _ ih => exact .bound hs hv (ih (hdown ht (.value hs hv)))
  | node hc hlen _ ih =>
    exact .node hc hlen fun a τ hm => ih a τ hm (hdown ht (.arg hc (List.of_mem_zip hm).1))

/-- In an acyclic arena a term stands for a tree if all that it leads to is
constants, cells that are there, and compounds. -/
theorem Acyclic.resolves (h : fs.Acyclic) {P : Term → Prop}
    (hdown : ∀ {t u}, P t → fs.Leads t u → P u)
    (hkind : ∀ {t}, P t → t.isAtomic = true ∨ t.compound?.isSome
      ∨ ∃ c name, t = .ref c name ∧ (fs.slot? c).isSome) (ht : P t) : ∃ τ, fs.Resolves t τ := by
  have hstar : ¬ P (.var .wildcard) := by
    intro hp
    rcases hkind hp with ha | hc | ⟨c, name, he, -⟩
    · cases ha
    · cases hc
    · cases he
  suffices hmatches : ∃ τ, fs.Matches t τ by
    obtain ⟨τ, hτ⟩ := hmatches
    exact ⟨τ, hτ.resolves hdown hstar ht⟩
  refine h.matches hdown (fun {t} hp => ?_) ht
  rcases hkind hp with ha | hc | ⟨c, name, rfl, hc⟩
  · exact .inr (.inl ha)
  · exact .inr (.inr (.inl hc))
  · obtain ⟨s, hs⟩ := Option.isSome_iff_exists.1 hc
    exact .inr (.inr (.inr ⟨c, name, s, rfl, hs, fun hv => hstar (hdown hp (.value hs hv))⟩))

/-- What a live term leads to is live. -/
theorem Sound.leads_live {strict : Bool} (h : fs.Sound strict) (ht : t.Live (fs.world strict))
    (hu : fs.Leads t u) : u.Live (fs.world strict) := by
  cases hu with
  | value hs hv => exact h.value hs (.inl hv)
  | arg hc ha =>
    cases t with
    | compound form name args =>
      cases hc
      exact ht.args _ ha
    | closure serial name args home =>
      cases hc
      exact ht.args _ (List.mem_map_of_mem ha)
    | _ => cases hc

/-- In a sound arena whose bindings are acyclic, a term that meets no
wildcard and no thunk stands for a tree. -/
theorem Sound.resolves (h : fs.Sound true) (ha : fs.Acyclic) (ht : t.Live (fs.world true))
    (hc : fs.Clear t) : ∃ τ, fs.Resolves t τ := by
  refine ha.resolves (P := fun t => t.Live (fs.world true) ∧ fs.Clear t)
    (fun ⟨ht, hc⟩ hl => ⟨h.leads_live ht hl, fun w hw => hc w (.head hl hw)⟩)
    (fun {t} ⟨ht, hc⟩ => ?_) ⟨ht, hc⟩
  cases t with
  | var v =>
    obtain rfl | ⟨-, hraw⟩ := Term.fits_var.1 ht
    · exact absurd rfl (hc _ .refl).1
    · cases hraw
  | thunk id => exact absurd rfl ((hc _ .refl).2 id)
  | ref c name => exact .inr (.inr ⟨c, name, rfl, (Term.fits_ref.1 ht).2 rfl⟩)
  | compound form name args => exact .inr (.inl rfl)
  | closure serial name args home => exact .inr (.inl rfl)
  | _ => exact .inl rfl

end

end Frames

end LogicMachine
