/-
What `=../2`, `functor/3` and `arg/3` find in a term, and what they make of it.

All that they look at is the tree that the term stands for: its name, its
arguments, and how many there are. Called with a term they bind variables to
these parts (`Terms.univ_apart`, `Terms.functor_apart`); called with a variable and
the parts of a tree they bind it to a term that stands for the tree
(`Terms.univ_built`), or for a tree of that name with new cells for arguments
(`Terms.functor_built`). In whatever form a term is held it stands for its tree, so
none of this depends on the form.
-/
import LogicMachine.Proofs.Instances

namespace LogicMachine

-- ================================================== parts of a tree

namespace Tree

/-- The tree of an atom, a number, an opaque value or a compound. A compound has
an argument. -/
def Solid : Tree → Prop
  | .cell _ => False
  | .const _ => True
  | .node _ ts => ts ≠ []

/-- The name of a compound. A constant is its own. -/
def head : Tree → Tree
  | .node name _ => .const (.atom name)
  | t => t

/-- The name and the arguments. -/
def parts (t : Tree) : List Tree := t.head :: t.children

/-- The same compound with other arguments. -/
def withChildren : Tree → List Tree → Tree
  | .node name _, ts => .node name ts
  | t, _ => t

/-- A proper list. -/
def list : List Tree → Tree
  | [] => .const .nil
  | t :: ts => .node Term.dot [t, list ts]

section

variable {t : Tree} {c : Cell} {new : List Cell}

theorem cells_list (ts : List Tree) : (list ts).cells = ts.flatMap cells := by
  induction ts with
  | nil => simp [list]
  | cons t ts ih => simp [list, ih]

theorem size_list (ts : List Tree) : (list ts).size = (ts.map size).sum + ts.length + 1 := by
  induction ts with
  | nil => simp [list, size]
  | cons t ts ih =>
    simp only [list, size_node, List.map_cons, List.map_nil, List.sum_cons, List.sum_nil, ih,
      List.length_cons]
    omega

theorem list_ne_cell (ts : List Tree) (c : Cell) : list ts ≠ .cell c := by
  cases ts <;> simp [list]

theorem length_le_sum_size (ts : List Tree) : ts.length ≤ (ts.map size).sum := by
  induction ts with
  | nil => simp
  | cons t ts ih =>
    have := t.size_pos
    simp only [List.length_cons, List.map_cons, List.sum_cons]
    omega

namespace Solid

theorem ne_cell (h : t.Solid) (c : Cell) : t ≠ .cell c := by
  rintro rfl
  exact h

theorem cells_head (h : t.Solid) : t.head.cells = [] := by
  cases t with
  | cell c => exact h.elim
  | const value => exact cells_const value
  | node name ts => exact cells_const _

theorem head_ne_cell (h : t.Solid) (c : Cell) : t.head ≠ .cell c := by
  intro he
  have hcells := h.cells_head
  simp [he] at hcells

theorem size_head (h : t.Solid) : t.head.size = 1 := by
  cases t with
  | cell c => exact h.elim
  | const value =>
    show (Tree.const value).size = 1
    rw [size]
  | node name ts => rw [head, size]

/-- The list of the parts of a term has the cells of the term. -/
theorem cells_parts (h : t.Solid) : (list t.parts).cells = t.cells := by
  rw [cells_list, parts, List.flatMap_cons, h.cells_head]
  cases t with
  | cell c => exact h.elim
  | _ => simp [children]

/-- It is not much larger than the term. -/
theorem size_parts_le (h : t.Solid) : (list t.parts).size ≤ 2 * t.size + 1 := by
  have hle := length_le_sum_size t.children
  rw [size_list, t.size_eq, parts, List.map_cons, List.sum_cons, h.size_head, List.length_cons]
  omega

theorem withChildren_ne_cell (h : t.Solid) (ts : List Tree) (c : Cell) :
    t.withChildren ts ≠ .cell c := by
  cases t with
  | cell c => exact h.elim
  | const value => simp [withChildren]
  | node name us => simp [withChildren]

/-- With cells for arguments a term has no others. -/
theorem mem_of_mem_withChildren (h : t.Solid) (hc : c ∈ (t.withChildren (new.map .cell)).cells) :
    c ∈ new := by
  cases t with
  | cell c => exact h.elim
  | const value => simp [withChildren] at hc
  | node name ts => simpa [withChildren, List.flatMap_map] using hc

/-- It is no larger. -/
theorem size_withChildren_le (h : t.Solid) (hlen : new.length = t.children.length) :
    (t.withChildren (new.map .cell)).size ≤ t.size := by
  cases t with
  | cell c => exact h.elim
  | const value => exact le_rfl
  | node name ts =>
    have hle := length_le_sum_size ts
    have hsum : ((new.map Tree.cell).map size).sum = new.length := by
      simp [Function.comp_def, size]
    have hlen : new.length = ts.length := hlen
    rw [withChildren, size_node, size_node, hsum]
    omega

end Solid

end

end Tree

-- ================================================== what a stripped term is

namespace Term

variable {t l r : Term} {name : String} {args : List Term} {home : Option FrameId}

theorem of_compound? (h : t.compound? = some (name, args, home)) :
    t.isVar = false ∧ t.isCompound = true ∧ t.functor? = some (name, args.length) := by
  cases t <;> cases h <;> exact ⟨rfl, rfl, rfl⟩

theorem of_isAtomic (h : t.isAtomic = true) : t.isVar = false ∧ t.isCompound = false := by
  cases t <;> simp_all [isAtomic, isVar, isCompound]

theorem split_of_args (h : t.compound? = some (name, args, home)) (ha : t.args = [l, r]) :
    t.split name = some (l, r) := by
  cases t with
  | compound form n as =>
    cases h
    rw [Term.args] at ha
    simp [split, ha]
  | closure serial n as f =>
    cases h
    rw [Term.args] at ha
    obtain ⟨a, b, rfl⟩ : ∃ a b, args = [a, b] :=
      List.length_eq_two.1 (by simpa using congrArg List.length ha)
    simpa [split] using ha
  | _ => cases h

end Term

namespace Act

section

variable {env : Env} {m : Machine} {t : Term} {τ : Tree}

theorem means_const {v : Term} (h : v.isAtomic = true) : m.Means v (.const v) := by
  refine ⟨?_, .const h⟩
  cases v <;> first | exact trivial | cases h

theorem strip_means (hm : m.Sound) (ht : m.Means t τ) (hsteps : 0 < env.steps) :
    ∃ x, strip t env m = .ok x m ∧ m.Means x τ ∧ (∀ c name, x = .ref c name → τ = .cell c)
      ∧ List.Forall₂ m.Means x.args τ.children := by
  have hx : m.Means (m.query.frames.resolve t) τ :=
    ⟨hm.query.arena.resolve_live ht.live, ht.resolves.resolve⟩
  refine ⟨_, strip_apply ht.resolves hsteps m.db, hx, ?_, (Means.opened hm.query ht).2⟩
  intro c name he
  exact (he ▸ hx.resolves).eq_cell (hm.query.resolve_unbound ht.live he) rfl

/-- A term that stands for an unbound cell is stripped down to a variable. -/
theorem strip_cell {c : Cell} (hm : m.Sound) (ht : m.Means t (.cell c)) (hsteps : 0 < env.steps) :
    ∃ x, strip t env m = .ok x m ∧ x.isVar = true := by
  obtain ⟨x, hstrip, hx, -⟩ := strip_means hm ht hsteps
  refine ⟨x, hstrip, ?_⟩
  rcases hx.resolves.kind with ⟨d, name, rfl⟩ | ⟨-, he⟩ | ⟨_, _, _, _, -, he⟩
  · rfl
  · cases he
  · cases he

/-- A term that stands for a constant is stripped down to it. -/
theorem strip_const {value : Term} (hm : m.Sound) (ht : m.Means t (.const value))
    (hsteps : 0 < env.steps) : strip t env m = .ok value m ∧ value.isAtomic = true := by
  obtain ⟨x, hstrip, hx, hcell, -⟩ := strip_means hm ht hsteps
  rcases hx.resolves.kind with ⟨d, name, he⟩ | ⟨ha, he⟩ | ⟨_, _, _, _, -, he⟩
  · cases hcell d name he
  · cases he
    exact ⟨hstrip, ha⟩
  · cases he

/-- A term that stands for a compound is stripped down to one. -/
theorem strip_node {name : String} {ts : List Tree} (hm : m.Sound) (ht : m.Means t (.node name ts))
    (hsteps : 0 < env.steps) : ∃ x args home, strip t env m = .ok x m
      ∧ x.compound? = some (name, args, home) ∧ args.length = ts.length
      ∧ List.Forall₂ m.Means x.args ts := by
  obtain ⟨x, hstrip, hx, hcell, hargs⟩ := strip_means hm ht hsteps
  rcases hx.resolves.kind with ⟨d, m, he⟩ | ⟨-, he⟩ | ⟨n, args, home, _, hc, he⟩
  · cases hcell d m he
  · cases he
  · cases he
    have hlen := hargs.length_eq
    rw [Term.args_of_compound? hc, List.length_map] at hlen
    exact ⟨x, args, home, hstrip, hc, hlen, hargs⟩

end

-- ================================================== making terms

section

variable {env : Env} {m : Machine} {items : List Term} {τs : List Tree}

theorem resolves_build {fs : Frames} (serial : Nat) (name : String) (hne : items ≠ [])
    (hi : List.Forall₂ fs.Resolves items τs) :
    fs.Resolves (Term.build serial name items) (.node name τs) := by
  have hc : (Term.build serial name items).compound? = some (name, items, none) := by
    rw [Term.build, if_neg (by simpa using hne)]
    rfl
  exact (Frames.resolves_compound hc).2 ⟨τs, rfl, hi⟩

theorem live_of_means {fs : Frames} (hi : List.Forall₂ fs.Means items τs) :
    ∀ i ∈ items, i.Live (fs.world true) := by
  induction hi with
  | nil => simp
  | cons hitem _ ih => exact List.forall_mem_cons.2 ⟨hitem.live, ih⟩

/-- A list that is made stands for the list of what its items stand for. -/
theorem list_means (hm : m.Sound) (henv : env.Sound false) (hi : List.Forall₂ m.Means items τs) :
    ∃ l m', list items env m = .ok l m' ∧ m.Instance .cell m' ∧ m'.Means l (Tree.list τs) := by
  obtain ⟨db, q⟩ := m
  have hresolves : ∀ serial, q.frames.Resolves (items.foldr
      (fun item made => (Term.build made.2 Term.dot [item, made.1], made.2 + 1))
      (Term.nil, serial)).1 (Tree.list τs) := by
    intro serial
    induction hi with
    | nil => exact .const rfl
    | cons hitem _ ih =>
      show q.frames.Resolves (Term.build _ Term.dot [_, _]) (.node Term.dot [_, _])
      apply resolves_build _ _ (List.cons_ne_nil _ _)
      exact .cons hitem.resolves (.cons ih .nil)
  have hreads : Reads .exacting q (list items) (·.Live (q.frames.world true)) :=
    reads_list (live_of_means hi)
  have hended := hreads.ends env db henv hm.db
  obtain ⟨l, m', hlist⟩ : ∃ l m', list items env ⟨db, q⟩ = .ok l m' := ⟨_, _, rfl⟩
  rw [hlist] at hended
  obtain ⟨hq, hdb, hl⟩ := hended
  have hi : Machine.Instance ⟨db, q⟩ .cell m' := .of_query ⟨hdb, hq ▸ hm.query⟩ hq
  refine ⟨l, m', hlist, hi, hi.stays ⟨hl, ?_⟩⟩
  cases hlist
  exact hresolves db.nextTerm

/-- So does a compound, of its arguments. -/
theorem term_means (hm : m.Sound) (henv : env.Sound false) (name : String) (hne : items ≠ [])
    (hi : List.Forall₂ m.Means items τs) :
    ∃ t m', (Database.term name items : Act Term) env m = .ok t m' ∧ m.Instance .cell m'
      ∧ m'.Means t (.node name τs) := by
  obtain ⟨db, q⟩ := m
  have hreads : Reads .exacting q (Database.term name items : Act Term)
      (·.Live (q.frames.world true)) := reads_term (live_of_means hi)
  have hended := hreads.ends env db henv hm.db
  obtain ⟨t, m', hterm⟩ : ∃ t m', (Database.term name items : Act Term) env ⟨db, q⟩ = .ok t m' :=
    ⟨_, _, rfl⟩
  rw [hterm] at hended
  obtain ⟨hq, hdb, ht⟩ := hended
  have hmade : Machine.Instance ⟨db, q⟩ .cell m' := .of_query ⟨hdb, hq ▸ hm.query⟩ hq
  refine ⟨t, m', hterm, hmade, hmade.stays ⟨ht, ?_⟩⟩
  cases hterm
  exact resolves_build db.nextTerm name hne (hi.imp fun _ _ hi => hi.resolves)

end

-- ================================================== reading a list

section

variable {env : Env} {m : Machine} {l x : Term} {τs : List Tree}

theorem listItemsWithin_means (hm : m.Sound) (hl : m.Means l (Tree.list τs))
    (hstrip : strip l env m = .ok x m) {steps : Nat} (hsteps : τs.length < steps)
    (hpos : 0 < env.steps) (whole : Term) (before : List Term) :
    ∃ items, listItemsWithin whole steps x before env m = .ok (before.reverse ++ items) m
      ∧ List.Forall₂ m.Means items τs := by
  obtain ⟨steps, rfl⟩ : ∃ k, steps = k + 1 := ⟨steps - 1, by omega⟩
  induction τs generalizing l x steps before with
  | nil =>
    cases hstrip.symm.trans (strip_const hm hl hpos).1
    refine ⟨[], ?_, .nil⟩
    rw [List.append_nil]
    simp only [listItemsWithin, Term.nil]
    rfl
  | cons τ τs ih =>
    obtain ⟨y, args, home, hstrip', hc, -, hargs⟩ := strip_node hm hl hpos
    cases hstrip.symm.trans hstrip'
    obtain ⟨head, tail, hboth⟩ : ∃ head tail, x.args = [head, tail] :=
      List.length_eq_two.1 hargs.length_eq
    rw [hboth] at hargs
    obtain ⟨hhead, hrest⟩ := List.forall₂_cons.1 hargs
    have htail := (List.forall₂_cons.1 hrest).1
    obtain ⟨y, hy, -⟩ := strip_means hm htail hpos
    obtain ⟨k, rfl⟩ : ∃ k, steps = k + 1 := ⟨steps - 1, by simp at hsteps; omega⟩
    obtain ⟨items, hitems, hmeans⟩ := ih htail hy (head :: before) k (by simpa using hsteps)
    refine ⟨head :: items, ?_, .cons hhead hmeans⟩
    have hsplit := Term.split_of_args hc hboth
    have hstep : listItemsWithin whole (k + 1 + 1) x before env m
        = listItemsWithin whole (k + 1) y (head :: before) env m := by
      cases x with
      | compound form n as => simp only [listItemsWithin, hsplit, bind_apply, hy]
      | closure serial n as f => simp only [listItemsWithin, hsplit, bind_apply, hy]
      | _ => cases hc
    rw [hstep, hitems]
    simp

/-- The items of a proper list are found as they stand. -/
theorem listItems_means (hm : m.Sound) (hl : m.Means l (Tree.list τs))
    (hsteps : τs.length < env.steps) :
    ∃ items, listItems l env m = .ok items m ∧ List.Forall₂ m.Means items τs := by
  have hpos : 0 < env.steps := Nat.zero_lt_of_lt hsteps
  obtain ⟨x, hstrip, -⟩ := strip_means hm hl hpos
  obtain ⟨items, hitems, hmeans⟩ := listItemsWithin_means hm hl hstrip hsteps hpos l []
  refine ⟨items, ?_, hmeans⟩
  simp only [listItems, bind_apply, steps_apply, hstrip]
  exact hitems

end

end Act

-- ================================================== a term and its parts

namespace Terms

open Act

section

variable {env : Env} {m : Machine} {t u l n a x : Term} {τ : Tree} {c d : Cell}

/-- The number of arguments of a term is no negative number. -/
theorem ofNat_not_neg {k : Nat} (hk : k < 2 ^ 63) :
    (Int64.ofNat k).toInt = k ∧ ¬ Int64.ofNat k < 0 := by
  have htoInt : (Int64.ofNat k).toInt = k := Int64.toInt_ofNat_of_lt hk
  refine ⟨htoInt, ?_⟩
  rw [Int64.lt_iff_toInt_lt, htoInt, Int64.toInt_zero]
  omega

/-- A variable gets the list of the parts of a term. -/
theorem univ_apart (hm : m.Sound) (henv : env.Sound false) (ht : m.Means t τ) (hτ : τ.Solid)
    (hl : m.Means l (.cell c)) (hc : c ∉ τ.cells) (hsteps : 2 * τ.size + 1 < env.steps) :
    ∃ m', univ t l env m = .ok true m' ∧ m.Spares [c] m' ∧ m'.Means l (Tree.list τ.parts) := by
  have hpos : 0 < env.steps := Nat.zero_lt_of_lt hsteps
  obtain ⟨items, hgoal, hitems⟩ : ∃ items, univ t l env m = (list items >>= unify l) env m
      ∧ List.Forall₂ m.Means items τ.parts := by
    cases τ with
    | cell c => exact hτ.elim
    | const value =>
      obtain ⟨hstrip, hatomic⟩ := strip_const hm ht hpos
      refine ⟨[value], ?_, .cons (means_const hatomic) .nil⟩
      cases value with
      | atom _ | number _ | host _ =>
        rw [univ, bind_apply, hstrip]
        rfl
      | _ => cases hatomic
    | node name ts =>
      obtain ⟨x, args, home, hstrip, hcompound, hlen, hargs⟩ := strip_node hm ht hpos
      obtain ⟨hvar, -, hfunctor⟩ := Term.of_compound? hcompound
      refine ⟨.atom name :: x.args, ?_, .cons (means_const rfl) hargs⟩
      obtain ⟨k, hk⟩ : ∃ k, args.length = k + 1 :=
        Nat.exists_eq_succ_of_ne_zero fun h => hτ (List.length_eq_zero_iff.1 (hlen.symm.trans h))
      simp only [univ, bind_apply, hstrip, hvar, Bool.not_false, if_true, hfunctor, hk]
  obtain ⟨v, m₁, hlist, hi, hv⟩ := list_means hm henv hitems
  have hsize := hτ.size_parts_le
  obtain ⟨m', hunify, hspares, hgiven⟩ := unify_made henv hi hl hv (Tree.list_ne_cell _)
    (by rwa [hτ.cells_parts]) (by omega)
  refine ⟨m', ?_, hspares, hgiven⟩
  simp only [hgoal, bind_apply, hlist, hunify]

/-- A variable gets the term that has the parts. -/
theorem univ_built (hm : m.Sound) (henv : env.Sound false) (hu : m.Means u (.cell c))
    (hl : m.Means l (Tree.list τ.parts)) (hτ : τ.Solid) (hc : c ∉ τ.cells)
    (hsteps : 2 * τ.size + 1 < env.steps) :
    ∃ m', univ u l env m = .ok true m' ∧ m.Spares [c] m' ∧ m'.Means u τ := by
  have hpos : 0 < env.steps := Nat.zero_lt_of_lt hsteps
  have hsize := τ.size_pos
  obtain ⟨v, m₁, hgoal, hi, hv⟩ : ∃ v m₁, univ u l env m = unify u v env m₁
      ∧ m.Instance .cell m₁ ∧ m₁.Means v τ := by
    have hmany : τ.parts.length < env.steps := by
      have := Tree.length_le_sum_size τ.children
      have := τ.size_eq
      rw [Tree.parts, List.length_cons]
      omega
    obtain ⟨y, hy, hunbound⟩ := strip_cell hm hu hpos
    obtain ⟨items, hlist, hitems⟩ := listItems_means hm hl hmany
    obtain ⟨head, rest, hhead, hrest, rfl⟩ := List.forall₂_cons_right_iff.1 hitems
    cases τ with
    | cell c => exact hτ.elim
    | const value =>
      obtain ⟨hstrip, hatomic⟩ := strip_const hm hhead hpos
      have hvar := (Term.of_isAtomic hatomic).1
      cases hrest
      refine ⟨value, m, ?_, .of_query hm rfl, means_const hatomic⟩
      simp [univ, bind_apply, hy, hunbound, hlist, hstrip, hvar, hatomic]
    | node name ts =>
      obtain ⟨hstrip, -⟩ := strip_const hm hhead hpos
      have hne : rest ≠ [] := by
        rintro rfl
        exact hτ (List.length_eq_zero_iff.1 hrest.length_eq.symm)
      obtain ⟨v, m₁, hterm, hi, hv⟩ := term_means hm henv name hne hrest
      refine ⟨v, m₁, ?_, hi, hv⟩
      have hvar : (Term.atom name).isVar = false := rfl
      have hchecked : checked (Term.atom name).asAtom env m = .ok name m := rfl
      simp [univ, bind_apply, hy, hunbound, hlist, hstrip, hvar, hne, hchecked, hterm]
  obtain ⟨m', hunify, hspares, hgiven⟩ := unify_made henv hi hu hv hτ.ne_cell hc (by omega)
  exact ⟨m', hgoal.trans hunify, hspares, hgiven⟩

/-- Two variables get the name of a term and the number of its arguments. -/
theorem functor_apart (hm : m.Sound) (henv : env.Sound false) (ht : m.Means t τ) (hτ : τ.Solid)
    (hn : m.Means n (.cell c)) (ha : m.Means a (.cell d)) (hcd : c ≠ d)
    (hsteps : τ.size < env.steps) : ∃ m', functor t n a env m = .ok true m' ∧ m.Spares [c, d] m'
      ∧ m'.Means n τ.head ∧ m'.Means a (.const (.ofNat τ.children.length)) := by
  have hsize := τ.size_pos
  have hpos : 0 < env.steps := by omega
  have hone : 1 < env.steps := by omega
  obtain ⟨v, hgoal, hv⟩ : ∃ v, functor t n a env m
      = (do if ← unify n v then unify a (.ofNat τ.children.length) else return false) env m
      ∧ m.Means v τ.head := by
    cases τ with
    | cell c => exact hτ.elim
    | const value =>
      obtain ⟨hstrip, hatomic⟩ := strip_const hm ht hpos
      refine ⟨value, ?_, means_const hatomic⟩
      cases value with
      | atom _ | number _ | host _ =>
        rw [functor, bind_apply, hstrip]
        rfl
      | _ => cases hatomic
    | node name ts =>
      obtain ⟨x, args, home, hstrip, hcompound, hlen, -⟩ := strip_node hm ht hpos
      obtain ⟨hvar, -, hfunctor⟩ := Term.of_compound? hcompound
      refine ⟨.atom name, ?_, means_const rfl⟩
      simp only [functor, bind_apply, hstrip, hvar, Bool.not_false, if_true, hfunctor, hlen,
        Tree.children]
  have hclear : ∀ e, e ∉ τ.head.cells := by simp [hτ.cells_head]
  obtain ⟨m₁, hname, h₁, hn₁⟩ := unify_made henv (.of_query hm rfl) hn hv hτ.head_ne_cell
    (hclear c) (by rwa [hτ.size_head])
  have ha₁ := h₁.means ha (by simpa using hcd.symm)
  obtain ⟨m', hunify, h₂, ha₂⟩ := unify_made henv (.of_query h₁.sound rfl) ha₁
    (means_const (v := .ofNat τ.children.length) rfl) (by simp) (by simp) (by rwa [Tree.size])
  refine ⟨m', ?_, h₁.trans h₂, h₂.means hn₁ (by simpa using hclear d), ha₂⟩
  simp only [hgoal, bind_apply, hname, if_true, hunify]

/-- With a variable in the place of the term, a name and a number of arguments make
one. -/
theorem functor_of_parts {y value : Term} {k : Nat} (hu : strip u env m = .ok y m)
    (hy : y.isVar = true) (hn : strip n env m = .ok value m) (hvalue : value.isAtomic = true)
    (ha : strip a env m = .ok (.ofNat k) m) (hk : k < 2 ^ 63) : functor u n a env m
      = (if k = 0 then unify u value else do
          let name ← checked value.asAtom
          let vars ← freshVars k
          unify u (← Database.term name vars)) env m := by
  obtain ⟨hplain, hcompound⟩ := Term.of_isAtomic hvalue
  have hvar : (Term.ofNat k).isVar = false := rfl
  have hchecked : checked (Term.ofNat k).asInt env m = .ok (Int64.ofNat k) m := rfl
  obtain ⟨htoInt, hnonneg⟩ := ofNat_not_neg hk
  have hzero : Int64.ofNat k = 0 ↔ k = 0 := by
    rw [← Int64.toInt_inj, htoInt, Int64.toInt_zero]
    omega
  simp only [functor, bind_apply, hu, hy, hn, ha, hplain, hvar, hchecked, hnonneg, hcompound, hzero,
    htoInt, Int.toNat_natCast, Bool.not_true, Bool.or_false, Bool.false_eq_true, if_false]

/-- A variable gets a term of the name, with new variables for arguments. -/
theorem functor_built (hm : m.Sound) (henv : env.Sound false) (hu : m.Means u (.cell c))
    (hn : m.Means n τ.head) (ha : m.Means a (.const (.ofNat τ.children.length))) (hτ : τ.Solid)
    (hfits : τ.children.length < 2 ^ 63) (hsteps : τ.size < env.steps) :
    ∃ (m' : Machine) (new : List Cell), functor u n a env m = .ok true m' ∧ m.Spares [c] m'
      ∧ m'.Means u (τ.withChildren (new.map .cell)) ∧ new.Nodup
      ∧ new.length = τ.children.length ∧ ∀ d ∈ new, m.query.frames.slot? d = none := by
  have hpos : 0 < env.steps := Nat.zero_lt_of_lt hsteps
  obtain ⟨y, hy, hunbound⟩ := strip_cell hm hu hpos
  have harity := (strip_const hm ha hpos).1
  obtain ⟨v, m₁, new, hgoal, hi, hv, hnodup, hlen, hnone⟩ : ∃ (v : Term) (m₁ : Machine)
      (new : List Cell), functor u n a env m = unify u v env m₁ ∧ m.Instance .cell m₁
        ∧ m₁.Means v (τ.withChildren (new.map .cell)) ∧ new.Nodup
        ∧ new.length = τ.children.length ∧ ∀ d ∈ new, m.query.frames.slot? d = none := by
    cases τ with
    | cell c => exact hτ.elim
    | const value =>
      obtain ⟨hname, hatomic⟩ := strip_const hm hn hpos
      refine ⟨value, m, [], ?_, .of_query hm rfl, means_const hatomic, List.nodup_nil, rfl, by simp⟩
      rw [functor_of_parts hy hunbound hname hatomic harity hfits]
      rfl
    | node name ts =>
      obtain ⟨hname, hatomic⟩ := strip_const hm hn hpos
      obtain ⟨m₁, vars, new, hmade, h₁, hvars, hlen, hnone⟩ :=
        freshVars_instance hm henv (Tree.node name ts).children.length
      have hsome : (Tree.node name ts).children.length ≠ 0 := fun h =>
        hτ (List.length_eq_zero_iff.1 h)
      have hne : vars ≠ [] := by
        rintro rfl
        exact hsome (hlen.symm.trans hvars.length_eq.symm)
      obtain ⟨v, m₂, hterm, h₂, hv⟩ := term_means h₁.sound henv name hne hvars.means
      have hchecked : checked (Term.atom name).asAtom env m = .ok name m := rfl
      refine ⟨v, m₂, new, ?_, h₁.stays_trans h₂, hv, hvars.nodup, hlen, hnone⟩
      rw [functor_of_parts hy hunbound hname hatomic harity hfits, if_neg hsome]
      simp only [bind_apply, hchecked, hmade, hterm]
  have hother : c ∉ (τ.withChildren (new.map .cell)).cells := by
    intro hc
    have hnew := hnone c (hτ.mem_of_mem_withChildren hc)
    exact hu.not_mem_of_none hnew (by simp)
  have hsize := hτ.size_withChildren_le hlen
  obtain ⟨m', hunify, hspares, hgiven⟩ :=
    unify_made henv hi hu hv (hτ.withChildren_ne_cell _) hother (by omega)
  exact ⟨m', new, hgoal.trans hunify, hspares, hgiven, hnodup, hlen, hnone⟩

/-- `arg/3` unifies its last argument with one of the term's. -/
theorem argument_eq {name : String} {ts : List Tree} (hm : m.Sound) (ht : m.Means t (.node name ts))
    (hfits : ts.length < 2 ^ 63) {i : Nat} (hi : i < ts.length) (hsteps : 0 < env.steps) :
    ∃ v, argument (.ofNat (i + 1)) t x env m = unify x v env m ∧ m.Means v ts[i] := by
  obtain ⟨y, args, home, hstrip, hc, -, hargs⟩ := strip_node hm ht hsteps
  obtain ⟨hvar, hcompound, -⟩ := Term.of_compound? hc
  have hlen := hargs.length_eq
  have hi' : i < y.args.length := by omega
  refine ⟨y.args[i], ?_, hargs.get hi' hi⟩
  have hnumber := (strip_const hm (means_const (v := .ofNat (i + 1)) rfl) hsteps).1
  have hchecked : checked (Term.ofNat (i + 1)).asInt env m = .ok (Int64.ofNat (i + 1)) m := rfl
  have hword : i + 1 < 2 ^ 63 := by omega
  obtain ⟨htoInt, hnonneg⟩ := ofNat_not_neg hword
  have harg : y.arg? i = some y.args[i] := by
    rw [Term.arg?_eq_getElem?, List.getElem?_eq_getElem hi']
  simp only [argument, bind_apply, hnumber, hchecked, hstrip, hvar, hcompound, hnonneg,
    htoInt, Int.toNat_natCast, harg, Bool.false_eq_true, Bool.not_true, if_false]

end

end Terms

end LogicMachine
