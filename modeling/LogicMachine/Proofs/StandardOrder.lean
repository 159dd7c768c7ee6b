/-
The standard order of terms is a total order.

Two terms are compared top by top, from the left and from above, until two
tops differ. So what is compared are two lists: the tops of the one tree and
those of the other, in preorder (`Act.compareWithin_eq`). The top of a term
says how many arguments follow, so the list tells the tree
(`Frames.Resolves.eq_of_tops`). Both together make the order of terms that of
lists of tops, whatever mixture of templates, closures and references the
terms are written in.

A variable is ranked by the age of its slots and its place among them. That
two cells never share both is what a sound arena is needed for: only a frame
that owns its slots has any, and of such frames the ages differ.
-/
import LogicMachine.Proofs.NumberOrder
import LogicMachine.Proofs.Unifiers

namespace LogicMachine

open Std (TransCmp LawfulEqCmp TransOrd LawfulEqOrd)

-- ================================================== tops

/-- What counts of a term before its arguments do: the rank of its kind, then
what tells it from others of the kind, which is its age and slot, its value,
its name or its identity. -/
structure Top where
  rank : Nat
  age : Nat := 0
  slot : Nat := 0
  value : Number := default
  name : String := ""
  id : Nat := 0

namespace Top

def order : Top → Top → Ordering :=
  compareLex (compareOn rank) (compareLex (compareOn age) (compareLex (compareOn slot)
    (compareLex (compareOn value) (compareLex (compareOn name) (compareOn id)))))

instance : TransCmp order := by
  unfold order
  infer_instance

instance : LawfulEqCmp order where
  compare_self := by simp [order, compareLex, compareOn]
  eq_of_compare {a b} h := by
    simp only [order, compareLex, compareOn, Ordering.then_eq_eq, compare_eq_iff_eq] at h
    cases a
    cases b
    simpa using h

instance : Ord Top := ⟨order⟩

instance : TransOrd Top := inferInstanceAs (TransCmp order)

instance : LawfulEqOrd Top := inferInstanceAs (LawfulEqCmp order)

end Top

/-- The top of a term. -/
def Term.top (fs : Frames) (t : Term) : Top where
  rank := Act.kindRank t
  age := (Act.variableRank fs t).1
  slot := (Act.variableRank fs t).2
  value := match t with
    | .number n => n
    | _ => default
  name := match t.functor? with
    | some (name, _) => name
    | none => ""
  id := match t with
    | .host id => id
    | _ => 0

namespace Term

section

variable {fs : Frames} {t u : Term} {name : String} {args : List Term} {home : Option FrameId}

theorem args_of_compound? (h : t.compound? = some (name, args, home)) :
    t.args = args.map (·.bindIn home) := by
  cases t with
  | compound form n as =>
    cases h
    exact (List.map_id _).symm
  | closure serial n as f =>
    cases h
    rfl
  | _ => cases h

theorem args_of_isAtomic (h : t.isAtomic = true) : t.args = [] := by
  cases t <;> first | rfl | cases h

theorem top_of_compound? (h : t.compound? = some (name, args, home)) :
    t.top fs = { rank := 5 + args.length, name := name } := by
  cases t <;> cases h <;> rfl

/-- The rank tells the number of arguments. -/
theorem length_args_of_kindRank (h : Act.kindRank t = Act.kindRank u) :
    t.args.length = u.args.length := by
  cases t <;> cases u <;> simp only [Act.kindRank, args, List.length_map, List.length_nil] at h ⊢ <;>
    omega

end

end Term

namespace Act

section

variable {fs : Frames} {x y : Term}

/-- Comparing the tops of two terms is comparing what counts of them. -/
theorem compareTops_fst (fs : Frames) (x y : Term) :
    (compareTops fs x y).1 = compare (x.top fs) (y.top fs) := by
  show _ = Top.order _ _
  unfold compareTops Top.order
  simp only [compareLex, compareOn, Term.top]
  cases hrank : compare (kindRank x) (kindRank y) with
  | lt => rfl
  | gt => rfl
  | eq =>
    rw [Nat.compare_eq_eq] at hrank
    cases x <;> cases y <;> simp only [kindRank] at hrank <;>
      first
      | omega
      | simp [variableRank, Term.isVar, Term.functor?]
    rfl

/-- If the tops are equal, the arguments decide. -/
theorem compareTops_snd (h : x.top fs = y.top fs) : (compareTops fs x y).2 = x.args.zip y.args := by
  have hrank : kindRank x = kindRank y := congrArg Top.rank h
  unfold compareTops
  rw [Nat.compare_eq_eq.2 hrank]
  cases x <;> cases y <;> simp only [kindRank] at hrank <;>
    first
    | omega
    | simp [Term.args, Term.isVar, Term.functor?]

end

end Act

-- ================================================== the tops of a tree

namespace Tree

def children : Tree → List Tree
  | .node _ args => args
  | _ => []

/-- The top of a tree is that of what stands for it. -/
def top (fs : Frames) : Tree → Top
  | .cell c => (Term.ref c "").top fs
  | .const value => value.top fs
  | .node name args => { rank := 5 + args.length, name := name }

mutual

/-- The tops of a tree and of what is below it, from above and from the
left. -/
def tops (fs : Frames) : Tree → List Top
  | .cell c => [top fs (.cell c)]
  | .const value => [top fs (.const value)]
  | .node name args => top fs (.node name args) :: topsAll fs args

def topsAll (fs : Frames) : List Tree → List Top
  | [] => []
  | t :: ts => tops fs t ++ topsAll fs ts

end

section

variable {fs : Frames}

theorem topsAll_eq (ts : List Tree) : topsAll fs ts = ts.flatMap (tops fs) := by
  induction ts with
  | nil => rw [topsAll, List.flatMap_nil]
  | cons t ts ih => rw [topsAll, ih, List.flatMap_cons]

theorem tops_eq (t : Tree) : t.tops fs = t.top fs :: t.children.flatMap (tops fs) := by
  cases t with
  | node name args => rw [tops, topsAll_eq, children]
  | _ =>
    rw [tops]
    rfl

theorem size_lt_of_mem {t u : Tree} (h : u ∈ t.children) : u.size < t.size := by
  cases t with
  | node name args => exact size_lt_node h
  | _ => exact absurd h List.not_mem_nil

theorem size_eq (t : Tree) : t.size = (t.children.map size).sum + 1 := by
  cases t with
  | node name args => exact size_node name args
  | _ =>
    rw [size]
    rfl

end

end Tree

-- ================================================== following bindings

namespace Frames

/-- The term, which is live, stands for the tree. -/
structure Means (fs : Frames) (t : Term) (τ : Tree) : Prop where
  live : t.Live (fs.world true)
  resolves : fs.Resolves t τ

section

variable {fs : Frames} {t u : Term} {a b τ : Tree} {c : Cell} {name : String}

/-- Following bindings from a cell changes nothing of what it stands for. -/
theorem Resolves.follow (h : fs.Resolves (.ref c name) τ) (cells : Nat) :
    fs.Resolves (fs.follow false cells c name) τ := by
  induction cells generalizing c name with
  | zero => exact h
  | succ cells ih =>
    unfold Frames.follow
    split
    · exact h
    · rename_i slot hslot
      have hvalue : ∀ {v}, Slot.shown false slot = some v → fs.Resolves v τ := by
        intro v hv
        refine h.of_value hslot ?_
        unfold Slot.shown at hv
        split at hv
        · rename_i hv'
          exact hv'.trans hv
        · cases hv
      split
      · exact h
      · rename_i hshown
        exact ih (hvalue hshown)
      · rename_i hshown
        exact hvalue hshown

theorem Resolves.resolve (h : fs.Resolves t τ) : fs.Resolves (fs.resolve t) τ := by
  unfold Frames.resolve
  split
  · exact h.follow _
  · exact h

/-- A term that is followed through has the top of what it stands for, and
its arguments stand for what is below. -/
theorem Resolves.opened (h : fs.Resolves t τ) (hu : ∀ c name, t = .ref c name → τ = .cell c) :
    t.top fs = τ.top fs ∧ List.Forall₂ fs.Resolves t.args τ.children := by
  rcases h.kind with ⟨c, name, rfl⟩ | ⟨ha, rfl⟩ | ⟨name, args, home, τs, hc, rfl⟩
  · obtain rfl := hu c name rfl
    exact ⟨rfl, .nil⟩
  · rw [Term.args_of_isAtomic ha]
    exact ⟨rfl, .nil⟩
  · obtain ⟨_, heq, hτs⟩ := (resolves_compound hc).1 h
    cases heq
    constructor
    · rw [Term.top_of_compound? hc, hτs.length_eq, Tree.top]
    · rw [Term.args_of_compound? hc]
      exact List.forall₂_map_left_iff.2 hτs

theorem Means.args (h : fs.Sound true) (ht : fs.Means t τ) {τs : List Tree}
    (hτs : List.Forall₂ fs.Resolves t.args τs) : List.Forall₂ fs.Means t.args τs := by
  have hlive : ∀ a ∈ t.args, a.Live (fs.world true) := by
    intro a ha
    cases hc : t.compound? with
    | none =>
      cases t <;> simp only [Term.compound?, reduceCtorEq] at hc <;> exact absurd ha List.not_mem_nil
    | some parts =>
      obtain ⟨name, args, home⟩ := parts
      rw [Term.args_of_compound? hc] at ha
      obtain ⟨b, hb, rfl⟩ := List.mem_map.1 ha
      exact h.leads_live ht.live (.arg hc hb)
  obtain ⟨hlen, hzip⟩ := List.forall₂_iff_zip.1 hτs
  exact List.forall₂_iff_zip.2 ⟨hlen, fun hm => ⟨hlive _ (List.of_mem_zip hm).1, hzip hm⟩⟩

end

end Frames

-- ================================================== comparing top by top

namespace Act

section

variable {q : Query} {env : Env}

/-- A term that stands for a tree is stripped by following its bindings. -/
theorem strip_apply {t : Term} {τ : Tree} (ht : q.frames.Resolves t τ) (hsteps : 0 < env.steps)
    (db : Database) : strip t env ⟨db, q⟩ = .ok (q.frames.resolve t) ⟨db, q⟩ := by
  refine strip_apply_of_ne_thunk (m := ⟨db, q⟩) (fun id he => ?_) hsteps
  have hresolved := ht.resolve
  rw [show q.frames.resolve t = .thunk id from he] at hresolved
  exact Frames.not_resolves_thunk hresolved

theorem Means.opened (hq : q.Sound true) {t : Term} {τ : Tree} (ht : q.frames.Means t τ) :
    (q.frames.resolve t).top q.frames = τ.top q.frames
      ∧ List.Forall₂ q.frames.Means (q.frames.resolve t).args τ.children := by
  have hmeans : q.frames.Means (q.frames.resolve t) τ :=
    ⟨hq.arena.resolve_live ht.live, ht.resolves.resolve⟩
  obtain ⟨htop, hargs⟩ := hmeans.resolves.opened fun c name hr =>
    (hr ▸ hmeans.resolves).eq_cell (hq.resolve_unbound ht.live hr) rfl
  exact ⟨htop, hmeans.args hq.arena hargs⟩

/-- Pairs of terms are compared as the lists of their tops are. The size of
the trees on the left bounds the steps. -/
theorem compareWithin_eq (hq : q.Sound true) (hsteps : 0 < env.steps) (db : Database) (steps : Nat)
    {ps : List (Term × Term)} {as bs : List Tree}
    (ha : List.Forall₂ q.frames.Means (ps.map Prod.fst) as)
    (hb : List.Forall₂ q.frames.Means (ps.map Prod.snd) bs) (hlt : (as.map Tree.size).sum < steps) :
    compareWithin steps ps env ⟨db, q⟩
      = .ok (compare (as.flatMap (Tree.tops q.frames)) (bs.flatMap (Tree.tops q.frames))) ⟨db, q⟩ := by
  induction steps generalizing ps as bs with
  | zero => exact absurd hlt (Nat.not_lt_zero _)
  | succ steps ih =>
    obtain _ | ⟨⟨t, u⟩, rest⟩ := ps
    · cases ha
      cases hb
      rfl
    obtain ⟨a, as, hta, hra, rfl⟩ := List.forall₂_cons_left_iff.1 ha
    obtain ⟨b, bs, hub, hrb, rfl⟩ := List.forall₂_cons_left_iff.1 hb
    obtain ⟨htopa, hargsa⟩ := Means.opened hq hta
    obtain ⟨htopb, hargsb⟩ := Means.opened hq hub
    rw [List.flatMap_cons, List.flatMap_cons, a.tops_eq, b.tops_eq, List.cons_append,
      List.cons_append, List.compare_cons_cons, compareWithin, ← htopa, ← htopb]
    simp only [bind_apply, strip_apply hta.resolves hsteps, strip_apply hub.resolves hsteps,
      frames_apply]
    generalize q.frames.resolve t = x at hargsa ⊢
    generalize q.frames.resolve u = y at hargsb ⊢
    have hfst := compareTops_fst q.frames x y
    cases hdecided : compareTops q.frames x y with
    | mk o arguments =>
      rw [hdecided] at hfst
      rw [← hfst]
      cases o with
      | lt => rfl
      | gt => rfl
      | eq =>
        have htops : x.top q.frames = y.top q.frames := LawfulEqOrd.compare_eq_iff_eq.1 hfst.symm
        have hlen : x.args.length = y.args.length :=
          Term.length_args_of_kindRank (congrArg Top.rank htops)
        have hargs := compareTops_snd htops
        rw [hdecided] at hargs
        obtain rfl : arguments = x.args.zip y.args := hargs
        rw [← List.flatMap_append, ← List.flatMap_append]
        refine ih ?_ ?_ ?_
        · rw [List.map_append, List.map_fst_zip hlen.le]
          exact List.rel_append hargsa hra
        · rw [List.map_append, List.map_snd_zip hlen.ge]
          exact List.rel_append hargsb hrb
        · rw [List.map_cons, List.sum_cons, a.size_eq] at hlt
          rw [List.map_append, List.sum_append]
          omega

end

end Act

-- ================================================== reading a tree off its tops

namespace Frames

/-- The leaves of a tree that some term stands for: cells that are there and
constants. -/
def Yields (fs : Frames) : Tree → Prop
  | .cell c => (fs.slot? c).isSome
  | .const value => value.isAtomic = true
  | .node _ τs => ∀ τ ∈ τs, ∃ t, fs.Resolves t τ

section

variable {fs : Frames} {t u : Term} {a b τ : Tree} {c d : Cell} {age : Nat}

theorem Resolves.yields (h : fs.Resolves t τ) : fs.Yields τ := by
  induction h with
  | const ha => exact ha
  | unbound hs _ =>
    rw [Yields, hs]
    rfl
  | bound _ _ _ ih => exact ih
  | node hc hlen h _ =>
    intro τ hτ
    rw [← List.map_snd_zip hlen.ge] at hτ
    obtain ⟨⟨a, τ⟩, hm, rfl⟩ := List.mem_map.1 hτ
    exact ⟨_, h a τ hm⟩

end

end Frames

theorem Term.eq_of_top {fs : Frames} {t u : Term} (ht : t.isAtomic = true) (hu : u.isAtomic = true)
    (h : t.top fs = u.top fs) : t = u := by
  cases t <;> cases hu' : u <;> subst hu' <;>
    simp_all [Term.isAtomic, Term.top, Act.kindRank, Term.functor?]

theorem Act.kindRank_of_isAtomic {t : Term} (h : t.isAtomic = true) :
    0 < kindRank t ∧ kindRank t < 5 := by
  cases t <;> simp_all [Term.isAtomic, kindRank]

/-- Lists of items, each of which can be read off from what it is written as,
can be read off from what they are written as one after the other. -/
theorem flatMap_append_inj {α β : Type} {f : α → List β} {as bs : List α} {xs ys : List β}
    (hlen : as.length = bs.length)
    (hinj : ∀ a ∈ as, ∀ b ∈ bs, ∀ xs ys, f a ++ xs = f b ++ ys → a = b ∧ xs = ys)
    (h : as.flatMap f ++ xs = bs.flatMap f ++ ys) : as = bs ∧ xs = ys := by
  induction as generalizing bs with
  | nil =>
    cases bs with
    | nil => exact ⟨rfl, h⟩
    | cons b bs => cases hlen
  | cons a as ih =>
    cases bs with
    | nil => cases hlen
    | cons b bs =>
      rw [List.flatMap_cons, List.flatMap_cons, List.append_assoc, List.append_assoc] at h
      obtain ⟨rfl, hrest⟩ := hinj a List.mem_cons_self b List.mem_cons_self _ _ h
      obtain ⟨rfl, hxy⟩ := ih (Nat.succ.inj hlen)
        (fun a ha b hb => hinj a (List.mem_cons_of_mem _ ha) b (List.mem_cons_of_mem _ hb)) hrest
      exact ⟨rfl, hxy⟩

namespace Frames

section

variable {fs : Frames} {a b : Tree} {age : Nat}

/-- The top tells how many trees are below it. -/
theorem Yields.length_children (h : fs.Yields a) : a.children.length = (a.top fs).rank - 5 := by
  cases a with
  | cell c => rfl
  | const value => exact (Nat.sub_eq_zero_of_le (Act.kindRank_of_isAtomic h).2.le).symm
  | node name τs => exact (Nat.add_sub_cancel_left 5 τs.length).symm

/-- A tree is told by its top and what is below it. -/
theorem Sound.eq_of_top (hs : fs.Sound true) (hl : fs.Laddered age) (ha : fs.Yields a)
    (hb : fs.Yields b) (htop : a.top fs = b.top fs) (hbelow : a.children = b.children) : a = b := by
  have hrank := congrArg Top.rank htop
  have hcell : ∀ c, ((Tree.cell c).top fs).rank = 0 := fun _ => rfl
  have hconst : ∀ {t}, t.isAtomic = true →
      0 < ((Tree.const t).top fs).rank ∧ ((Tree.const t).top fs).rank < 5 := fun ht =>
    Act.kindRank_of_isAtomic ht
  have hnode : ∀ name τs, 5 ≤ ((Tree.node name τs).top fs).rank := fun _ _ => Nat.le_add_right 5 _
  cases a with
  | cell c =>
    rw [hcell] at hrank
    cases b with
    | cell d =>
      have hframe : c.frame = d.frame := hs.eq_of_ordinal hl (hs.frame_of_slot? ha)
        (hs.frame_of_slot? hb) (congrArg Top.age htop)
      have hslot : c.slot = d.slot := congrArg Top.slot htop
      obtain ⟨f, i⟩ := c
      obtain ⟨g, j⟩ := d
      dsimp only at hframe hslot
      rw [hframe, hslot]
    | const value => exact absurd hrank (hconst hb).1.ne
    | node name τs => exact absurd (hrank.ge.trans' (hnode name τs)) (by decide)
  | const value =>
    cases b with
    | cell d => exact absurd hrank (hconst ha).1.ne'
    | const value' => rw [Term.eq_of_top ha hb htop]
    | node name τs => exact absurd hrank ((hconst ha).2.trans_le (hnode name τs)).ne
  | node name τs =>
    cases b with
    | cell d =>
      rw [hcell] at hrank
      exact absurd (hrank.le.trans' (hnode name τs)) (by decide)
    | const value => exact absurd hrank ((hconst hb).2.trans_le (hnode name τs)).ne'
    | node name' τs' =>
      have hname : name = name' := congrArg Top.name htop
      obtain rfl : τs = τs' := hbelow
      rw [hname]

theorem Yields.children (h : fs.Yields a) : ∀ τ ∈ a.children, ∃ t, fs.Resolves t τ := by
  cases a with
  | node name τs => exact h
  | _ => exact fun τ hτ => absurd hτ List.not_mem_nil

/-- A tree can be read off its tops, wherever they end. The induction is on
the tree, and takes the top away first. -/
theorem Resolves.eq_of_tops (hs : fs.Sound true) (hl : fs.Laddered age) {t u : Term} {a b : Tree}
    (ht : fs.Resolves t a) (hu : fs.Resolves u b) {xs ys : List Top}
    (h : a.tops fs ++ xs = b.tops fs ++ ys) : a = b ∧ xs = ys := by
  have ha := ht.yields
  have hb := hu.yields
  rw [a.tops_eq, b.tops_eq, List.cons_append, List.cons_append, List.cons.injEq] at h
  obtain ⟨htop, hrest⟩ := h
  have hlen : a.children.length = b.children.length := by
    rw [ha.length_children, hb.length_children, htop]
  obtain ⟨hbelow, hxy⟩ := flatMap_append_inj hlen (fun τ hτ τ' hτ' xs ys h => by
    obtain ⟨t', ht'⟩ := ha.children τ hτ
    obtain ⟨u', hu'⟩ := hb.children τ' hτ'
    have hsize := Tree.size_lt_of_mem hτ
    exact ht'.eq_of_tops hs hl hu' h) hrest
  exact ⟨hs.eq_of_top hl ha hb htop hbelow, hxy⟩
termination_by a.size

end

end Frames

/-- Trees that are level are equal. -/
theorem Frames.Resolves.compare_tops {fs : Frames} {age : Nat} (hs : fs.Sound true)
    (hl : fs.Laddered age) {t u : Term} {a b : Tree} (ht : fs.Resolves t a) (hu : fs.Resolves u b) :
    compare (a.tops fs) (b.tops fs) = .eq ↔ a = b := by
  rw [LawfulEqOrd.compare_eq_iff_eq]
  constructor
  · intro htops
    exact (ht.eq_of_tops hs hl hu (congrArg (· ++ []) htops)).1
  · rintro rfl
    rfl

/-- Terms are compared as the tops of the trees that they stand for. -/
theorem Act.compareTerms_apply {q : Query} {env : Env} (hq : q.Sound true) {t u : Term} {a b : Tree}
    (ht : q.frames.Means t a) (hu : q.frames.Means u b) (hsteps : a.size < env.steps)
    (db : Database) : compareTerms t u env ⟨db, q⟩
      = .ok (compare (a.tops q.frames) (b.tops q.frames)) ⟨db, q⟩ := by
  have hsum : ([a].map Tree.size).sum < env.steps := by simpa using hsteps
  have hleft : List.Forall₂ q.frames.Means ([(t, u)].map Prod.fst) [a] := .cons ht .nil
  have hright : List.Forall₂ q.frames.Means ([(t, u)].map Prod.snd) [b] := .cons hu .nil
  have hcompared := compareWithin_eq hq (Nat.zero_lt_of_lt hsteps) db env.steps hleft hright hsum
  rw [List.flatMap_singleton, List.flatMap_singleton] at hcompared
  exact hcompared

-- ================================================== a total order

/-- The term is read through the frames of the query, and meets no wildcard
and no thunk. -/
structure Query.Compares (q : Query) (t : Term) : Prop where
  live : t.Live (q.frames.world true)
  clear : q.frames.Clear t

namespace Act

/-- In a sound arena with acyclic bindings the comparison of terms ends, and
what it finds is a total order of the trees that they stand for. The arena of
every query that a strict session reaches is sound. -/
theorem compareTerms_total :
    (∀ {s : Session} {q : Query} {phase : Phase}, s.Reached true → (q, phase) ∈ s.queries →
      q.Sound true)
    ∧ ∀ {q : Query}, q.Sound true → q.frames.Acyclic → ∃ order : Term → Term → Ordering,
      ∀ {a b c : Term}, q.Compares a → q.Compares b → q.Compares c →
        (∃ steps, ∀ env db, steps ≤ env.steps →
          compareTerms a b env ⟨db, q⟩ = .ok (order a b) ⟨db, q⟩)
        ∧ order b a = (order a b).swap
        ∧ ((order a b).isLE → (order b c).isLE → (order a c).isLE)
        ∧ (order a b = .eq ↔ ∃ τ, q.frames.Resolves a τ ∧ q.frames.Resolves b τ) := by
  refine ⟨fun hs hq => hs.sound hq, fun {q} hq hacyclic => ?_⟩
  have htree : ∀ t, ∃ τ, q.Compares t → q.frames.Means t τ := by
    intro t
    by_cases ht : q.Compares t
    · obtain ⟨τ, hτ⟩ := hq.arena.resolves hacyclic ht.live ht.clear
      exact ⟨τ, fun _ => ⟨ht.live, hτ⟩⟩
    · exact ⟨.const t, fun h => absurd h ht⟩
  choose tree htree using htree
  refine ⟨fun a b => compare ((tree a).tops q.frames) ((tree b).tops q.frames),
    fun {a b c} ha hb hc => ⟨?_, ?_, ?_, ?_⟩⟩
  · exact ⟨(tree a).size + 1, fun env db hsteps =>
      compareTerms_apply hq (htree a ha) (htree b hb) hsteps db⟩
  · exact Std.OrientedCmp.eq_swap
  · exact TransCmp.isLE_trans
  · have hta := (htree a ha).resolves
    have htb := (htree b hb).resolves
    rw [hta.compare_tops hq.arena hq.orderly.frames htb]
    constructor
    · exact fun heq => ⟨tree a, hta, heq ▸ htb⟩
    · rintro ⟨τ, hτa, hτb⟩
      rw [hta.unique hτa, htb.unique hτb]

/-- `f(X, Y)` as a template paired with the root frame, and as a compound of
references to its cells. -/
def asClosure : Term :=
  .closure 0 "f" [.var (.slot 0 "X"), .var (.slot 1 "Y")] Query.root

def asCompound : Term :=
  .compound (.template 1) "f" [.ref ⟨Query.root, 0⟩ "X", .ref ⟨Query.root, 1⟩ "Y"]

/-- In a query of two variables the two are level. -/
theorem compareTerms_total_closure : ∃ db entry steps,
    Session.Reached true ⟨db, [(Query.start entry, .running)]⟩
    ∧ ∀ env : Env, steps ≤ env.steps → compareTerms asClosure asCompound env ⟨db, Query.start entry⟩
      = .ok .eq ⟨db, Query.start entry⟩ := by
  obtain ⟨db, entry, hreached, hlocals⟩ := exists_reached_pair
  have hslot : ∀ i, i < 2 → ((Query.start entry).frames.world true).cell ⟨Query.root, i⟩ :=
    fun i hi => cell_root hlocals hi
  have hcell : ∀ i name, i < 2 → (Query.start entry).frames.Resolves
      (.ref ⟨Query.root, i⟩ name) (.cell ⟨Query.root, i⟩) := fun i name hi =>
    .unbound (slot?_root hlocals hi) rfl
  have hclosure : (Query.start entry).frames.Resolves asClosure
      (.node "f" [.cell ⟨Query.root, 0⟩, .cell ⟨Query.root, 1⟩]) := by
    refine (Frames.resolves_compound rfl).2 ⟨_, rfl, .cons ?_ (.cons ?_ .nil)⟩
    · exact hcell 0 "X" (by decide)
    · exact hcell 1 "Y" (by decide)
  have hcompound : (Query.start entry).frames.Resolves asCompound
      (.node "f" [.cell ⟨Query.root, 0⟩, .cell ⟨Query.root, 1⟩]) := by
    refine (Frames.resolves_compound rfl).2 ⟨_, rfl, .cons ?_ (.cons ?_ .nil)⟩
    · exact hcell 0 "X" (by decide)
    · exact hcell 1 "Y" (by decide)
  have hlive : asClosure.Live ((Query.start entry).frames.world true)
      ∧ asCompound.Live ((Query.start entry).frames.world true) := by
    constructor
    · refine Term.fits_closure.2 ⟨(sound_start entry).frame_root, ?_⟩
      simp only [List.forall_mem_cons, Term.fits_var, Var.name, Var.number]
      exact ⟨.inr ⟨by decide, hslot 0 (by decide)⟩, .inr ⟨by decide, hslot 1 (by decide)⟩,
        fun _ ha => absurd ha List.not_mem_nil⟩
    · refine Term.fits_compound.2 ⟨fun hplain => ?_, ?_⟩
      · cases hplain
      simp [Term.fits_ref, hslot]
  obtain ⟨order, horder⟩ := compareTerms_total.2 (compareTerms_total.1 hreached List.mem_cons_self)
    (acyclic_start entry)
  obtain ⟨⟨steps, hends⟩, -, -, heq⟩ := horder ⟨hlive.1, hclosure.clear⟩ ⟨hlive.2, hcompound.clear⟩
    ⟨hlive.1, hclosure.clear⟩
  refine ⟨db, entry, steps, hreached, fun env hsteps => ?_⟩
  rw [hends env db hsteps, heq.2 ⟨_, hclosure, hcompound⟩]

end Act

end LogicMachine
