/-
Terms taken apart and built again.

`=../2`, or `functor/3` with `arg/3`, takes a term apart; with the parts it found
and another variable in the place of the term it builds a term that is the same
(`Direct.runAll_univ`, `Direct.runAll_functor`). The variables that the parts go
to are new to the term. What is bound in the first way is only these variables,
so the term is not touched at all. In the second way an argument that is a
variable is unified with a variable, and which of the two is bound depends on
their ages, so the term may come out with other variables. To tell what a run of
such calls does, the whole of it is solved by one valuation, fixed in advance:
it gives every new variable the argument that it is meant for and leaves the
variables of the term alone. Each call unifies two terms that it makes equal, so
no call fails, and in the end it still makes the variables of the term what they
were: they can only have been renamed.
-/
import LogicMachine.Proofs.Parts

namespace LogicMachine

-- ================================================== goals run one after the other

namespace Direct

open Act

/-- Calls of built-ins, one after the other as long as they succeed. -/
def runAll : List (Direct × List Term) → Act Bool
  | [] => return true
  | (goal, args) :: goals => do if ← goal.run args then runAll goals else return false

/-- The calls of `arg/3` by which, from one place on, the arguments of a term are
unified with variables, and these with the arguments of another term. -/
def arguments (t u : Term) : Nat → List Term → List (Direct × List Term)
  | _, [] => []
  | i, x :: xs => (.argument, [.ofNat (i + 1), t, x]) :: (.argument, [.ofNat (i + 1), u, x])
      :: arguments t u (i + 1) xs

section

variable {env : Env} {m m' m'' : Machine} {goal : Direct} {args : List Term}
  {goals goals' : List (Direct × List Term)}

theorem runAll_cons (h : goal.run args env m = .ok true m') :
    runAll ((goal, args) :: goals) env m = runAll goals env m' := by
  rw [runAll, bind_apply, h]
  rfl

theorem runAll_append (h : runAll goals env m = .ok true m') :
    runAll (goals ++ goals') env m = runAll goals' env m' := by
  induction goals generalizing m with
  | nil =>
    cases h
    rfl
  | cons g goals ih =>
    obtain ⟨goal, args⟩ := g
    rw [runAll] at h
    obtain ⟨ok, m₁, hrun, hrest⟩ := bind_ok h
    cases ok with
    | false => cases hrest
    | true =>
      rw [List.cons_append, runAll_cons hrun]
      exact ih hrest

end

section

variable {env : Env} {m : Machine} {t u x : Term} {a : Tree} {name name' : String}
  {ts us : List Tree} {σ : Valuation}

/-- One argument of each of two terms is unified with the same variable: that makes
the two arguments equal. -/
theorem run_argument_pair (hm : m.Sound) (henv : env.Sound false)
    (ht : m.Means t (.node name ts)) (hu : m.Means u (.node name' us))
    (hx : m.Means x a) (hfits : ts.length < 2 ^ 63) (hlen : us.length = ts.length)
    {i : Nat} (hi : i < ts.length) (hi' : i < us.length) (hσ : a.subst σ = ts[i].subst σ)
    (hσ' : a.subst σ = us[i].subst σ) (hsteps : (a.subst σ).size < env.steps)
    (goals : List (Direct × List Term)) :
    ∃ m' μ, runAll ((.argument, [.ofNat (i + 1), t, x]) :: (.argument, [.ofNat (i + 1), u, x])
        :: goals) env m = runAll goals env m'
      ∧ m.Instance μ m' ∧ m.Absorbs σ μ ∧ ts[i].subst μ = us[i].subst μ := by
  have hpos : 0 < env.steps := Nat.zero_lt_of_lt hsteps
  have hfits' : us.length < 2 ^ 63 := hlen ▸ hfits
  obtain ⟨v, hgoal, hv⟩ := Terms.argument_eq (x := x) hm ht hfits hi hpos
  obtain ⟨_, -, hw⟩ := Terms.argument_eq (x := x) hm hu hfits' hi' hpos
  obtain ⟨m₁, μ, hunify, h₁, hsame, habsorbs⟩ := unify_instance hm henv hx hv hσ hsteps
  have habs : m.Absorbs σ μ := habsorbs σ hσ
  have hu₁ := h₁.means hu
  rw [Tree.subst_node] at hu₁
  obtain ⟨w, hgoal', hw₁⟩ := Terms.argument_eq (x := x) (i := i) h₁.sound hu₁
    (by simpa using hfits') (by simpa using hi') hpos
  rw [List.getElem_map] at hw₁
  have hσ₁ : (a.subst μ).subst σ = (us[i].subst μ).subst σ := by
    rw [habs hx, habs hw, hσ']
  obtain ⟨m', ν, hunify', h₂, hsame', habsorbs'⟩ :=
    unify_instance h₁.sound henv (h₁.means hx) hw₁ hσ₁ (by rwa [habs hx])
  refine ⟨m', _, ?_, h₁.trans h₂, habs.trans h₁ (habsorbs' σ hσ₁), ?_⟩
  · have hfirst : Direct.argument.run [.ofNat (i + 1), t, x] env m = .ok true m₁ :=
      hgoal.trans hunify
    have hsecond : Direct.argument.run [.ofNat (i + 1), u, x] env m₁ = .ok true m' :=
      hgoal'.trans hunify'
    rw [runAll_cons hfirst, runAll_cons hsecond]
  · rw [← Tree.subst_subst, ← Tree.subst_subst, ← hsame, hsame']

/-- The arguments of two terms, from one place on, are unified with variables: that
makes them equal, in pairs. The induction is on the variables, and the terms are taken
along as the calls before have left them; the valuation that solves all the calls is
the same throughout. -/
theorem run_arguments {xs : List Term} {τs : List Tree} {i : Nat} (hm : m.Sound)
    (henv : env.Sound false) (ht : m.Means t (.node name ts))
    (hu : m.Means u (.node name' us)) (hts : ts.map (Tree.subst σ) = τs)
    (hus : us.map (Tree.subst σ) = τs)
    (hxs : List.Forall₂ (fun x τ => ∃ a, m.Means x a ∧ a.subst σ = τ) xs (τs.drop i))
    (hfits : τs.length < 2 ^ 63) (hsteps : ∀ τ ∈ τs, τ.size < env.steps) :
    ∃ m' μ, runAll (arguments t u i xs) env m = .ok true m' ∧ m.Instance μ m' ∧ m.Absorbs σ μ
      ∧ (ts.drop i).map (Tree.subst μ) = (us.drop i).map (Tree.subst μ) := by
  have hlen : ts.length = τs.length := by rw [← hts, List.length_map]
  have hlen' : us.length = τs.length := by rw [← hus, List.length_map]
  induction xs generalizing m ts us i with
  | nil =>
    have hdrop := hxs.length_eq
    rw [List.length_nil, List.length_drop] at hdrop
    refine ⟨m, .cell, rfl, .of_query hm rfl, fun {_ τ} _ => by rw [Tree.subst_self], ?_⟩
    rw [List.drop_eq_nil_of_le (by omega), List.drop_eq_nil_of_le (by omega)]
  | cons x xs ih =>
    have hi : i < τs.length := by
      have hdrop := hxs.length_eq
      rw [List.length_cons, List.length_drop] at hdrop
      omega
    rw [List.drop_eq_getElem_cons hi] at hxs
    obtain ⟨⟨a, hx, ha⟩, hrest⟩ := List.forall₂_cons.1 hxs
    have hi₁ : i < ts.length := by omega
    have hi₂ : i < us.length := by omega
    have hti : ts[i].subst σ = τs[i] := by simp [← hts]
    have hui : us[i].subst σ = τs[i] := by simp [← hus]
    obtain ⟨m₁, μ, hrun, h₁, habs, hsame⟩ := run_argument_pair hm henv ht hu hx (by omega)
      (by omega) hi₁ hi₂ (ha.trans hti.symm) (ha.trans hui.symm)
      (ha ▸ hsteps _ (List.getElem_mem hi)) (arguments t u (i + 1) xs)
    have hmoved : ∀ {t name ts}, m.Means t (.node name ts) →
        m₁.Means t (.node name (ts.map (Tree.subst μ)))
          ∧ (ts.map (Tree.subst μ)).map (Tree.subst σ) = ts.map (Tree.subst σ) := by
      intro t name ts ht
      have hmeans := h₁.means ht
      have hsubst := habs ht
      simp only [Tree.subst_node, Tree.node.injEq, true_and] at hmeans hsubst
      exact ⟨hmeans, hsubst⟩
    have hxs₁ : List.Forall₂ (fun x τ => ∃ a, m₁.Means x a ∧ a.subst σ = τ) xs
        (τs.drop (i + 1)) :=
      hrest.imp fun x τ ⟨a, hx, ha⟩ => ⟨a.subst μ, h₁.means hx, (habs hx).trans ha⟩
    obtain ⟨m', ν, hrun', h₂, habs', hrest'⟩ := ih h₁.sound (hmoved ht).1 (hmoved hu).1
      ((hmoved ht).2.trans hts) ((hmoved hu).2.trans hus) hxs₁ (by simpa) (by simpa)
    rw [← List.map_drop, ← List.map_drop] at hrest'
    refine ⟨m', _, hrun.trans hrun', h₁.trans h₂, habs.trans h₁ habs', ?_⟩
    have hboth : ∀ l : List Tree, l.map (Tree.subst fun c => (μ c).subst ν)
        = (l.map (Tree.subst μ)).map (Tree.subst ν) := by
      intro l
      rw [List.map_map]
      exact List.map_congr_left fun τ _ => τ.subst_subst.symm
    rw [List.drop_eq_getElem_cons hi₁, List.drop_eq_getElem_cons hi₂, hboth, hboth,
      List.map_cons, List.map_cons, hsame, List.map_cons, List.map_cons, hrest']

end

-- ================================================== round trips

/-- Different cells are given trees, the others stay. -/
theorem exists_valuation {cells : List Cell} {τs : List Tree} (hnodup : cells.Nodup)
    (hlen : cells.length = τs.length) :
    ∃ σ : Valuation, cells.map σ = τs ∧ ∀ c, c ∉ cells → σ c = .cell c := by
  induction cells generalizing τs with
  | nil =>
    obtain rfl : τs = [] := List.length_eq_zero_iff.1 hlen.symm
    exact ⟨.cell, rfl, fun _ _ => rfl⟩
  | cons c cells ih =>
    obtain ⟨τ, τs, rfl⟩ := List.exists_cons_of_length_eq_add_one hlen.symm
    obtain ⟨hc, hnodup⟩ := List.nodup_cons.1 hnodup
    obtain ⟨σ, hσ, hother⟩ := ih hnodup (Nat.succ.inj hlen)
    refine ⟨Function.update σ c τ, ?_, fun d hd => ?_⟩
    · rw [List.map_cons, Function.update_self, ← hσ]
      refine congrArg _ (List.map_congr_left fun d hd => Function.update_of_ne ?_ _ _)
      rintro rfl
      exact hc hd
    · rw [List.mem_cons, not_or] at hd
      rw [Function.update_of_ne hd.1]
      exact hother d hd.2

/-- If putting one valuation in can be undone by another, which changes new cells
alone, it renames the cells of the tree, each to itself or to a new one. -/
theorem exists_renaming {τ : Tree} {μ σ : Valuation} {new : List Cell}
    (hback : ∀ c ∈ τ.cells, (μ c).subst σ = .cell c) (hσ : ∀ c, c ∉ new → σ c = .cell c) :
    ∃ ρ : Cell → Cell, (τ.subst μ = τ.subst fun c => .cell (ρ c)) ∧ Set.InjOn ρ {c | c ∈ τ.cells}
      ∧ ∀ c ∈ τ.cells, ρ c = c ∨ ρ c ∈ new := by
  have hcell : ∀ c, ∃ e, c ∈ τ.cells → μ c = .cell e ∧ σ e = .cell c := by
    intro c
    by_cases hc : c ∈ τ.cells
    · have hc' := hback c hc
      cases hμ : μ c with
      | cell e =>
        rw [hμ, Tree.subst_cell] at hc'
        exact ⟨e, fun _ => ⟨rfl, hc'⟩⟩
      | const value => simp [hμ] at hc'
      | node name ts => simp [hμ] at hc'
    · exact ⟨c, fun h => absurd h hc⟩
  choose ρ hρ using hcell
  refine ⟨ρ, Tree.subst_congr fun c hc => (hρ c hc).1, fun c hc d hd he => ?_, fun c hc => ?_⟩
  · have hsame := (hρ c hc).2
    rw [he, (hρ d hd).2] at hsame
    simpa using hsame.symm
  · by_cases hnew : ρ c ∈ new
    · exact .inr hnew
    · have hsame := (hρ c hc).2
      rw [hσ _ hnew] at hsame
      exact .inl (by simpa using hsame)

section

variable {env : Env} {m : Machine} {t u l n a : Term} {xs : List Term} {τ : Tree}
  {cells : List Cell}

/-- A term whose arguments are new variables gets those of another. -/
theorem run_all_arguments {name : String} {ts : List Tree} {fresh : List Cell} (hm : m.Sound)
    (henv : env.Sound false) (ht : m.Means t (.node name ts))
    (hu : m.Means u (.node name (fresh.map .cell)))
    (hvars : List.Forall₂ m.Means xs (cells.map .cell))
    (hnodup : (cells ++ fresh).Nodup) (hxs : xs.length = ts.length)
    (hlen : fresh.length = ts.length) (hnew : (cells ++ fresh).Disjoint (Tree.node name ts).cells)
    (hfits : ts.length < 2 ^ 63) (hsteps : (Tree.node name ts).size < env.steps) :
    ∃ (m' : Machine) (ρ : Cell → Cell), runAll (arguments t u 0 xs) env m = .ok true m'
      ∧ m'.Sound ∧ m'.Means t ((Tree.node name ts).subst fun c => .cell (ρ c))
      ∧ m'.Means u ((Tree.node name ts).subst fun c => .cell (ρ c))
      ∧ Set.InjOn ρ {c | c ∈ (Tree.node name ts).cells}
      ∧ ∀ c ∈ (Tree.node name ts).cells, ρ c = c ∨ ρ c ∈ cells ++ fresh := by
  have hcells : cells.length = ts.length := by
    have hlength := hvars.length_eq
    rw [List.length_map] at hlength
    omega
  have htwice : (cells ++ fresh).length = (ts ++ ts).length := by
    rw [List.length_append, List.length_append, hcells, hlen]
  obtain ⟨σ, hσ, hother⟩ := exists_valuation hnodup htwice
  rw [List.map_append] at hσ
  obtain ⟨hσcells, hσfresh⟩ := List.append_inj hσ (by simpa using hcells)
  have hself : ∀ c ∈ (Tree.node name ts).cells, σ c = .cell c := fun c hc =>
    hother c fun hmem => hnew hmem hc
  have hts : ts.map (Tree.subst σ) = ts := by
    have hstays := (Tree.subst_congr hself).trans (Tree.subst_self _)
    rw [Tree.subst_node, Tree.node.injEq] at hstays
    exact hstays.2
  have hus : (fresh.map Tree.cell).map (Tree.subst σ) = ts := by
    rw [List.map_map, ← hσfresh]
    exact List.map_congr_left fun c _ => Tree.subst_cell c
  have hgiven : List.Forall₂ (fun x τ => ∃ a, m.Means x a ∧ a.subst σ = τ) xs
      (ts.drop 0) := by
    rw [List.drop_zero, ← hσcells]
    rw [List.forall₂_map_right_iff] at hvars ⊢
    exact hvars.imp fun x c hx => ⟨_, hx, Tree.subst_cell c⟩
  obtain ⟨m', μ, hrun, hi, habs, hsame⟩ := run_arguments hm henv ht hu hts hus hgiven hfits
    fun τ hτ => (Tree.size_lt_node hτ).trans hsteps
  have hback : ∀ c ∈ (Tree.node name ts).cells, (μ c).subst σ = .cell c := by
    intro c hc
    have habsorbed := habs (ht.cell hm.query.arena hc)
    rwa [Tree.subst_cell, Tree.subst_cell, hself c hc] at habsorbed
  obtain ⟨ρ, hρ, hinj, hmoves⟩ := exists_renaming hback hother
  refine ⟨m', ρ, hrun, hi.sound, hρ ▸ hi.means ht, ?_, hinj, hmoves⟩
  have hmeans := hi.means hu
  rw [List.drop_zero, List.drop_zero] at hsame
  rwa [Tree.subst_node, ← hsame, ← Tree.subst_node, hρ] at hmeans

/-- Two terms that stand for one tree are the same to `==/2`. -/
theorem run_same (hm : m.Sound) (ht : m.Means t τ) (hu : m.Means u τ)
    (hsteps : τ.size < env.steps) : runAll [(.termOrder .eq, [u, t])] env m = .ok true m := by
  have hcompared : compareTerms u t env m = .ok .eq m := by
    have hrun := compareTerms_apply hm.query hu ht hsteps m.db
    rwa [Std.LawfulEqOrd.compare_eq_iff_eq.2 rfl] at hrun
  have hfirst : (Direct.termOrder .eq).run [u, t] env m = .ok true m := by
    simp only [Direct.run, bind_apply, hcompared]
    rfl
  rw [runAll_cons hfirst]
  rfl

/-- A term that is no variable is taken apart by `=../2`, and another is built: they
are the same, and the first is what it was. -/
theorem runAll_univ (hm : m.Sound) (henv : env.Sound false) (ht : m.Means t τ)
    (hτ : τ.Solid) (hvars : m.query.frames.Variables [l, u] cells) (hnew : cells.Disjoint τ.cells)
    (hsteps : 2 * τ.size + 1 < env.steps) :
    ∃ m', runAll [(.univ, [t, l]), (.univ, [u, l]), (.termOrder .eq, [u, t])] env m = .ok true m'
      ∧ m'.Means t τ ∧ m'.Means u τ := by
  obtain ⟨c, d, rfl⟩ := List.length_eq_two.1 hvars.length_eq.symm
  obtain ⟨hl, hrest⟩ := List.forall₂_cons.1 hvars.means
  have hu := (List.forall₂_cons.1 hrest).1
  have hcd : c ≠ d := by simpa using (List.nodup_cons.1 hvars.nodup).1
  have hc : c ∉ τ.cells := fun h => hnew (by simp) h
  have hd : d ∉ τ.cells := fun h => hnew (by simp) h
  obtain ⟨m₁, hrun₁, h₁, hl₁⟩ := Terms.univ_apart hm henv ht hτ hl hc hsteps
  have ht₁ := h₁.means ht (by simpa using hc)
  have hu₁ := h₁.means hu (by simpa using hcd.symm)
  obtain ⟨m₂, hrun₂, h₂, hu₂⟩ := Terms.univ_built h₁.sound henv hu₁ hl₁ hτ hd hsteps
  have ht₂ := h₂.means ht₁ (by simpa using hd)
  have hfirst : Direct.univ.run [t, l] env m = .ok true m₁ := hrun₁
  have hsecond : Direct.univ.run [u, l] env m₁ = .ok true m₂ := hrun₂
  refine ⟨m₂, ?_, ht₂, hu₂⟩
  rw [runAll_cons hfirst, runAll_cons hsecond]
  exact run_same h₂.sound ht₂ hu₂ (by omega)

/-- The same by `functor/3` and `arg/3`. A variable of the first term may have been
unified with a new one, but no two with the same. -/
theorem runAll_functor (hm : m.Sound) (henv : env.Sound false) (ht : m.Means t τ)
    (hτ : τ.Solid) (hfits : τ.children.length < 2 ^ 63) (hxs : xs.length = τ.children.length)
    (hvars : m.query.frames.Variables (n :: a :: u :: xs) cells) (hnew : cells.Disjoint τ.cells)
    (hsteps : τ.size < env.steps) : ∃ (m' : Machine) (ρ : Cell → Cell),
      runAll ((.functor, [t, n, a]) :: (.functor, [u, n, a]) :: arguments t u 0 xs
        ++ [(.termOrder .eq, [u, t])]) env m = .ok true m'
      ∧ m'.Means t (τ.subst fun c => .cell (ρ c))
      ∧ m'.Means u (τ.subst fun c => .cell (ρ c))
      ∧ Set.InjOn ρ {c | c ∈ τ.cells}
      ∧ ∀ c ∈ τ.cells, ρ c = c ∨ ρ c ∈ cells ∨ m.query.frames.slot? (ρ c) = none := by
  have hlength := hvars.length_eq
  obtain ⟨cn, ca, cu, new, rfl⟩ : ∃ cn ca cu new, cells = cn :: ca :: cu :: new := by
    match cells, hlength with
    | cn :: ca :: cu :: new, _ => exact ⟨cn, ca, cu, new, rfl⟩
  obtain ⟨hn, hrest⟩ := List.forall₂_cons.1 hvars.means
  obtain ⟨ha, hrest⟩ := List.forall₂_cons.1 hrest
  obtain ⟨hu, hxs'⟩ := List.forall₂_cons.1 hrest
  have hnodup := hvars.nodup
  simp only [List.nodup_cons, List.mem_cons, not_or] at hnodup
  obtain ⟨⟨hna, hnu, hnx⟩, ⟨hau, hax⟩, hux, hnodup⟩ := hnodup
  simp only [List.disjoint_cons_left] at hnew
  obtain ⟨hnτ, haτ, huτ, hxτ⟩ := hnew
  -- first the name and the number of the arguments
  obtain ⟨m₁, hrun₁, h₁, hn₁, ha₁⟩ := Terms.functor_apart hm henv ht hτ hn ha hna hsteps
  have ht₁ := h₁.means ht (by simp [hnτ, haτ])
  have hu₁ := h₁.means hu (by simp [Ne.symm hnu, Ne.symm hau])
  have hx₁ := h₁.variables hxs' (by simp [hnx, hax])
  obtain ⟨m₂, fresh, hrun₂, h₂, hu₂, hfresh, hlen, hnone⟩ :=
    Terms.functor_built h₁.sound henv hu₁ hn₁ ha₁ hτ hfits hsteps
  have ht₂ := h₂.means ht₁ (by simp [huτ])
  have hx₂ := h₂.variables hx₁ (by simp [hux])
  have hapart : (new ++ fresh).Nodup := by
    refine List.nodup_append.2 ⟨hnodup, hfresh, fun c hc d hd he => ?_⟩
    obtain ⟨x, -, hx⟩ := exists_left_of_forall₂ hx₁ _ (List.mem_map_of_mem hc)
    exact hx.not_mem_of_none (hnone d hd) (by simp [he])
  have hclear : (new ++ fresh).Disjoint τ.cells := by
    rw [List.disjoint_append_left]
    exact ⟨hxτ, fun c hc => ht₁.not_mem_of_none (hnone c hc)⟩
  -- then the arguments, if there are any
  obtain ⟨m₃, ρ, hrun₃, h₃, ht₃, hu₃, hinj, hmoves⟩ : ∃ (m₃ : Machine) (ρ : Cell → Cell),
      runAll (arguments t u 0 xs) env m₂ = .ok true m₃ ∧ m₃.Sound
        ∧ m₃.Means t (τ.subst fun c => .cell (ρ c))
        ∧ m₃.Means u (τ.subst fun c => .cell (ρ c))
        ∧ Set.InjOn ρ {c | c ∈ τ.cells} ∧ ∀ c ∈ τ.cells, ρ c = c ∨ ρ c ∈ new ++ fresh := by
    cases τ with
    | cell c => exact hτ.elim
    | const value =>
      obtain rfl : xs = [] := List.length_eq_zero_iff.1 hxs
      have hu₂ : m₂.Means u (.const value) := hu₂
      refine ⟨m₂, id, rfl, h₂.sound, ?_, ?_, fun _ _ _ _ he => he, fun _ _ => .inl rfl⟩
      · rwa [Tree.subst_const]
      · rwa [Tree.subst_const]
    | node name ts =>
      exact run_all_arguments h₂.sound henv ht₂ hu₂ hx₂ hapart hxs hlen hclear hfits hsteps
  have hfirst : Direct.functor.run [t, n, a] env m = .ok true m₁ := hrun₁
  have hsecond : Direct.functor.run [u, n, a] env m₁ = .ok true m₂ := hrun₂
  refine ⟨m₃, ρ, ?_, ht₃, hu₃, hinj, fun c hc => ?_⟩
  · rw [List.cons_append, runAll_cons hfirst, List.cons_append, runAll_cons hsecond,
      runAll_append hrun₃]
    exact run_same h₃ ht₃ hu₃ (by rwa [Tree.size_rename])
  · rcases hmoves c hc with hsame | hmoved
    · exact .inl hsame
    · rcases List.mem_append.1 hmoved with hmem | hmem
      · exact .inr (.inl (by simp [hmem]))
      · refine .inr (.inr (Option.not_isSome_iff_eq_none.1 fun hslot => ?_))
        have hthere := h₁.slots hslot
        simp [hnone _ hmem] at hthere

end

end Direct

/-- In every state of a strict session a term that is no variable can be taken apart
and built again in both ways, with variables made for it. The first leaves it alone;
in the second a variable of it stays or becomes a new one, and no two become the
same. -/
theorem Session.Reached.round_trips {s : Session} {q : Query} {phase : Phase} {env : Env} {t : Term}
    {τ : Tree} (h : s.Reached true) (hq : (q, phase) ∈ s.queries) (henv : env.Sound false)
    (ht : q.frames.Means t τ) (hτ : τ.Solid) (hfits : τ.children.length < 2 ^ 63)
    (hsteps : 2 * τ.size + 1 < env.steps) :
    (∃ l u m₁ m₂, Act.freshVars 2 env ⟨s.db, q⟩ = .ok [l, u] m₁
      ∧ Direct.runAll [(.univ, [t, l]), (.univ, [u, l]), (.termOrder .eq, [u, t])] env m₁
        = .ok true m₂
      ∧ m₂.Means t τ ∧ m₂.Means u τ)
    ∧ ∃ n a u xs m₁ m₂, ∃ ρ : Cell → Cell,
      Act.freshVars (τ.children.length + 3) env ⟨s.db, q⟩ = .ok (n :: a :: u :: xs) m₁
      ∧ xs.length = τ.children.length
      ∧ Direct.runAll ((.functor, [t, n, a]) :: (.functor, [u, n, a]) :: Direct.arguments t u 0 xs
        ++ [(.termOrder .eq, [u, t])]) env m₁ = .ok true m₂
      ∧ m₂.Means t (τ.subst fun c => .cell (ρ c)) ∧ m₂.Means u (τ.subst fun c => .cell (ρ c))
      ∧ Set.InjOn ρ {c | c ∈ τ.cells}
      ∧ ∀ c ∈ τ.cells, ρ c = c ∨ q.frames.slot? (ρ c) = none := by
  have hm : Machine.Sound ⟨s.db, q⟩ := ⟨h.holds.db, h.sound hq⟩
  constructor
  · obtain ⟨m₁, vars, cells, hmade, hi, hvars, hlen, hnone⟩ := Act.freshVars_instance hm henv 2
    obtain ⟨l, u, rfl⟩ := List.length_eq_two.1 (hvars.length_eq.trans hlen)
    have hnew : cells.Disjoint τ.cells := fun c hc => ht.not_mem_of_none (hnone c hc)
    obtain ⟨m₂, hrun, ht₂, hu₂⟩ :=
      Direct.runAll_univ hi.sound henv (hi.stays ht) hτ hvars hnew hsteps
    exact ⟨l, u, m₁, m₂, hmade, hrun, ht₂, hu₂⟩
  · obtain ⟨m₁, vars, cells, hmade, hi, hvars, hlen, hnone⟩ :=
      Act.freshVars_instance hm henv (τ.children.length + 3)
    have hcount := hvars.length_eq.trans hlen
    obtain ⟨n, a, u, xs, rfl⟩ : ∃ n a u xs, vars = n :: a :: u :: xs := by
      match vars, hcount with
      | n :: a :: u :: xs, _ => exact ⟨n, a, u, xs, rfl⟩
    have hxs : xs.length = τ.children.length := by simpa using hcount
    have hnew : cells.Disjoint τ.cells := fun c hc => ht.not_mem_of_none (hnone c hc)
    obtain ⟨m₂, ρ, hrun, ht₂, hu₂, hinj, hmoves⟩ :=
      Direct.runAll_functor hi.sound henv (hi.stays ht) hτ hfits hxs hvars hnew (by omega)
    refine ⟨n, a, u, xs, m₁, m₂, ρ, hmade, hxs, hrun, ht₂, hu₂, hinj, fun c hc => ?_⟩
    rcases hmoves c hc with hsame | hmem | hunused
    · exact .inl hsame
    · exact .inr (hnone _ hmem)
    · refine .inr (Option.not_isSome_iff_eq_none.1 fun hslot => ?_)
      have hthere := hi.slots hslot
      simp [hunused] at hthere

end LogicMachine
