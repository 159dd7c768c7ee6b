/-
Clauses are stored as they are written.

Giving slots to the variables of a clause is copying it: the slots are numbers
given out in the order in which the variables appear (`Term.index_exact`). The
clause that is compiled from a term is read off the term with slots: its parts are
those of `Head :- Body`, or the whole and `true`, and one renaming makes them out of
the parts of the term (`Clause.Stores`). The head stands first in the term, so its
variables get the first slots.
-/
import LogicMachine.Proofs.ExactCopying

namespace LogicMachine

-- ================================================== slots in order of appearance

/-- The variables that have slots are those of the list. -/
def Indexing.Numbers (vs : List Variable) (s : Indexing) : Prop :=
  s.vars.map Var.toVariable = vs.map some

theorem Var.isSameVariable_iff {v w : Var} {k : Variable} (hv : v.toVariable = some k) :
    v.isSameVariable w = true ↔ w.toVariable = some k := by
  cases v <;> cases hv <;> cases w <;> simp only [isSameVariable, toVariable] <;> grind

namespace Indexing

variable {vs : List Variable} {s : Indexing} {v : Var} {k : Variable}

/-- A variable gets the slot that it has, or the next. -/
theorem Numbers.slotFor (h : s.Numbers vs) (hv : v.toVariable = some k) :
    (s.slotFor v).1 = (note vs [k]).idxOf k ∧ (s.slotFor v).2.Numbers (note vs [k]) := by
  have hsame : ∀ i (hi : i < s.vars.length) (hi' : i < vs.length),
      v.isSameVariable s.vars[i] = true ↔ vs[i] = k := fun i hi hi' => by
    have hget : (s.vars[i]).toVariable = some vs[i] := by
      have := congrArg (·[i]?) h
      simpa [hi, hi'] using this
    rw [Var.isSameVariable_iff hv, hget, Option.some.injEq]
  have hlength : s.vars.length = vs.length := by
    simpa using congrArg List.length h
  unfold Indexing.slotFor
  rw [note_cons, note_empty]
  split
  · rename_i i hi
    obtain ⟨hlt, hfound, hbefore⟩ := List.findIdx?_eq_some_iff_getElem.1 hi
    have hlt' : i < vs.length := hlength ▸ hlt
    have hk : vs[i] = k := (hsame i hlt hlt').1 hfound
    have hmem : k ∈ vs := hk ▸ List.getElem_mem hlt'
    rw [if_pos hmem]
    have hidx : vs.idxOf k = i := by
      refine (List.findIdx_eq hlt').2
        ⟨beq_iff_eq.2 hk, fun j hj => beq_eq_false_iff_ne.2 fun he => ?_⟩
      exact absurd ((hsame j (hj.trans hlt) (hj.trans hlt')).2 he) (hbefore j hj)
    exact ⟨hidx.symm, h⟩
  · rename_i hnone
    have hmem : k ∉ vs := fun hmem => by
      obtain ⟨i, hi, hk⟩ := List.getElem_of_mem hmem
      have hi' : i < s.vars.length := hlength.symm ▸ hi
      have := List.findIdx?_eq_none_iff.1 hnone s.vars[i] (List.getElem_mem hi')
      rw [(hsame i hi' hi).2 hk] at this
      cases this
    rw [if_neg hmem]
    refine ⟨?_, ?_⟩
    · rw [List.idxOf_append_of_notMem hmem]
      simpa using hlength
    · show (s.vars ++ [v]).map Var.toVariable = (vs ++ [k]).map some
      rw [List.map_append, List.map_append, h, List.map_singleton, List.map_singleton, hv]

end Indexing

namespace Term

theorem copies_slot {vs : List Variable} {st : Indexing} (h : st.Numbers vs) {v : Var}
    {k : Variable} (hv : v.toVariable = some k) (name : String) :
    Copies 0 (note vs (Shape.var k).vars) (.var k) (.var (.slot (st.slotFor v).1 name))
      ∧ (st.slotFor v).2.Numbers (note vs (Shape.var k).vars) := by
  obtain ⟨hslot, hnumbers⟩ := h.slotFor hv
  rw [Shape.vars_var]
  refine ⟨⟨fun w hw => mem_note.2 (.inr (by simpa using hw)), fun fs => ?_⟩, hnumbers⟩
  rw [Shape.rename_var, numbering, Nat.zero_add, ← hslot]
  exact .bare rfl

mutual

/-- A term with slots for its variables is a copy of the term, the variables being
numbered in the order in which they appear. -/
theorem index_exact {fs : Frames} : (t : Term) → {s : Shape} → {vs : List Variable} →
    {st : Indexing} → t.Fits .none anyVars → fs.Shows t s → st.Numbers vs →
    Copies 0 (note vs s.vars) s (t.index st).1 ∧ (t.index st).2.Numbers (note vs s.vars)
  | .var .wildcard, s, vs, st, _, hs, hst => by
    rw [index]
    obtain ⟨hcopy, hvars⟩ := Copies.of_plain hs fits_wildcard
    rw [hvars]
    exact ⟨hcopy, hst⟩
  | .var (.named n), s, vs, st, _, hs, hst | .var (.slot _ n), s, vs, st, _, hs, hst => by
    rw [index.eq_def, (Frames.shows_bare rfl).1 hs]
    exact copies_slot hst rfl n
  | .compound .plain name args, s, vs, st, ht, hs, hst => by
    rw [index_of_isPlain rfl]
    obtain ⟨hcopy, hvars⟩ := Copies.of_plain hs (ht.of_isPlain rfl)
    rw [hvars]
    exact ⟨hcopy, hst⟩
  | .compound (.template _) name args, s, vs, st, ht, hs, hst => by
    rw [index]
    obtain ⟨ss, rfl, hss⟩ := (Frames.shows_compound rfl).1 hs
    rw [Shape.vars_node]
    obtain ⟨hcopies, hnumbers⟩ := indexAll_exact args (fits_compound.1 ht).2 hss hst
    exact ⟨.build hcopies _, hnumbers⟩
  | .ref _ _, _, _, _, ht, _, _ => (fits_ref.1 ht).elim
  | .closure _ _ _ _, _, _, _, ht, _, _ => (fits_closure.1 ht).1.elim
  | .atom _, s, vs, st, _, hs, hst | .number _, s, vs, st, _, hs, hst
  | .host _, s, vs, st, _, hs, hst | .thunk _, s, vs, st, _, hs, hst => by
    rw [index.eq_def]
    obtain ⟨hcopy, hvars⟩ := Copies.of_plain hs (by simp)
    rw [hvars]
    exact ⟨hcopy, hst⟩

theorem indexAll_exact {fs : Frames} : (ts : List Term) → {ss : List Shape} →
    {vs : List Variable} → {st : Indexing} → (∀ t ∈ ts, t.Fits .none anyVars) →
    List.Forall₂ fs.Shows ts ss → st.Numbers vs →
    List.Forall₂ (Copies 0 (note vs (ss.flatMap Shape.vars))) ss (indexAll ts st).1
      ∧ (indexAll ts st).2.Numbers (note vs (ss.flatMap Shape.vars))
  | [], _, _, _, _, .nil, hst => by
    rw [indexAll]
    exact ⟨.nil, hst⟩
  | t :: ts, s :: ss, vs, st, ht, .cons hs hss, hst => by
    rw [indexAll, List.flatMap_cons, note_append]
    rw [List.forall_mem_cons] at ht
    obtain ⟨hcopy, hnumbers⟩ := index_exact t ht.1 hs hst
    obtain ⟨hcopies, hnumbers⟩ := indexAll_exact ts ht.2 hss hnumbers
    exact ⟨.cons (hcopy.mono prefix_note) hcopies, hnumbers⟩

end

/-- A term with slots is a variant of the term, and its slots are those given out. -/
theorem index_variant {t : Term} {s : Shape} {ρ₀ : Variable → Variable} (ht : t.Fits .none anyVars)
    (hs : ∀ fs : Frames, fs.Shows t (s.rename ρ₀)) (hρ₀ : Set.InjOn ρ₀ {v | v ∈ s.vars})
    (serial : Nat) : ∃ ρ, Set.InjOn ρ {v | v ∈ s.vars}
      ∧ s.vars.eraseDups.map ρ
        = (List.range (t.index { serial := serial }).2.vars.length).map .slot
      ∧ (t.index { serial := serial }).1.Fits .none anyVars
      ∧ ∀ fs : Frames, fs.Shows (t.index { serial := serial }).1 (s.rename ρ) := by
  have hnone : Indexing.Numbers [] { serial := serial } := rfl
  obtain ⟨hcopy, hnumbers⟩ := t.index_exact ht (hs {}) hnone
  have hfits := (fits_index t { serial := serial } ht).2.mono (.refl _) fun _ _ => trivial
  rw [note_nil, Shape.vars_rename, eraseDups_map hρ₀] at hcopy hnumbers
  have hlength : (t.index { serial := serial }).2.vars.length
      = (s.vars.eraseDups.map ρ₀).length := by simpa using congrArg List.length hnumbers
  have hnodup : (s.vars.eraseDups.map ρ₀).Nodup := by
    rw [← eraseDups_map hρ₀, ← note_nil]
    exact nodup_note .nil
  refine ⟨numbering 0 (s.vars.eraseDups.map ρ₀) ∘ ρ₀, ?_, ?_, hfits, fun fs => ?_⟩
  · exact (numbering_injOn 0 _).comp hρ₀ fun v hv =>
      List.mem_map_of_mem (List.mem_eraseDups.2 hv)
  · rw [← List.map_map, map_numbering 0 hnodup, hlength, List.range_eq_range']
  · rw [← Shape.rename_rename]
    exact hcopy.shows fs

end Term

-- ================================================== the parts of a clause

/-- The head and the body of a clause that is written as a term. A fact has the
body `true`. -/
def Shape.parts : Shape → Shape × Shape
  | .node ":-" [head, body] => (head, body)
  | s => (s, .node "true" [])

theorem Shape.vars_parts (s : Shape) : s.parts.1.vars ++ s.parts.2.vars = s.vars := by
  unfold Shape.parts
  split <;> simp

theorem Shape.parts_of_ne {s : Shape} (h : ∀ head body, s ≠ .node ":-" [head, body]) :
    s.parts = (s, .node "true" []) := by
  unfold Shape.parts
  split
  · exact absurd rfl (h _ _)
  · rfl

theorem Shape.eq_node_of_rename {s left right : Shape} {ρ : Variable → Variable} {name : String}
    (h : s.rename ρ = .node name [left, right]) :
    ∃ l r, s = .node name [l, r] ∧ left = l.rename ρ ∧ right = r.rename ρ := by
  cases s with
  | var v => cases (Shape.rename_var v).symm.trans h
  | const value => cases (Shape.rename_const value).symm.trans h
  | node name' args =>
    rw [Shape.rename_node, Shape.node.injEq] at h
    obtain ⟨rfl, hargs⟩ := h
    obtain ⟨l, right, rfl, rfl, hright⟩ := List.map_eq_cons_iff.1 hargs
    obtain ⟨r, rest, rfl, rfl, hrest⟩ := List.map_eq_cons_iff.1 hright
    obtain rfl := List.map_eq_nil_iff.1 hrest
    exact ⟨l, r, rfl, rfl, rfl⟩

/-- The clause is a variant of a head and a body: it is these with their variables
renamed apart to slots, which are given out in the order in which the variables
appear, those of the head first. -/
structure Clause.Stores (c : Clause) (head body : Shape) (ρ : Variable → Variable) : Prop where
  injective : Set.InjOn ρ {v | v ∈ head.vars ++ body.vars}
  inOrder : (head.vars ++ body.vars).eraseDups.map ρ = (List.range c.locals).map .slot
  head : ∀ fs : Frames, fs.Shows c.head (head.rename ρ)
  body : ∀ fs : Frames, fs.Shows c.body (body.rename ρ)

/-- A term without frames is split as its shape is. -/
theorem Frames.Shows.split {fs : Frames} {t x y : Term} {s : Shape} {name : String}
    (h : fs.Shows t s) (ht : t.Fits .none anyVars) (hsplit : t.split name = some (x, y)) :
    ∃ left right, s = .node name [left, right] ∧ fs.Shows x left ∧ fs.Shows y right := by
  unfold Term.split at hsplit
  split at hsplit
  · split at hsplit
    · rename_i hname
      subst hname
      cases hsplit
      obtain ⟨ss, rfl, hss⟩ := (Frames.shows_compound rfl).1 h
      obtain _ | ⟨hx, _ | ⟨hy, _ | _⟩⟩ := hss
      exact ⟨_, _, rfl, hx, hy⟩
    · cases hsplit
  · exact (Term.fits_closure.1 ht).1.elim
  · cases hsplit

theorem Frames.Shows.split_isSome {fs : Frames} {t : Term} {left right : Shape} {name : String}
    (h : fs.Shows t (.node name [left, right])) (ht : t.Fits .none anyVars) :
    (t.split name).isSome := by
  cases t with
  | compound form _ args =>
    obtain ⟨ss, hss, hargs⟩ := (Frames.shows_compound rfl).1 h
    cases hss
    obtain _ | ⟨-, _ | ⟨-, _ | _⟩⟩ := hargs
    simp [Term.split]
  | closure serial _ _ home => exact (Term.fits_closure.1 ht).1.elim
  | ref c m => exact (Term.fits_ref.1 ht).elim
  | atom m => cases Frames.shows_atom.1 h
  | var v =>
    cases h with
    | node hc => cases hc
  | _ => cases (Frames.shows_constant rfl).1 h

theorem Store.bind_ok {α β : Type} {work : Store α} {next : α → Store β} {db db'' : Database}
    {b : β} (h : (work >>= next) db = .ok b db'') :
    ∃ a db', work db = .ok a db' ∧ next a db' = .ok b db'' := by
  have h : EStateM.bind work next db = .ok b db'' := h
  unfold EStateM.bind at h
  split at h
  · rename_i a db' hwork
    exact ⟨a, db', hwork, h⟩
  · cases h

namespace Clause

/-- A clause is put together of what it is given; its predicate is that of the
head. -/
theorem assemble_ok {head : Option Term} {body : Term} {names : List String} {db db' : Database}
    {c : Clause} (h : assemble head body names db = .ok c db') :
    c.head = head.getD goalHead ∧ c.body = body ∧ c.names = names
      ∧ ∀ p, c.predicate = some p → head.isSome ∧ Predicate.ofTerm c.head = .ok p := by
  have hrest : ∀ (predicate : Option Predicate) (db : Database), (do
      let code ← (Body.ofTerm none body).compile .succeed
      let head := head.getD goalHead
      return (⟨← Database.freshClause, predicate, head, body, head.args, code, names⟩ : Clause))
        db = .ok c db' →
      c.head = head.getD goalHead ∧ c.body = body ∧ c.names = names ∧ c.predicate = predicate := by
    intro predicate db h
    obtain ⟨code, db₁, -, h⟩ := Store.bind_ok h
    obtain ⟨serial, db₂, -, h⟩ := Store.bind_ok h
    cases h
    exact ⟨rfl, rfl, rfl, rfl⟩
  cases head with
  | none =>
    obtain ⟨hhead, hbody, hnames, hpredicate⟩ := hrest none db h
    exact ⟨hhead, hbody, hnames, fun p hp => by cases hpredicate.symm.trans hp⟩
  | some head =>
    unfold assemble at h
    cases hpredicate : Predicate.ofTerm head with
    | error e =>
      simp only [hpredicate] at h
      cases h
    | ok predicate =>
      simp only [hpredicate] at h
      obtain ⟨hhead, hbody, hnames, hsome⟩ := hrest _ db h
      refine ⟨hhead, hbody, hnames, fun p hp => ⟨rfl, ?_⟩⟩
      cases hsome.symm.trans hp
      exact hhead ▸ hpredicate

theorem compile_apply (t : Term) (db : Database) :
    compile t db = (match (t.index { serial := db.nextTerm }).1.split ":-" with
      | some (head, body) => assemble (some head) body
          ((t.index { serial := db.nextTerm }).2.vars.map Var.name)
      | none =>
        if (t.index { serial := db.nextTerm }).1.hasFunctor ":-" 1
            || (t.index { serial := db.nextTerm }).1.hasFunctor "?-" 1 then
          assemble none (((t.index { serial := db.nextTerm }).1.arg? 0).getD (.atom "true"))
            ((t.index { serial := db.nextTerm }).2.vars.map Var.name)
        else assemble (some (t.index { serial := db.nextTerm }).1) (.atom "true")
          ((t.index { serial := db.nextTerm }).2.vars.map Var.name))
      { db with nextTerm := (t.index { serial := db.nextTerm }).2.serial } := rfl

/-- A clause that has a predicate stores the parts of the term that it is compiled
from, however the variables are named there. -/
theorem compile_stores {t : Term} {s : Shape} {ρ₀ : Variable → Variable} (ht : t.Fits .none anyVars)
    (hs : ∀ fs : Frames, fs.Shows t (s.rename ρ₀)) (hρ₀ : Set.InjOn ρ₀ {v | v ∈ s.vars})
    {db db' : Database} {c : Clause} (h : compile t db = .ok c db') {p : Predicate}
    (hp : c.predicate = some p) :
    Predicate.ofTerm c.head = .ok p ∧ ∃ ρ, c.Stores s.parts.1 s.parts.2 ρ := by
  obtain ⟨ρ, hinjective, hinOrder, hfits, hshows⟩ := t.index_variant ht hs hρ₀ db.nextTerm
  rw [compile_apply] at h
  generalize t.index { serial := db.nextTerm } = r at *
  obtain ⟨u, st⟩ := r
  have hvars := s.vars_parts
  have hlocals : ∀ {c : Clause}, c.names = st.vars.map Var.name → c.locals = st.vars.length :=
    fun hnames => by rw [locals, hnames, List.length_map]
  cases hsplit : u.split ":-" with
  | some parts =>
    obtain ⟨head, body⟩ := parts
    simp only [hsplit] at h
    obtain ⟨hhead, hbody, hnames, hpredicate⟩ := assemble_ok h
    obtain ⟨left, right, hnode, -, -⟩ := (hshows {}).split hfits hsplit
    obtain ⟨l, r, rfl, rfl, rfl⟩ := Shape.eq_node_of_rename hnode
    refine ⟨(hpredicate p hp).2, ρ, hvars ▸ hinjective, ?_, fun fs => ?_, fun fs => ?_⟩
    · rw [hvars, hinOrder, hlocals hnames]
    · obtain ⟨_, _, he, hleft, -⟩ := (hshows fs).split hfits hsplit
      cases hnode.symm.trans he
      exact hhead ▸ hleft
    · obtain ⟨_, _, he, -, hright⟩ := (hshows fs).split hfits hsplit
      cases hnode.symm.trans he
      exact hbody ▸ hright
  | none =>
    simp only [hsplit] at h
    split at h
    · have hcallable := ((assemble_ok h).2.2.2 p hp).1
      cases hcallable
    · obtain ⟨hhead, hbody, hnames, hpredicate⟩ := assemble_ok h
      have hparts : s.parts = (s, .node "true" []) := Shape.parts_of_ne fun l r he => by
        have hnode := hshows {}
        rw [he, Shape.rename_node] at hnode
        have hsome := hnode.split_isSome hfits
        rw [hsplit] at hsome
        cases hsome
      refine ⟨(hpredicate p hp).2, ρ, hvars ▸ hinjective, ?_, fun fs => ?_, fun fs => ?_⟩
      · rw [hvars, hinOrder, hlocals hnames]
      · rw [hparts, hhead]
        exact hshows fs
      · rw [hparts, hbody, Shape.rename_node]
        exact .atom "true"

end Clause

end LogicMachine
