/-
The shapes of terms.

With every binding followed, a term has a shape: a finite tree whose leaves are
constants and variables (`Frames.Shows`). Its variables are the cells that are
unbound, and the variables of a template that it is read without. Whatever comes
to an end has a shape, and only one (`Frames.Ends.shows`, `Frames.Shows.unique`).

Reading a term goes from cell to cell, through no more cells than are allowed.
Where the ways down end, the values that are still below bound what is needed
(`Frames.below`): following a binding makes them less, since a value is not below
itself. The variables that reading lists are those of the shape, each where it
stands first (`Frames.listed_freeVars`).
-/
import LogicMachine.Proofs.Copying
import LogicMachine.Proofs.Trees

namespace LogicMachine

-- ================================================== shapes

/-- A variable that a term may show: an unbound cell, or a variable of a template
that is read in no frame, known by its slot or else by its name. -/
inductive Variable where
  | cell (c : Cell)
  | slot (index : Nat)
  | named (name : String)
deriving DecidableEq

/-- A finite tree over constants and variables. -/
inductive Shape where
  | var (v : Variable)
  | const (value : Term)
  | node (name : String) (args : List Shape)

namespace Shape

mutual

/-- The shape with other variables. -/
def rename (ρ : Variable → Variable) : Shape → Shape
  | .var v => .var (ρ v)
  | .const value => .const value
  | .node name args => .node name (renameAll ρ args)

def renameAll (ρ : Variable → Variable) : List Shape → List Shape
  | [] => []
  | s :: ss => rename ρ s :: renameAll ρ ss

end

mutual

/-- The variables of a shape, from left to right, at every place where they
stand. -/
def vars : Shape → List Variable
  | .var v => [v]
  | .const _ => []
  | .node _ args => varsAll args

def varsAll : List Shape → List Variable
  | [] => []
  | s :: ss => vars s ++ varsAll ss

end

section

variable {ρ ρ' : Variable → Variable}

@[simp] theorem rename_var (v : Variable) : (Shape.var v).rename ρ = .var (ρ v) := by rw [rename]

@[simp] theorem rename_const (value : Term) : (Shape.const value).rename ρ = .const value := by
  rw [rename]

theorem renameAll_eq (ss : List Shape) : renameAll ρ ss = ss.map (rename ρ) := by
  induction ss with
  | nil => rw [renameAll, List.map_nil]
  | cons s ss ih => rw [renameAll, ih, List.map_cons]

@[simp] theorem rename_node (name : String) (args : List Shape) :
    (Shape.node name args).rename ρ = .node name (args.map (rename ρ)) := by
  rw [rename, renameAll_eq]

@[simp] theorem vars_var (v : Variable) : (Shape.var v).vars = [v] := by rw [vars]

@[simp] theorem vars_const (value : Term) : (Shape.const value).vars = [] := by rw [vars]

theorem varsAll_eq (ss : List Shape) : varsAll ss = ss.flatMap vars := by
  induction ss with
  | nil => rw [varsAll, List.flatMap_nil]
  | cons s ss ih => rw [varsAll, ih, List.flatMap_cons]

@[simp] theorem vars_node (name : String) (args : List Shape) :
    (Shape.node name args).vars = args.flatMap vars := by
  rw [vars, varsAll_eq]

mutual

/-- Renamings that agree on the variables of a shape rename it alike. -/
theorem rename_congr : (s : Shape) → (∀ v ∈ s.vars, ρ v = ρ' v) → s.rename ρ = s.rename ρ'
  | .var v, h => by rw [rename, rename, h v (by simp)]
  | .const value, _ => by rw [rename, rename]
  | .node name args, h => by
    rw [rename, rename, renameAll_congr args fun v hv => h v (by rwa [vars])]

theorem renameAll_congr : (ss : List Shape) → (∀ v ∈ varsAll ss, ρ v = ρ' v) →
    renameAll ρ ss = renameAll ρ' ss
  | [], _ => by rw [renameAll, renameAll]
  | s :: ss, h => by
    rw [varsAll] at h
    rw [renameAll, renameAll, rename_congr s fun v hv => h v (List.mem_append_left _ hv),
      renameAll_congr ss fun v hv => h v (List.mem_append_right _ hv)]

end

mutual

theorem rename_id : (s : Shape) → s.rename id = s
  | .var v => by rw [rename, id]
  | .const value => by rw [rename]
  | .node name args => by rw [rename, renameAll_id args]

theorem renameAll_id : (ss : List Shape) → renameAll id ss = ss
  | [] => by rw [renameAll]
  | s :: ss => by rw [renameAll, rename_id s, renameAll_id ss]

end

mutual

theorem rename_rename : (s : Shape) → (s.rename ρ).rename ρ' = s.rename (ρ' ∘ ρ)
  | .var v => by rw [rename, rename, rename, Function.comp]
  | .const value => by rw [rename, rename, rename]
  | .node name args => by rw [rename, rename, rename, renameAll_renameAll args]

theorem renameAll_renameAll : (ss : List Shape) →
    renameAll ρ' (renameAll ρ ss) = renameAll (ρ' ∘ ρ) ss
  | [] => by rw [renameAll, renameAll, renameAll]
  | s :: ss => by rw [renameAll, renameAll, renameAll, rename_rename s, renameAll_renameAll ss]

end

mutual

theorem vars_rename : (s : Shape) → (s.rename ρ).vars = s.vars.map ρ
  | .var v => by rw [rename, vars, vars, List.map_singleton]
  | .const value => by rw [rename, vars, List.map_nil]
  | .node name args => by rw [rename, vars, vars, varsAll_renameAll args]

theorem varsAll_renameAll : (ss : List Shape) → varsAll (renameAll ρ ss) = (varsAll ss).map ρ
  | [] => by rw [renameAll, varsAll, List.map_nil]
  | s :: ss => by
    rw [renameAll, varsAll, varsAll, List.map_append, vars_rename s, varsAll_renameAll ss]

end

theorem rename_of_vars_eq_nil {s : Shape} (h : s.vars = []) : s.rename ρ = s :=
  (rename_congr s (by simp [h])).trans (rename_id s)

end

end Shape

/-- A term without parts that stands for itself. -/
def Term.isConstant : Term → Bool
  | .number _ | .host _ | .thunk _ | .var .wildcard => true
  | _ => false

theorem Term.compound?_of_isConstant {t : Term} (h : t.isConstant = true) : t.compound? = none := by
  cases t <;> first | rfl | cases h

/-- The variable that a template variable is; the wildcard is none. -/
def Var.toVariable : Var → Option Variable
  | .wildcard => none
  | .named name => some (.named name)
  | .slot index _ => some (.slot index)

theorem Term.isConstant_var {v : Var} {k : Variable} (h : v.toVariable = some k) :
    (Term.var v).isConstant = false := by
  cases v <;> first | rfl | cases h

namespace Frames

/-- The committed value of a cell. -/
def content (fs : Frames) (c : Cell) : Option Term := (fs.slot? c).bind (·.value)

/-- With all committed bindings followed, the term has the shape. -/
inductive Shows (fs : Frames) : Term → Shape → Prop
  | const {t : Term} (h : t.isConstant = true) : Shows fs t (.const t)
  | atom (name : String) : Shows fs (.atom name) (.node name [])
  | bare {v : Var} {k : Variable} (h : v.toVariable = some k) : Shows fs (.var v) (.var k)
  | unbound {c : Cell} {name : String} (h : fs.content c = none) :
      Shows fs (.ref c name) (.var (.cell c))
  | bound {c : Cell} {name : String} {v : Term} {s : Shape} (hv : fs.content c = some v)
      (h : Shows fs v s) : Shows fs (.ref c name) s
  | node {t : Term} {name : String} {args : List Term} {home : Option FrameId} {ss : List Shape}
      (ht : t.compound? = some (name, args, home)) (hlen : args.length = ss.length)
      (h : ∀ a s, (a, s) ∈ args.zip ss → Shows fs (a.bindIn home) s) : Shows fs t (.node name ss)

section

variable {fs : Frames} {t u : Term} {s s' : Shape} {c : Cell} {name : String} {args : List Term}
  {home : Option FrameId}

theorem content_eq_some {v : Term} :
    fs.content c = some v ↔ ∃ s, fs.slot? c = some s ∧ s.value = some v :=
  Option.bind_eq_some_iff

theorem mem_held_of_content {v : Term} (h : fs.content c = some v) : v ∈ fs.held := by
  obtain ⟨s, hs, hv⟩ := content_eq_some.1 h
  exact mem_held hs hv

theorem leads_ref : fs.Leads (.ref c name) u ↔ fs.content c = some u := by
  rw [content_eq_some]
  exact ⟨fun h => h.of_ref, fun ⟨_, hs, hv⟩ => .value hs hv⟩

theorem shows_compound (ht : t.compound? = some (name, args, home)) : fs.Shows t s ↔
    ∃ ss, s = .node name ss ∧ List.Forall₂ (fun a s => fs.Shows (a.bindIn home) s) args ss := by
  constructor
  · intro h
    cases h with
    | const h => cases ht.symm.trans (Term.compound?_of_isConstant h)
    | node ht' hlen h =>
      cases ht.symm.trans ht'
      exact ⟨_, rfl, List.forall₂_iff_zip.2 ⟨hlen, fun hm => h _ _ hm⟩⟩
    | _ => cases ht
  · rintro ⟨ss, rfl, h⟩
    obtain ⟨hlen, h⟩ := List.forall₂_iff_zip.1 h
    exact .node ht hlen fun a s hm => h hm

theorem shows_of_content {v : Term} (hv : fs.content c = some v) :
    fs.Shows (.ref c name) s ↔ fs.Shows v s := by
  refine ⟨fun h => ?_, .bound hv⟩
  cases h with
  | const h => cases h
  | unbound hu => cases hv.symm.trans hu
  | bound hv' h =>
    cases hv.symm.trans hv'
    exact h
  | node ht => cases ht

theorem shows_of_unbound (hu : fs.content c = none) :
    fs.Shows (.ref c name) s ↔ s = .var (.cell c) := by
  constructor
  · intro h
    cases h with
    | const h => cases h
    | unbound => rfl
    | bound hv => cases hu.symm.trans hv
    | node ht => cases ht
  · rintro rfl
    exact .unbound hu

theorem shows_constant (ht : t.isConstant = true) : fs.Shows t s ↔ s = .const t := by
  constructor
  · intro h
    cases h with
    | const => rfl
    | bare hk => cases ht.symm.trans (Term.isConstant_var hk)
    | node ht' => cases ht'.symm.trans (Term.compound?_of_isConstant ht)
    | _ => cases ht
  · rintro rfl
    exact .const ht

theorem shows_atom : fs.Shows (.atom name) s ↔ s = .node name [] := by
  constructor
  · intro h
    cases h with
    | const h => cases h
    | atom => rfl
    | node ht => cases ht
  · rintro rfl
    exact .atom name

theorem shows_bare {v : Var} {k : Variable} (hk : v.toVariable = some k) :
    fs.Shows (.var v) s ↔ s = .var k := by
  constructor
  · intro h
    cases h with
    | const h => cases h.symm.trans (Term.isConstant_var hk)
    | bare h => rw [Option.some.inj (hk.symm.trans h)]
    | node ht => cases ht
  · rintro rfl
    exact .bare hk

/-- A term has one shape. -/
theorem Shows.unique (h : fs.Shows t s) (h' : fs.Shows t s') : s = s' := by
  induction h generalizing s' with
  | const hc => exact ((shows_constant hc).1 h').symm
  | atom name => exact (shows_atom.1 h').symm
  | bare hk => exact ((shows_bare hk).1 h').symm
  | unbound hu => exact ((shows_of_unbound hu).1 h').symm
  | bound hv _ ih => exact ih ((shows_of_content hv).1 h')
  | node ht hlen _ ih =>
    obtain ⟨ss', rfl, hargs⟩ := (shows_compound ht).1 h'
    rw [eq_of_forall₂ (List.forall₂_iff_zip.2 ⟨hlen, fun hm s' => ih _ _ hm⟩) hargs]

/-- Where the ways down end, a term has a shape. -/
theorem Ends.shows (h : fs.Ends t) : ∃ s, fs.Shows t s := by
  induction h with
  | intro t _ ih =>
    have hcompound : ∀ {name args home}, t.compound? = some (name, args, home) →
        ∃ s, fs.Shows t s := by
      intro name args home ht
      obtain ⟨ss, hss⟩ := exists_forall₂ fun a ha => ih (a.bindIn home) (.arg ht ha)
      exact ⟨_, (shows_compound ht).2 ⟨ss, rfl, hss⟩⟩
    cases t with
    | atom name => exact ⟨_, .atom name⟩
    | number _ => exact ⟨_, .const rfl⟩
    | host _ => exact ⟨_, .const rfl⟩
    | thunk _ => exact ⟨_, .const rfl⟩
    | var v =>
      cases hv : v.toVariable with
      | none =>
        cases v with
        | wildcard => exact ⟨_, .const rfl⟩
        | _ => cases hv
      | some k => exact ⟨_, .bare hv⟩
    | ref c name =>
      cases hc : fs.content c with
      | none => exact ⟨_, .unbound hc⟩
      | some v =>
        obtain ⟨s, hs⟩ := ih v (leads_ref.2 hc)
        exact ⟨s, .bound hc hs⟩
    | compound form name args => exact hcompound rfl
    | closure serial name args home => exact hcompound rfl

end

-- ================================================== ways down

/-- Where every way down ends, none comes back. -/
theorem Ends.not_transGen {fs : Frames} {t : Term} (h : fs.Ends t) :
    ¬ Relation.TransGen fs.Leads t t := by
  induction h with
  | intro t _ ih =>
    intro hloop
    obtain ⟨u, hu, hback⟩ := Relation.TransGen.head'_iff.1 hloop
    exact ih u hu (.tail' hback hu)

theorem Ends.of_transGen {fs : Frames} {t u : Term} (h : fs.Ends t)
    (hu : Relation.TransGen fs.Leads t u) : fs.Ends u := by
  induction hu with
  | single hl => exact h.inv hl
  | tail _ hl ih => exact ih.inv hl

open Classical in
/-- The number of values of the arena that are below a term. -/
noncomputable def below (fs : Frames) (t : Term) : Nat :=
  (fs.held.filter fun v => Relation.TransGen fs.Leads t v).length

section

variable {fs : Frames} {t u : Term}

theorem below_le (hw : fs.Within) (t : Term) : fs.below t ≤ fs.made :=
  (List.length_filter_le _ _).trans ((length_held_le fs).trans hw)

theorem below_mono (h : ∀ v, Relation.TransGen fs.Leads u v → Relation.TransGen fs.Leads t v) :
    fs.below u ≤ fs.below t := by
  classical
  exact (List.monotone_filter_right fs.held fun v hv =>
    decide_eq_true (h v (of_decide_eq_true hv))).length_le

/-- A value below a term has less below it. -/
theorem below_lt (hu : Relation.TransGen fs.Leads t u) (hheld : u ∈ fs.held) (he : fs.Ends u) :
    fs.below u < fs.below t := by
  classical
  unfold below
  have hsub : (fs.held.filter fun v => Relation.TransGen fs.Leads u v)
      = (fs.held.filter fun v => Relation.TransGen fs.Leads t v).filter
          fun v => Relation.TransGen fs.Leads u v := by
    rw [List.filter_filter]
    refine List.filter_congr fun v _ => ?_
    by_cases hv : Relation.TransGen fs.Leads u v
    · simp [hv, hu.trans hv]
    · simp [hv]
  rw [hsub]
  refine List.length_filter_lt_length_iff_exists.2 ⟨u, List.mem_filter.2 ⟨hheld, ?_⟩, ?_⟩
  · exact decide_eq_true hu
  · simpa using he.not_transGen

theorem below_le_of_leads (h : fs.Leads t u) : fs.below u ≤ fs.below t :=
  below_mono fun _ hv => .head h hv

end

-- ================================================== following references

/-- What a reference comes to: a cell that is unbound, or a value below it. -/
inductive Reaches (fs : Frames) (t : Term) : Term → Prop
  | cell {d : Cell} {m : String} (hu : fs.content d = none) : Reaches fs t (.ref d m)
  | value {v : Term} (hno : ∀ d m, v ≠ .ref d m) (hbelow : Relation.TransGen fs.Leads t v)
      (hheld : v ∈ fs.held) : Reaches fs t v

theorem Reaches.head {fs : Frames} {t u r : Term} (hl : fs.Leads t u) (h : fs.Reaches u r) :
    fs.Reaches t r := by
  cases h with
  | cell hu => exact .cell hu
  | value hno hbelow hheld => exact .value hno (.head hl hbelow) hheld

section

variable {fs : Frames} {c : Cell} {name : String} {n : Nat}

theorem shown_content {slot : Slot} (hs : fs.slot? c = some slot) :
    Slot.shown false slot = fs.content c := by
  rw [content, hs, Option.bind_some, Slot.shown]
  cases slot.value <;> rfl

theorem follow_unbound (h : fs.content c = none) : fs.follow false n c name = .ref c name := by
  cases n with
  | zero => rfl
  | succ n =>
    unfold follow
    split
    · rfl
    · rename_i slot hs
      rw [shown_content hs, h]

theorem follow_ref {d : Cell} {m : String} (h : fs.content c = some (.ref d m)) :
    fs.follow false (n + 1) c name = fs.follow false n d m := by
  obtain ⟨slot, hs, -⟩ := content_eq_some.1 h
  rw [follow, hs]
  dsimp only
  rw [shown_content hs, h]

theorem follow_value {v : Term} (h : fs.content c = some v) (hno : ∀ d m, v ≠ .ref d m) :
    fs.follow false (n + 1) c name = v := by
  obtain ⟨slot, hs, -⟩ := content_eq_some.1 h
  rw [follow, hs]
  dsimp only
  rw [shown_content hs, h]
  cases v <;> first | rfl | exact absurd rfl (hno _ _)

/-- Where the ways down end, the values below are enough to follow a reference. -/
theorem Ends.follow (he : fs.Ends (.ref c name)) (hn : fs.below (.ref c name) ≤ n) :
    fs.Reaches (.ref c name) (fs.follow false n c name)
      ∧ ∀ s, fs.Shows (.ref c name) s ↔ fs.Shows (fs.follow false n c name) s := by
  induction n generalizing c name with
  | zero =>
    cases hc : fs.content c with
    | none =>
      rw [follow_unbound hc]
      exact ⟨.cell hc, fun s => .rfl⟩
    | some v =>
      have hl : fs.Leads (.ref c name) v := leads_ref.2 hc
      have := below_lt (.single hl) (mem_held_of_content hc) (he.inv hl)
      omega
  | succ n ih =>
    cases hc : fs.content c with
    | none =>
      rw [follow_unbound hc]
      exact ⟨.cell hc, fun s => .rfl⟩
    | some v =>
      have hl : fs.Leads (.ref c name) v := leads_ref.2 hc
      have hheld := mem_held_of_content hc
      have hlt := below_lt (.single hl) hheld (he.inv hl)
      by_cases href : ∃ d m, v = .ref d m
      · obtain ⟨d, m, rfl⟩ := href
        rw [follow_ref hc]
        obtain ⟨hreaches, hshows⟩ := ih (he.inv hl) (by omega)
        exact ⟨hreaches.head hl, fun s => (shows_of_content hc).trans (hshows s)⟩
      · have hno : ∀ d m, v ≠ .ref d m := fun d m he => href ⟨d, m, he⟩
        rw [follow_value hc hno]
        exact ⟨.value hno (.single hl) hheld, fun s => shows_of_content hc⟩

theorem Ends.resolve (he : fs.Ends (.ref c name)) (hw : fs.Within) :
    fs.Reaches (.ref c name) (fs.resolve (.ref c name))
      ∧ ∀ s, fs.Shows (.ref c name) s ↔ fs.Shows (fs.resolve (.ref c name)) s :=
  he.follow ((below_le hw _).trans (Nat.le_succ _))

end

end Frames

-- ================================================== noting variables

/-- The variables noted so far and then the new ones among others, each once, in
the order in which they come. -/
def note (vs ws : List Variable) : List Variable :=
  ws.foldl (fun vs w => if w ∈ vs then vs else vs ++ [w]) vs

section

variable {vs ws : List Variable} {v w : Variable}

@[simp] theorem note_empty : note vs [] = vs := rfl

theorem note_cons : note vs (w :: ws) = note (if w ∈ vs then vs else vs ++ [w]) ws := rfl

theorem note_append (ws' : List Variable) : note vs (ws ++ ws') = note (note vs ws) ws' :=
  List.foldl_append

theorem prefix_note : vs <+: note vs ws := by
  induction ws generalizing vs with
  | nil => exact List.prefix_refl vs
  | cons w ws ih =>
    rw [note_cons]
    split
    · exact ih
    · exact (List.prefix_append vs [w]).trans ih

theorem mem_note : v ∈ note vs ws ↔ v ∈ vs ∨ v ∈ ws := by
  induction ws generalizing vs with
  | nil => simp [note]
  | cons w ws ih =>
    rw [note_cons, ih]
    split
    · rename_i hw
      rw [List.mem_cons]
      refine ⟨fun h => h.imp_right .inr, fun h => h.elim .inl fun h => ?_⟩
      exact h.elim (fun he => .inl (he ▸ hw)) .inr
    · simp [or_assoc]

theorem nodup_note (h : vs.Nodup) : (note vs ws).Nodup := by
  induction ws generalizing vs with
  | nil => exact h
  | cons w ws ih =>
    rw [note_cons]
    split
    · exact ih h
    · rename_i hw
      exact ih (List.nodup_append.2 ⟨h, List.nodup_singleton w, by
        rintro a ha b hb rfl
        exact hw (List.mem_singleton.1 hb ▸ ha)⟩)

theorem note_of_subset (h : ∀ w ∈ ws, w ∈ vs) : note vs ws = vs := by
  induction ws with
  | nil => rfl
  | cons w ws ih =>
    obtain ⟨hw, hws⟩ := List.forall_mem_cons.1 h
    rw [note_cons, if_pos hw, ih hws]

/-- Variables that are renamed apart are noted alike. -/
theorem note_map {ρ : Variable → Variable} (h : Set.InjOn ρ {v | v ∈ vs ∨ v ∈ ws}) :
    note (vs.map ρ) (ws.map ρ) = (note vs ws).map ρ := by
  induction ws generalizing vs with
  | nil => rfl
  | cons w ws ih =>
    have hmem : ρ w ∈ vs.map ρ ↔ w ∈ vs := by
      refine ⟨fun hw => ?_, fun hw => List.mem_map_of_mem hw⟩
      obtain ⟨v, hv, he⟩ := List.mem_map.1 hw
      exact h (.inl hv) (.inr List.mem_cons_self) he ▸ hv
    rw [List.map_cons, note_cons, note_cons]
    by_cases hw : w ∈ vs
    · rw [if_pos (hmem.2 hw), if_pos hw]
      exact ih (h.mono fun v hv => hv.imp_right (List.mem_cons_of_mem w))
    · rw [if_neg fun hm => hw (hmem.1 hm), if_neg hw, ← List.map_singleton, ← List.map_append]
      refine ih (h.mono fun v hv => ?_)
      simpa [or_assoc] using hv

theorem note_eq (vs ws : List Variable) :
    note vs ws = vs ++ (ws.filter fun w => decide (w ∉ vs)).eraseDups := by
  induction ws generalizing vs with
  | nil => simp [note]
  | cons w ws ih =>
    rw [note_cons, ih]
    by_cases hw : w ∈ vs
    · simp [hw]
    · have hfilter : (ws.filter fun x => decide (x ∉ vs ++ [w]))
          = (ws.filter fun x => decide (x ∉ vs)).filter fun x => !x == w := by
        rw [List.filter_filter]
        refine List.filter_congr fun x _ => ?_
        by_cases hx : x = w <;> simp [hx]
      rw [if_neg hw, hfilter, List.filter_cons_of_pos (by simpa using hw), List.eraseDups_cons,
        List.append_assoc]
      rfl

/-- Where nothing was noted, what is noted is what comes, each once. -/
theorem note_nil (ws : List Variable) : note [] ws = ws.eraseDups := by
  simp [note_eq]

theorem eraseDups_map {ρ : Variable → Variable} (h : Set.InjOn ρ {v | v ∈ ws}) :
    (ws.map ρ).eraseDups = ws.eraseDups.map ρ := by
  have hmap : note ([].map ρ) (ws.map ρ) = (note [] ws).map ρ :=
    note_map (h.mono fun v hv => hv.resolve_left nofun)
  rw [← note_nil, ← note_nil, ← hmap]
  rfl

end

-- ================================================== unfolding

namespace Frames

/-- A term has a shape, and no more than so many values are below it. -/
structure Unfolds (fs : Frames) (bound : Nat) (t : Term) (s : Shape) : Prop where
  ends : fs.Ends t
  below : fs.below t ≤ bound
  shows : fs.Shows t s

section

variable {fs : Frames} {bound : Nat} {frame : Option FrameId} {t : Term} {s : Shape}
  {name : String} {as : List Term}

theorem bindIn_of_isPlain (h : t.isPlain = true) (frame : Option FrameId) : t.bindIn frame = t := by
  cases frame with
  | none => rfl
  | some f => exact Term.bindTo_of_isPlain f h

theorem Unfolds.of_compound {home : Option FrameId} (h : fs.Unfolds bound t s)
    (ht : t.compound? = some (name, as, home)) :
    ∃ ss, s = .node name ss
      ∧ List.Forall₂ (fun a s => fs.Unfolds bound (a.bindIn home) s) as ss := by
  obtain ⟨ss, rfl, hss⟩ := (shows_compound ht).1 h.shows
  obtain ⟨hlen, hss⟩ := List.forall₂_iff_zip.1 hss
  refine ⟨ss, rfl, List.forall₂_iff_zip.2 ⟨hlen, fun {a s} hm => ?_⟩⟩
  have hl : fs.Leads t (a.bindIn home) := .arg ht (List.of_mem_zip hm).1
  exact ⟨h.ends.inv hl, (below_le_of_leads hl).trans h.below, hss hm⟩

/-- The arguments of a compound are read in the frame that it is read in. A plain
one is read in none, but its arguments are the same in every frame. -/
theorem Unfolds.of_args {form : Form}
    (h : fs.Unfolds bound ((Term.compound form name as).bindIn frame) s)
    (ht : (Term.compound form name as).Fits .all anyVars) :
    ∃ ss, s = .node name ss
      ∧ List.Forall₂ (fun a s => fs.Unfolds bound (a.bindIn frame) s) as ss := by
  cases form with
  | plain =>
    rw [bindIn_of_isPlain rfl] at h
    obtain ⟨ss, rfl, hss⟩ := h.of_compound rfl
    have hplain := List.all_eq_true.1 ((Term.fits_compound.1 ht).1 rfl)
    obtain ⟨hlen, hss⟩ := List.forall₂_iff_zip.1 hss
    refine ⟨ss, rfl, List.forall₂_iff_zip.2 ⟨hlen, fun {a s} hm => ?_⟩⟩
    rw [bindIn_of_isPlain (hplain a (List.of_mem_zip hm).1)]
    exact hss hm
  | template serial => cases frame <;> exact h.of_compound rfl

/-- A reference comes to an unbound cell, or to a value with less below it. -/
theorem Unfolds.resolve {c : Cell} {m : String} (h : fs.Unfolds bound (.ref c m) s)
    (hw : fs.Within) :
    (∃ d m', fs.resolve (.ref c m) = .ref d m' ∧ s = .var (.cell d))
      ∨ (∀ d m', fs.resolve (.ref c m) ≠ .ref d m') ∧ fs.resolve (.ref c m) ∈ fs.held
        ∧ Relation.TransGen fs.Leads (.ref c m) (fs.resolve (.ref c m))
        ∧ ∃ n < bound, fs.Unfolds n (fs.resolve (.ref c m)) s := by
  obtain ⟨hreaches, hshows⟩ := h.ends.resolve hw
  have hs := (hshows s).1 h.shows
  generalize fs.resolve (.ref c m) = r at hreaches hs ⊢
  cases hreaches with
  | cell hu => exact .inl ⟨_, _, rfl, (shows_of_unbound hu).1 hs⟩
  | value hno hbelow hheld =>
    have hends : fs.Ends r := h.ends.of_transGen hbelow
    have hlt := below_lt hbelow hheld hends
    exact .inr ⟨hno, hheld, hbelow, _, hlt.trans_le h.below, hends, le_rfl, hs⟩

end

end Frames

-- ================================================== listing variables

/-- The terms are references to cells, one for each of the variables. -/
def Lists (ts : List Term) (vs : List Variable) : Prop :=
  List.Forall₂ (fun t v => ∃ c name, t = .ref c name ∧ v = .cell c) ts vs

/-- All variables of a shape are cells. -/
def Shape.Bound (s : Shape) : Prop := ∀ v ∈ s.vars, ∃ c, v = .cell c

theorem Shape.bound_node {name : String} {ss : List Shape} :
    (Shape.node name ss).Bound ↔ ∀ s ∈ ss, s.Bound := by
  unfold Shape.Bound
  rw [Shape.vars_node]
  simp only [List.mem_flatMap]
  exact ⟨fun h s hs v hv => h v ⟨s, hs, hv⟩, fun h v ⟨s, hs, hv⟩ => h s hs v hv⟩

theorem Lists.any_same {ts : List Term} {vs : List Variable} (h : Lists ts vs) (c : Cell)
    (name : String) : ts.any (Term.ref c name).same = decide (.cell c ∈ vs) := by
  induction h with
  | nil => rfl
  | cons h _ ih =>
    obtain ⟨d, m, rfl, rfl⟩ := h
    rw [List.any_cons, ih]
    by_cases hd : c = d <;> simp [Term.same, hd]

namespace Frames

/-- Going on with a value below which are fewer values lists the variables of its
shape. -/
def ListsOn (fs : Frames) (bound : Nat) (hop : Term → List Term → List Term) : Prop :=
  ∀ {n t s seen vs}, n < bound → t ∈ fs.held → fs.Unfolds n t s → s.Bound → Lists seen vs →
    Lists (hop t seen) (note vs s.vars)

section

variable {fs : Frames} {bound : Nat} {hop : Term → List Term → List Term} {s : Shape}
  {seen : List Term} {vs : List Variable}

/-- A variable that stands for itself and is no template variable is the wildcard. -/
theorem Shows.wildcard {v : Var} (h : fs.Shows (.var v) s) (hs : s.Bound) :
    v = .wildcard ∧ s.vars = [] := by
  cases hv : v.toVariable with
  | none =>
    cases v with
    | wildcard =>
      rw [(shows_constant rfl).1 h, Shape.vars_const]
      exact ⟨rfl, rfl⟩
    | _ => cases hv
  | some k =>
    rw [(shows_bare hv).1 h] at hs
    obtain ⟨c, rfl⟩ := hs k (by simp)
    cases v <;> cases hv

theorem ListsOn.sight (hh : fs.ListsOn bound hop) (hw : fs.Within) {c : Cell} {name : String}
    (h : fs.Unfolds bound (.ref c name) s) (hs : s.Bound) (hseen : Lists seen vs) :
    Lists (sight hop (fs.resolve (.ref c name)) seen) (note vs s.vars) := by
  obtain ⟨d, m, hd, rfl⟩ | ⟨hno, hheld, -, n, hlt, hv⟩ := h.resolve hw
  · rw [hd, Frames.sight, hseen.any_same, Shape.vars_var, note_cons]
    by_cases hmem : Variable.cell d ∈ vs
    · simpa [hmem] using hseen
    · simp only [hmem, decide_false, Bool.false_eq_true, if_false]
      exact List.rel_append hseen (.cons ⟨d, m, rfl, rfl⟩ .nil)
  · generalize fs.resolve (.ref c name) = r at hno hheld hv ⊢
    cases r with
    | ref d m => exact absurd rfl (hno d m)
    | var v =>
      obtain ⟨rfl, hvars⟩ := hv.shows.wildcard hs
      rw [hvars]
      exact hseen
    | _ => exact hh hlt hheld hv hs hseen

mutual

theorem ListsOn.collect (hh : fs.ListsOn bound hop) (hw : fs.Within) : (t : Term) →
    {frame : Option FrameId} → {s : Shape} → {seen : List Term} → {vs : List Variable} →
    t.Fits .all anyVars → fs.Unfolds bound (t.bindIn frame) s → s.Bound → Lists seen vs →
    Lists (fs.collect hop frame t seen) (note vs s.vars)
  | .ref c name, frame, s, seen, vs, _, h, hs, hseen => by
    rw [Frames.collect]
    exact hh.sight hw (by cases frame <;> exact h) hs hseen
  | .var v, none, s, seen, vs, _, h, hs, hseen => by
    rw [Frames.collect]
    obtain ⟨rfl, hvars⟩ := h.shows.wildcard hs
    rw [hvars]
    exact hseen
  | .var .wildcard, some f, s, seen, vs, _, h, hs, hseen => by
    rw [Frames.collect, (h.shows.wildcard hs).2]
    exact hseen
  | .var (.named n), some f, s, seen, vs, _, h, hs, hseen
  | .var (.slot i n), some f, s, seen, vs, _, h, hs, hseen => by
    rw [Frames.collect]
    exact hh.sight hw h hs hseen
  | .compound form name as, frame, s, seen, vs, ht, h, hs, hseen => by
    rw [Frames.collect]
    obtain ⟨ss, rfl, hss⟩ := h.of_args ht
    rw [Shape.vars_node]
    exact hh.collectAll hw as (Term.fits_compound.1 ht).2 hss (Shape.bound_node.1 hs) hseen
  | .closure serial name as home, frame, s, seen, vs, ht, h, hs, hseen => by
    rw [Frames.collect]
    have h : fs.Unfolds bound (.closure serial name as home) s := by cases frame <;> exact h
    obtain ⟨ss, rfl, hss⟩ := h.of_compound rfl
    rw [Shape.vars_node]
    exact hh.collectAll hw as (fun a ha => ((Term.fits_closure.1 ht).2 a ha).wellMade) hss
      (Shape.bound_node.1 hs) hseen
  | .atom name, frame, s, seen, vs, _, h, _, hseen => by
    rw [Frames.collect.eq_def]
    rw [bindIn_of_isPlain rfl] at h
    rw [shows_atom.1 h.shows, Shape.vars_node]
    exact hseen
  | .number _, frame, s, seen, vs, _, h, _, hseen
  | .host _, frame, s, seen, vs, _, h, _, hseen
  | .thunk _, frame, s, seen, vs, _, h, _, hseen => by
    rw [Frames.collect.eq_def]
    rw [bindIn_of_isPlain rfl] at h
    rw [(shows_constant rfl).1 h.shows, Shape.vars_const]
    exact hseen

theorem ListsOn.collectAll (hh : fs.ListsOn bound hop) (hw : fs.Within) : (ts : List Term) →
    {frame : Option FrameId} → {ss : List Shape} → {seen : List Term} → {vs : List Variable} →
    (∀ t ∈ ts, t.Fits .all anyVars) →
    List.Forall₂ (fun t s => fs.Unfolds bound (t.bindIn frame) s) ts ss →
    (∀ s ∈ ss, s.Bound) → Lists seen vs →
    Lists (fs.collectAll hop frame ts seen) (note vs (ss.flatMap Shape.vars))
  | [], _, _, _, _, _, .nil, _, hseen => by
    rw [Frames.collectAll]
    exact hseen
  | t :: ts, frame, s :: ss, seen, vs, ht, .cons h hss, hs, hseen => by
    rw [Frames.collectAll, List.flatMap_cons, note_append]
    rw [List.forall_mem_cons] at ht hs
    exact hh.collectAll hw ts ht.2 hss hs.2 (hh.collect hw t ht.1 h hs.1 hseen)

end

/-- Enough cells are allowed where more values are not below. -/
theorem listsOn_freeVarsWithin {strict : Bool} (hsound : fs.Sound strict) (hw : fs.Within)
    (bound : Nat) : fs.ListsOn bound (fs.freeVarsWithin bound) := by
  induction bound with
  | zero => exact fun hlt => absurd hlt (Nat.not_lt_zero _)
  | succ bound ih =>
    intro n t s seen vs hlt hheld h hs hseen
    rw [freeVarsWithin]
    have hunfolds : fs.Unfolds bound (t.bindIn none) s :=
      ⟨h.ends, h.below.trans (Nat.le_of_lt_succ hlt), h.shows⟩
    exact ih.collect hw t (hsound.held hheld) hunfolds hs hseen

/-- The variables listed are those of the shape, each once, in the order in which
they stand in it. -/
theorem Sound.lists_freeVars {strict : Bool} (hsound : fs.Sound strict) (hw : fs.Within) {t : Term}
    (ht : t.Fits .all anyVars) (he : fs.Ends t) (h : fs.Shows t s) (hs : s.Bound) :
    Lists (fs.freeVars t) s.vars.eraseDups := by
  have hunfolds : fs.Unfolds fs.made (t.bindIn none) s := ⟨he, below_le hw t, h⟩
  rw [← note_nil]
  exact ListsOn.collect (listsOn_freeVarsWithin hsound hw fs.made) hw t ht hunfolds hs .nil

end

end Frames

end LogicMachine
