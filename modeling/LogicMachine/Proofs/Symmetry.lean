/-
Unification is symmetric.

Solving an equation and solving it the other way round is one computation: at
every step the verdict is the same but for the sides, so the same cells are
bound to the same values in the same order (`Act.solve_flip`). Two things
could tell the sides apart. Of two thunks that meet the left one is forced
first; so no thunk may be met. And of two cells of one age and one place the
left one would be bound; but of frames that own their slots the ages differ.

All this holds of every arena, also of one that mentions bare template
variables, which take their meaning from the frame that happens to read them.
What may be met in solving is said with that in mind (`Equation.Meets`);
without bare variables it is what the two sides lead to (`Sound.thunkless`).
-/
import LogicMachine.Proofs.Unifiers

namespace LogicMachine

-- ================================================== terms that are the same

namespace Term

mutual

theorem same_comm : (a b : Term) → a.same b = b.same a
  | .atom _, b | .number _, b | .host _, b | .thunk _, b | .ref _ _, b => by
    cases b <;> simp only [same, BEq.comm]
  | .var v, b => by cases b <;> simp only [same, Var.same, BEq.comm]
  | .compound _ f as, b => by
    cases b <;> simp only [same]
    rw [BEq.comm, sameAll_comm]
  | .closure _ f as m, b => by
    cases b <;> simp only [same]
    rw [sameAll_comm, BEq.comm (a := m), BEq.comm (a := f)]

theorem sameAll_comm : (as bs : List Term) → sameAll as bs = sameAll bs as
  | [], [] | [], _ :: _ | _ :: _, [] => by simp only [sameAll]
  | a :: as, b :: bs => by rw [sameAll, sameAll, same_comm a b, sameAll_comm as bs]

end

theorem identical_comm (a b : Term) : a.identical b = b.identical a := by
  cases a <;> cases b <;> simp only [identical, BEq.comm]
  rename_i s f as m t g bs n
  rw [sameAll_comm as bs, BEq.comm (a := m), BEq.comm (a := s), BEq.comm (a := f)]

end Term

-- ================================================== the other way round

/-- The equation with its sides exchanged. -/
def Equation.flip (e : Equation) : Equation := ⟨e.right, e.rightIn, e.left, e.leftIn⟩

/-- What it takes to solve the equation the other way round, if no thunk is
to be forced. -/
def Verdict.flip : Verdict → Verdict
  | .split equations => .split (equations.map Equation.flip)
  | v => v

namespace Equation

theorem between_flip (xs : List Term) (fx : Option FrameId) (ys : List Term) (fy : Option FrameId) :
    between ys fy xs fx = (between xs fx ys fy).map flip := by
  unfold between
  rw [List.map_zipWith, List.zipWith_comm]
  rfl

section

variable {fs : Frames} {x y : Term}

/-- Two different cells do not tie: one is older. -/
def Ranked (fs : Frames) (x y : Term) : Prop :=
  ∀ a m b n, x = .ref a m → y = .ref b n → a ≠ b → fs.isOlder b a = !fs.isOlder a b

theorem compounds_flip (f g : String) (xs ys : List Term) (fx fy : Option FrameId) :
    (if ys.length == xs.length && g == f then Verdict.split (between ys fy xs fx) else .clash)
      = Verdict.flip (if xs.length == ys.length && f == g then .split (between xs fx ys fy)
        else .clash) := by
  rw [BEq.comm (a := ys.length), BEq.comm (a := g), between_flip]
  split <;> rfl

theorem decideSides_flip (hx : ∀ id, x ≠ .thunk id) (hy : ∀ id, y ≠ .thunk id)
    (hranked : Ranked fs x y) : decideSides fs y x = (decideSides fs x y).flip := by
  unfold decideSides
  rw [Term.identical_comm y x]
  by_cases hid : x.identical y = true
  · rw [if_pos hid, if_pos hid]
    rfl
  · rw [if_neg hid, if_neg hid]
    cases x with
    | thunk id => exact absurd rfl (hx id)
    | ref a m =>
      cases y with
      | thunk id => exact absurd rfl (hy id)
      | ref b n =>
        have hne : a ≠ b := fun he => hid (by simp [Term.identical, he])
        dsimp only
        rw [hranked a m b n rfl rfl hne]
        cases fs.isOlder a b <;> rfl
      | _ => rfl
    | compound form f xs =>
      cases y with
      | thunk id => exact absurd rfl (hy id)
      | compound | closure => exact compounds_flip ..
      | _ => rfl
    | closure serial f xs fx =>
      cases y with
      | thunk id => exact absurd rfl (hy id)
      | compound | closure => exact compounds_flip ..
      | _ => rfl
    | _ =>
      cases y with
      | thunk id => exact absurd rfl (hy id)
      | _ => rfl

end

end Equation

-- ================================================== what is met in solving

/-- A term that solving the equation may come to: one of its sides, or what
such a term leads to. What a cell is bound to may be read again in the frame
of whoever meets the cell; that only matters to bare template variables. -/
inductive Equation.Meets (e : Equation) (fs : Frames) : Term → Prop
  | left : Meets e fs (fs.bindIn e.left e.leftIn)
  | right : Meets e fs (fs.bindIn e.right e.rightIn)
  | leads {t u : Term} (ht : Meets e fs t) (hu : fs.Leads t u) : Meets e fs u
  | readLeft {t : Term} {f : FrameId} (ht : Meets e fs t) (hf : e.leftIn = some f) :
      Meets e fs (t.bindTo (fs.owner f))
  | readRight {t : Term} {f : FrameId} (ht : Meets e fs t) (hf : e.rightIn = some f) :
      Meets e fs (t.bindTo (fs.owner f))
  | readAt {t : Term} {serial : Nat} {name : String} {args : List Term} {f : FrameId}
      (ht : Meets e fs t) (hc : Meets e fs (.closure serial name args f)) :
      Meets e fs (t.bindTo f)

/-- No thunk is met. -/
def Equation.Thunkless (e : Equation) (fs : Frames) : Prop := ∀ id, ¬ e.Meets fs (.thunk id)

/-- The term, read in the frame, is one that may be met, and what is met may
be read there. -/
structure Equation.Comes (e : Equation) (fs : Frames) (t : Term) (frame : Option FrameId) : Prop where
  met : e.Meets fs (fs.bindIn t frame)
  read : ∀ f ∈ frame, ∀ u, e.Meets fs u → e.Meets fs (u.bindTo (fs.owner f))

section

variable {strict : Bool} {fs : Frames} {e : Equation} {t : Term}

/-- What is met is live. -/
theorem Equation.Meets.live (h : e.Meets fs t) (hs : fs.Sound strict) (he : e.Reads strict fs) :
    t.Live (fs.world strict) := by
  have hread : ∀ {u : Term} {f : FrameId}, u.Live (fs.world strict) → (fs.world strict).frame f →
      (u.bindTo f).Live (fs.world strict) := fun hu hf =>
    hu.bindTo hf fun _ hr => Frames.slotsOf_of_raw hr hf
  induction h with
  | left => exact he.left.bindIn
  | right => exact he.right.bindIn
  | leads _ hu ih => exact hs.leads_live ih hu
  | readLeft _ hf ih => exact hread ih (he.left.owner_live _ hf)
  | readRight _ hf ih => exact hread ih (he.right.owner_live _ hf)
  | readAt _ _ ih ihc => exact hread ih (Term.fits_closure.1 ihc).1

theorem Equation.comes_left : e.Comes fs e.left e.leftIn :=
  ⟨.left, fun _ hf _ hu => .readLeft hu hf⟩

theorem Equation.comes_right : e.Comes fs e.right e.rightIn :=
  ⟨.right, fun _ hf _ hu => .readRight hu hf⟩

/-- The arguments of a compound that is met. -/
theorem Equation.Meets.args (h : e.Meets fs t) (hs : fs.Sound strict) (he : e.Reads strict fs)
    {name : String} {args : List Term} {home : Option FrameId}
    (hc : t.compound? = some (name, args, home)) : ∀ a ∈ args, e.Comes fs a home := by
  intro a ha
  have hlead := h.leads (.arg hc ha)
  cases t with
  | compound form n as =>
    cases hc
    exact ⟨hlead, fun f hf => nomatch hf⟩
  | closure serial n as f =>
    cases hc
    have hown : fs.owner f = f := (Term.fits_closure.1 (h.live hs he)).1.2.2
    refine ⟨?_, ?_⟩
    · show e.Meets fs (a.bindTo (fs.owner f))
      rw [hown]
      exact hlead
    · rintro _ ⟨rfl⟩ u hu
      rw [hown]
      exact hu.readAt h
  | _ => cases hc

end

-- ================================================== without bare variables

namespace Frames

/-- No thunk is met on a way down from the term. -/
def Unsuspended (fs : Frames) (t : Term) : Prop :=
  ∀ u, Relation.ReflTransGen fs.Leads t u → ∀ id, u ≠ .thunk id

section

variable {fs : Frames} {t u : Term} {frame : FrameId}

/-- What a term leads to in a frame it leads to by itself, but for the frame,
unless it is a variable. -/
theorem Leads.of_bindTo (h : fs.Leads (t.bindTo frame) u) (ht : ∀ v, t ≠ .var v) :
    ∃ v, fs.Leads t v ∧ (u = v ∨ u = v.bindTo frame) := by
  cases hc : t.compound? with
  | none =>
    have hbind : t.bindTo frame = t := by
      cases t with
      | var v => exact absurd rfl (ht v)
      | compound | closure => cases hc
      | _ => rfl
    rw [hbind] at h
    exact ⟨u, h, .inl rfl⟩
  | some parts =>
    obtain ⟨name, args, home⟩ := parts
    rcases Term.compound?_bindTo hc frame with hc' | ⟨rfl, hc'⟩
    · obtain ⟨a, ha, rfl⟩ := h.of_compound hc'
      exact ⟨_, .arg hc ha, .inl rfl⟩
    · obtain ⟨a, ha, rfl⟩ := h.of_compound hc'
      exact ⟨a, .arg hc ha, .inr rfl⟩

/-- In a frame a live term meets nothing new, as it has no bare variables. -/
theorem Sound.unsuspended_bindTo (hs : fs.Sound true) (ht : t.Live (fs.world true))
    (h : fs.Unsuspended t) : fs.Unsuspended (t.bindTo frame) := by
  intro u hu
  have hsame : ∃ v, Relation.ReflTransGen fs.Leads t v ∧ v.Live (fs.world true)
      ∧ (u = v ∨ u = v.bindTo frame) := by
    induction hu with
    | refl => exact ⟨t, .refl, ht, .inr rfl⟩
    | tail _ hlast ih =>
      obtain ⟨v, hv, hlive, rfl | rfl⟩ := ih
      · exact ⟨_, hv.tail hlast, hs.leads_live hlive hlast, .inl rfl⟩
      · have hvar : ∀ x, v ≠ .var x := by
          rintro x rfl
          obtain rfl | ⟨-, hraw⟩ := Term.fits_var.1 hlive
          · cases hlast with
            | arg hc => cases hc
          · cases hraw
        obtain ⟨w, hw, hu⟩ := hlast.of_bindTo hvar
        exact ⟨w, hv.tail hw, hs.leads_live hlive hw, hu⟩
  obtain ⟨v, hv, -, rfl | rfl⟩ := hsame
  · exact h _ hv
  · intro id hid
    refine h v hv id ?_
    cases v with
    | var x => cases x <;> cases hid
    | compound form => cases form <;> cases hid
    | thunk => exact hid
    | _ => cases hid

/-- Without bare variables no thunk is met if neither side leads to one. -/
theorem Sound.thunkless (hs : fs.Sound true) {e : Equation} (he : e.Reads true fs)
    (hleft : fs.Unsuspended (fs.bindIn e.left e.leftIn))
    (hright : fs.Unsuspended (fs.bindIn e.right e.rightIn)) : e.Thunkless fs := by
  have hmeets : ∀ {t}, e.Meets fs t → fs.Unsuspended t := by
    intro t ht
    induction ht with
    | left => exact hleft
    | right => exact hright
    | leads _ hu ih => exact fun w hw => ih w (.head hu hw)
    | readLeft ht _ ih | readRight ht _ ih | readAt ht _ ih =>
      exact hs.unsuspended_bindTo (ht.live hs he) ih
  exact fun id hid => hmeets hid _ .refl id rfl

end

end Frames

-- ================================================== solving both ways

namespace Act

/-- A query in the course of solving the equation: what its slots hold is
what they held, or something met, and so are the equations that remain. -/
structure Pursuing (e : Equation) (q q' : Query) (equations : List Equation) : Prop where
  reslots : q.frames.Reslots q'.frames
  values : ∀ c, (q'.frames.slot? c).map (·.value) = (q.frames.slot? c).map (·.value)
  scratch : ∀ {c s t}, q'.frames.slot? c = some s → s.scratch = some t → e.Meets q.frames t
  comes : ∀ e' ∈ equations, e.Comes q.frames e'.left e'.leftIn ∧ e.Comes q.frames e'.right e'.rightIn

namespace Pursuing

variable {e e' : Equation} {q q' : Query} {equations : List Equation}

theorem start (hblank : q.frames.Blank) : Pursuing e q q [e] where
  reslots := .refl _
  values _ := rfl
  scratch hs ht := by
    rw [hblank hs] at ht
    cases ht
  comes e' he' := by
    rw [List.mem_singleton.1 he']
    exact ⟨e.comes_left, e.comes_right⟩

theorem rest (h : Pursuing e q q' (e' :: equations)) : Pursuing e q q' equations :=
  { h with comes := fun e'' he => h.comes e'' (List.mem_cons_of_mem _ he) }

theorem append {es : List Equation} (h : Pursuing e q q' equations)
    (hes : ∀ e' ∈ es, e.Comes q.frames e'.left e'.leftIn ∧ e.Comes q.frames e'.right e'.rightIn) :
    Pursuing e q q' (es ++ equations) :=
  { h with comes := fun e'' he => (List.mem_append.1 he).elim (hes e'') (h.comes e'') }

/-- What a cell shows it held before, or it has been bound to it since. -/
theorem shown_cases (h : Pursuing e q q' equations) {c : Cell} {s : Slot} {t : Term}
    (hs : q'.frames.slot? c = some s) (ht : Frames.Slot.shown true s = some t) :
    (∃ s, q.frames.slot? c = some s ∧ s.value = some t) ∨ s.scratch = some t := by
  refine (Frames.shown_some ht).imp_left fun hv => ?_
  have hsame := h.values c
  rw [hs, Option.map_some, hv] at hsame
  exact Option.map_eq_some_iff.1 hsame.symm

/-- What a cell that is met shows is met. -/
theorem shown (h : Pursuing e q q' equations) {c : Cell} {name : String} {s : Slot} {t : Term}
    (hc : e.Meets q.frames (.ref c name)) (hs : q'.frames.slot? c = some s)
    (ht : Frames.Slot.shown true s = some t) : e.Meets q.frames t := by
  rcases h.shown_cases hs ht with ⟨s₀, hs₀, hv⟩ | hscratch
  · exact hc.leads (.value hs₀ hv)
  · exact h.scratch hs hscratch

/-- What a cell that is met leads to is met. -/
theorem follow (h : Pursuing e q q' equations) (cells : Nat) {c : Cell} {name : String}
    (hc : e.Meets q.frames (.ref c name)) : e.Meets q.frames (q'.frames.follow true cells c name) := by
  induction cells generalizing c name with
  | zero => exact hc
  | succ cells ih =>
    unfold Frames.follow
    split
    · exact hc
    · rename_i slot hslot
      split
      · exact hc
      · rename_i hshown
        exact ih (h.shown hc hslot hshown)
      · rename_i hshown
        exact h.shown hc hslot hshown

/-- What a side stands for is met. -/
theorem side (h : Pursuing e q q' equations) {t : Term} {frame : Option FrameId}
    (ht : e.Comes q.frames t frame) : e.Meets q.frames (q'.frames.side t frame) := by
  have hread : ∀ {u}, e.Meets q.frames u → e.Meets q.frames (q'.frames.bindIn u frame) := by
    intro u hu
    cases frame with
    | none => exact hu
    | some f =>
      show e.Meets q.frames (u.bindTo (q'.frames.owner f))
      rw [h.reslots.owner]
      exact ht.read f rfl u hu
  have hmet : e.Meets q.frames (q'.frames.bindIn t frame) := by
    rw [h.reslots.bindIn]
    exact ht.met
  unfold Frames.side Frames.tentative
  split
  · exact hmet
  · rename_i v f hv
    refine hread (h.follow _ ?_)
    cases v with
    | wildcard => exact absurd rfl hv
    | named n => exact hmet
    | slot i n => exact hmet
  · refine hread (h.follow _ ?_)
    cases frame <;> exact hmet
  · exact hmet

end Pursuing

end Act

/-- The verdict asks for what is met, and for no thunk. -/
def Verdict.Pursued (e : Equation) (fs : Frames) : Verdict → Prop
  | .bind _ _ value => e.Meets fs value
  | .split equations =>
    ∀ e' ∈ equations, e.Comes fs e'.left e'.leftIn ∧ e.Comes fs e'.right e'.rightIn
  | .forceLeft _ _ | .forceRight _ _ => False
  | .solved | .clash => True

namespace Act.Pursuing

variable {strict : Bool} {age : Nat} {e e' : Equation} {q q' : Query} {equations : List Equation}

/-- Two cells that are met do not tie. -/
theorem ranked (h : Pursuing e q q' equations) (hs : q.frames.Sound strict)
    (hl : q.frames.Laddered age) (he : e.Reads strict q.frames) {x y : Term}
    (hx : e.Meets q.frames x) (hy : e.Meets q.frames y) : Equation.Ranked q'.frames x y := by
  rintro a m b n rfl rfl hne
  have hframe : ∀ {d k}, e.Meets q.frames (.ref d k) → (q.frames.world strict).frame d.frame :=
    fun hd => (Term.fits_ref.1 (hd.live hs he)).1
  unfold Frames.isOlder
  rw [h.reslots.ordinal, h.reslots.ordinal]
  by_cases hord : q.frames.ordinal a.frame = q.frames.ordinal b.frame
  · have heq : a.frame = b.frame := hs.eq_of_ordinal hl (hframe hx) (hframe hy) hord
    have hslot : a.slot ≠ b.slot := fun hslot => hne (by cases a; cases b; simp_all)
    simp only [hord, bne_self_eq_false, Bool.false_eq_true, if_false, ← decide_not, decide_eq_decide]
    omega
  · have hord' := Ne.symm hord
    simp only [bne_iff_ne, ne_eq, hord, hord', not_false_eq_true, if_true, ← decide_not,
      decide_eq_decide]
    omega

theorem decide_pursued (h : Pursuing e q q' (e' :: equations)) (hs : q.frames.Sound strict)
    (he : e.Reads strict q.frames) (ht : e.Thunkless q.frames) :
    (e'.decide q'.frames).Pursued e q.frames := by
  obtain ⟨hleft, hright⟩ := h.comes e' List.mem_cons_self
  have hx := h.side hleft
  have hy := h.side hright
  unfold Equation.decide
  split
  · trivial
  generalize q'.frames.side e'.left e'.leftIn = x at hx
  generalize q'.frames.side e'.right e'.rightIn = y at hy
  unfold Equation.decideSides
  split
  · trivial
  split
  · split
    · exact hx
    · exact hy
  · exact hy
  · exact hx
  · exact absurd hx (ht _)
  · exact absurd hy (ht _)
  · split
    · rename_i hcx hcy
      split
      · exact Equation.forall_between (hx.args hs he hcx) (hy.args hs he hcy)
      · trivial
    · trivial

theorem decide_flip (h : Pursuing e q q' (e' :: equations)) (hs : q.frames.Sound strict)
    (hl : q.frames.Laddered age) (he : e.Reads strict q.frames) (ht : e.Thunkless q.frames) :
    e'.flip.decide q'.frames = (e'.decide q'.frames).flip := by
  obtain ⟨hleft, hright⟩ := h.comes e' List.mem_cons_self
  have hx := h.side hleft
  have hy := h.side hright
  unfold Equation.decide
  show (if (e'.right.isWildcard || e'.left.isWildcard) = true then Verdict.solved
    else Equation.decideSides q'.frames (q'.frames.side e'.right e'.rightIn)
      (q'.frames.side e'.left e'.leftIn)) = _
  rw [Bool.or_comm]
  split
  · rfl
  · exact Equation.decideSides_flip (fun id hid => ht id (hid ▸ hx)) (fun id hid => ht id (hid ▸ hy))
      (h.ranked hs hl he hx hy)

/-- One more tentative binding. -/
theorem bind (h : Pursuing e q q' equations) (cell : Cell) {value : Term}
    (hv : e.Meets q.frames value) (pending : List Cell) :
    Pursuing e q { q' with frames := q'.frames.scratched cell value, pending := pending }
      equations where
  reslots := h.reslots.trans (.modifySlot ..)
  values c := (Frames.values_scratched q'.frames cell value c).trans (h.values c)
  scratch {c s t} hs ht := by
    rw [Frames.slot?_modifySlot_eq] at hs
    split at hs
    · obtain ⟨s₀, -, rfl⟩ := Option.map_eq_some_iff.1 hs
      cases ht
      exact hv
    · exact h.scratch hs ht
  comes := h.comes

end Act.Pursuing

namespace Act

variable {strict : Bool} {age : Nat} {e : Equation} {q q' : Query} {equations : List Equation}

/-- Solving equations the other way round, step by step, is the same. -/
theorem solveWithin_flip (hs : q.frames.Sound strict) (hl : q.frames.Laddered age)
    (he : e.Reads strict q.frames) (ht : e.Thunkless q.frames) (steps : Nat)
    (h : Pursuing e q q' equations) (env : Env) (db : Database) :
    solveWithin steps (equations.map Equation.flip) env ⟨db, q'⟩
      = solveWithin steps equations env ⟨db, q'⟩ := by
  induction steps generalizing q' equations with
  | zero => rfl
  | succ steps ih =>
    obtain _ | ⟨e', rest⟩ := equations
    · rfl
    have hpursued := h.decide_pursued hs he ht
    rw [List.map_cons, solveWithin_cons, solveWithin_cons, h.decide_flip hs hl he ht]
    cases hv : e'.decide q'.frames with
    | solved => exact ih h.rest
    | clash => rfl
    | bind cell name value =>
      rw [hv] at hpursued
      dsimp only [Verdict.flip]
      rw [bindTentatively_eq]
      by_cases hnone : (q'.frames.slot? cell).isNone
      · rw [if_pos hnone]
      · rw [if_neg hnone]
        exact ih (h.rest.bind cell hpursued _)
    | split es =>
      rw [hv] at hpursued
      dsimp only [Verdict.flip]
      rw [← List.map_append]
      exact ih (h.rest.append hpursued)
    | forceLeft | forceRight =>
      rw [hv] at hpursued
      exact hpursued.elim

/-- Solving an equation the other way round is the same. -/
theorem solve_flip (hs : q.frames.Sound strict) (hl : q.frames.Laddered age)
    (hblank : q.frames.Blank) (he : e.Reads strict q.frames) (ht : e.Thunkless q.frames) (env : Env)
    (db : Database) : solve [e.flip] env ⟨db, q⟩ = solve [e] env ⟨db, q⟩ := by
  have hsolved := solveWithin_flip hs hl he ht env.steps (.start hblank) env db
  rw [List.map_singleton] at hsolved
  simp only [solve, bind_apply, steps_apply, attempt_apply, hsolved]

/-- Unification is symmetric. A query that a session reaches rests, in
whatever phase it is; and in a query that rests, solving an equation the
other way round gives the same result and leaves the same query, with the same
cells bound tentatively in the same order to the same values, whatever the
number of steps allowed. The two sides may hold wildcards but meet no thunk. -/
theorem unification_symmetric :
    (∀ {strict : Bool} {s : Session} {q : Query} {phase : Phase}, s.Reached strict →
      (q, phase) ∈ s.queries → q.Rests strict)
    ∧ ∀ {strict : Bool} {q : Query} {e : Equation}, q.Rests strict → e.Reads strict q.frames →
      e.Thunkless q.frames → ∀ env db, solve [e.flip] env ⟨db, q⟩ = solve [e] env ⟨db, q⟩ := by
  refine ⟨fun hs hq => hs.rests hq, fun {strict q e} hrests hreads hthunks env db => ?_⟩
  obtain ⟨callee, hq, -⟩ := hrests
  exact solve_flip (q := q) hq.arena hq.orderly.frames hq.blank hreads hthunks env db

/-- In a query whose variables are `X` and `Y` the terms `f(X, b)` and
`f(a, Y)` unify both ways. -/
theorem unification_symmetric_crossing : ∃ db entry m,
    Session.Reached true ⟨db, [(Query.start entry, .running)]⟩
    ∧ solve [crossing] (Env.nested 4 0) ⟨db, Query.start entry⟩ = .ok true m
    ∧ solve [crossing.flip] (Env.nested 4 0) ⟨db, Query.start entry⟩ = .ok true m := by
  obtain ⟨db, entry, hreached, hlocals⟩ := exists_reached_pair
  have hrests := unification_symmetric.1 hreached List.mem_cons_self
  have hposes := poses_crossing hlocals
  have hreads := reads_crossing hlocals
  obtain ⟨m, hsolved⟩ := (solve_mostGeneral hrests.sound hreads hposes (Env.nested 4 0) db).1
    (fun c => if c.slot = 0 then .const (.atom "a") else .const (.atom "b")) (by simp)
    (by simp [Tree.size_node, Tree.size, Env.nested])
  have hthunks : crossing.Thunkless (Query.start entry).frames :=
    hrests.sound.arena.thunkless hreads (fun u hu => (hposes.left.clear u hu).2)
      fun u hu => (hposes.right.clear u hu).2
  refine ⟨db, entry, m, hreached, hsolved, ?_⟩
  rw [unification_symmetric.2 hrests hreads hthunks, hsolved]

end Act

end LogicMachine
