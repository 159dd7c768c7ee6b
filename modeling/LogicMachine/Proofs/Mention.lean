/-
What a term may mention.

A reference names a cell, and a closure names the frame whose slots its
template variables index. Nothing in a term says that these exist: that
is a matter of the arena the term is read in. A `World` tells which cells
and which frames may be mentioned, and `Term.Fits` that a term mentions
nothing else, its template variables being among those allowed too. Every
invariant of the machine that speaks of terms is stated through it.

Two worlds are of interest. In the world of an arena (`Proofs/Arena`) only
what is live may be mentioned; in `World.all` everything may, and fitting
it says no more than that the term is put together as terms are: a
compound that is called plain mentions no variable, and no variable but
the wildcard is written with an underscore.
-/
import LogicMachine.Code

namespace LogicMachine

/-- The cells and the frames that a term may mention, and the template
variables that one may have which is read in no frame. -/
structure World where
  cell : Cell → Prop
  frame : FrameId → Prop
  raw : Nat → Prop

namespace World

/-- Everything may be mentioned. -/
def all : World := ⟨fun _ => True, fun _ => True, fun _ => True⟩

/-- Nothing may be mentioned: the world of terms free of frames. -/
def none : World := ⟨fun _ => False, fun _ => False, fun _ => False⟩

/-- One world allows what the other does. -/
structure Le (w w' : World) : Prop where
  cell : ∀ c, w.cell c → w'.cell c
  frame : ∀ f, w.frame f → w'.frame f
  raw : ∀ i, w.raw i → w'.raw i

theorem Le.refl (w : World) : w.Le w := ⟨fun _ h => h, fun _ h => h, fun _ h => h⟩

theorem Le.trans {w₁ w₂ w₃ : World} (h₁ : w₁.Le w₂) (h₂ : w₂.Le w₃) : w₁.Le w₃ :=
  ⟨fun c h => h₂.cell c (h₁.cell c h), fun f h => h₂.frame f (h₁.frame f h),
    fun i h => h₂.raw i (h₁.raw i h)⟩

theorem none_le (w : World) : none.Le w :=
  ⟨fun _ h => h.elim, fun _ h => h.elim, fun _ h => h.elim⟩

theorem le_all (w : World) : w.Le all :=
  ⟨fun _ _ => trivial, fun _ _ => trivial, fun _ _ => trivial⟩

/-- The template variables that stand for existing slots of a frame. -/
def slotsOf (w : World) (frame : FrameId) : Nat → Prop := fun i => w.cell ⟨frame, i⟩

end World

/-- Every template variable is allowed. -/
def anyVars : Nat → Prop := fun _ => True

-- ================================================== terms that fit a world

namespace Term

mutual

/-- The term mentions cells and frames of the world only, and template
variables only of the given numbers. -/
def Fits (w : World) : (Nat → Prop) → Term → Prop
  | vars, .var v => v = .wildcard ∨ (v.name ≠ "_" ∧ vars v.number)
  | _, .ref cell _ => w.cell cell
  | vars, .compound form _ args =>
    (form = .plain → args.all isPlain = true) ∧ FitsAll w vars args
  | _, .closure _ _ args home => w.frame home ∧ FitsAll w (w.slotsOf home) args
  | _, .atom _ | _, .number _ | _, .host _ | _, .thunk _ => True

def FitsAll (w : World) : (Nat → Prop) → List Term → Prop
  | _, [] => True
  | vars, t :: ts => Fits w vars t ∧ FitsAll w vars ts

end

theorem fitsAll_iff {w : World} {vars : Nat → Prop} {ts : List Term} :
    FitsAll w vars ts ↔ ∀ t ∈ ts, t.Fits w vars := by
  induction ts with
  | nil => simp [FitsAll]
  | cons t ts ih => simp [FitsAll, ih]

@[simp] theorem fits_atom {w : World} {vars : Nat → Prop} {name : String} :
    (Term.atom name).Fits w vars := trivial

@[simp] theorem fits_number {w : World} {vars : Nat → Prop} {n : Number} :
    (Term.number n).Fits w vars := trivial

@[simp] theorem fits_host {w : World} {vars : Nat → Prop} {id : Nat} :
    (Term.host id).Fits w vars := trivial

@[simp] theorem fits_thunk {w : World} {vars : Nat → Prop} {id : Nat} :
    (Term.thunk id).Fits w vars := trivial

theorem isWildcard_iff {t : Term} : t.isWildcard = true ↔ t = .var .wildcard := by
  unfold isWildcard
  split <;> simp_all

@[simp] theorem fits_wildcard {w : World} {vars : Nat → Prop} :
    (Term.var .wildcard).Fits w vars := .inl rfl

@[simp] theorem fits_ref {w : World} {vars : Nat → Prop} {cell : Cell} {name : String} :
    (Term.ref cell name).Fits w vars ↔ w.cell cell := Iff.rfl

theorem fits_var {w : World} {vars : Nat → Prop} {v : Var} :
    (Term.var v).Fits w vars ↔ v = .wildcard ∨ (v.name ≠ "_" ∧ vars v.number) :=
  Iff.rfl

@[simp] theorem fits_int {w : World} {vars : Nat → Prop} {i : Int64} :
    (Term.int i).Fits w vars := fits_number

@[simp] theorem fits_ofNat {w : World} {vars : Nat → Prop} {n : Nat} :
    (Term.ofNat n).Fits w vars := fits_number

theorem fits_compound {w : World} {vars : Nat → Prop} {form : Form} {name : String}
    {args : List Term} :
    (Term.compound form name args).Fits w vars
      ↔ (form = .plain → args.all isPlain = true) ∧ ∀ a ∈ args, a.Fits w vars :=
  and_congr_right fun _ => fitsAll_iff

theorem fits_closure {w : World} {vars : Nat → Prop} {serial : Nat} {name : String}
    {args : List Term} {home : FrameId} :
    (Term.closure serial name args home).Fits w vars
      ↔ w.frame home ∧ ∀ a ∈ args, a.Fits w (w.slotsOf home) :=
  and_congr_right fun _ => fitsAll_iff

mutual

/-- A term still fits when more may be mentioned. -/
theorem Fits.mono {w w' : World} (hw : w.Le w') : {vars vars' : Nat → Prop} → {t : Term} →
    (∀ i, vars i → vars' i) → t.Fits w vars → t.Fits w' vars'
  | _, _, .var _, hv, h => by
    rw [Fits] at h ⊢
    exact h.imp_right fun ⟨hn, hi⟩ => ⟨hn, hv _ hi⟩
  | _, _, .ref _ _, _, h => by
    rw [Fits] at h ⊢
    exact hw.cell _ h
  | _, _, .compound _ _ _, hv, h => by
    rw [Fits] at h ⊢
    exact ⟨h.1, FitsAll.mono hw hv h.2⟩
  | _, _, .closure _ _ _ _, _, h => by
    rw [Fits] at h ⊢
    exact ⟨hw.frame _ h.1, FitsAll.mono hw (fun _ hc => hw.cell _ hc) h.2⟩
  | _, _, .atom _, _, _ | _, _, .number _, _, _ | _, _, .host _, _, _
  | _, _, .thunk _, _, _ => by rw [Fits]; trivial

theorem FitsAll.mono {w w' : World} (hw : w.Le w') : {vars vars' : Nat → Prop} →
    {ts : List Term} → (∀ i, vars i → vars' i) → FitsAll w vars ts → FitsAll w' vars' ts
  | _, _, [], _, _ => by rw [FitsAll]; trivial
  | _, _, _ :: _, hv, h => by
    rw [FitsAll] at h ⊢
    exact ⟨Fits.mono hw hv h.1, FitsAll.mono hw hv h.2⟩

end

mutual

/-- A plain term mentions nothing, so it fits every world. -/
theorem Fits.of_isPlain {w w' : World} : {vars vars' : Nat → Prop} → {t : Term} →
    t.isPlain = true → t.Fits w vars → t.Fits w' vars'
  | _, _, .var v, hp, _ => by
    cases v with
    | wildcard => exact fits_wildcard
    | named _ => simp [isPlain] at hp
    | slot _ _ => simp [isPlain] at hp
  | _, _, .compound form _ args, hp, h => by
    cases form with
    | template _ => simp [isPlain] at hp
    | plain =>
      rw [Fits] at h ⊢
      exact ⟨h.1, FitsAll.of_isPlain (h.1 rfl) h.2⟩
  | _, _, .ref _ _, hp, _ | _, _, .closure _ _ _ _, hp, _ => by simp [isPlain] at hp
  | _, _, .atom _, _, _ | _, _, .number _, _, _ | _, _, .host _, _, _
  | _, _, .thunk _, _, _ => by rw [Fits]; trivial

theorem FitsAll.of_isPlain {w w' : World} : {vars vars' : Nat → Prop} → {ts : List Term} →
    ts.all isPlain = true → FitsAll w vars ts → FitsAll w' vars' ts
  | _, _, [], _, _ => by rw [FitsAll]; trivial
  | _, _, _ :: _, hp, h => by
    rw [List.all_cons, Bool.and_eq_true] at hp
    rw [FitsAll] at h ⊢
    exact ⟨Fits.of_isPlain hp.1 h.1, FitsAll.of_isPlain hp.2 h.2⟩

end

mutual

/-- A term that has none of certain variables anywhere fits without them.
-/
theorem Fits.narrow {w : World} {vars vars' : Nat → Prop} : {t : Term} → t.Fits w vars →
    t.Fits .all vars' → t.Fits w vars'
  | .var _, h, h' => by
    rw [Fits] at h' ⊢
    exact h'
  | .ref _ _, h, _ => by
    rw [Fits] at h ⊢
    exact h
  | .compound _ _ _, h, h' => by
    rw [Fits] at h h' ⊢
    exact ⟨h.1, FitsAll.narrow h.2 h'.2⟩
  | .closure _ _ _ _, h, _ => by
    rw [Fits] at h ⊢
    exact h
  | .atom _, _, _ | .number _, _, _ | .host _, _, _ | .thunk _, _, _ => by rw [Fits]; trivial

theorem FitsAll.narrow {w : World} {vars vars' : Nat → Prop} : {ts : List Term} →
    FitsAll w vars ts → FitsAll .all vars' ts → FitsAll w vars' ts
  | [], _, _ => by rw [FitsAll]; trivial
  | _ :: _, h, h' => by
    rw [FitsAll] at h h' ⊢
    exact ⟨Fits.narrow h.1 h'.1, FitsAll.narrow h.2 h'.2⟩

end

/-- A term free of frames and variables fits every world. -/
theorem Fits.of_none {w : World} {vars vars' : Nat → Prop} {t : Term} (h : t.Fits .none vars)
    (hv : ∀ i, vars i → vars' i) : t.Fits w vars' :=
  h.mono w.none_le hv

/-- Whatever a term may mention, it is put together as terms are. -/
theorem Fits.wellMade {w : World} {vars : Nat → Prop} {t : Term} (h : t.Fits w vars) :
    t.Fits .all anyVars :=
  h.mono w.le_all fun _ _ => trivial

-- ================================================== pairing with a frame

/-- A template that fits a frame, paired with it, mentions no template
variable any more. -/
theorem Fits.bindTo {w : World} {vars vars' : Nat → Prop} {frame : FrameId} {t : Term}
    (h : t.Fits w vars) (hf : w.frame frame) (hv : ∀ i, vars i → w.slotsOf frame i) :
    (t.bindTo frame).Fits w vars' := by
  cases t with
  | var v =>
    cases v with
    | wildcard => exact fits_wildcard
    | named n =>
      rw [Fits] at h
      obtain h | ⟨-, hi⟩ := h
      · cases h
      · exact fits_ref.2 (hv _ hi)
    | slot i n =>
      rw [Fits] at h
      obtain h | ⟨-, hi⟩ := h
      · cases h
      · exact fits_ref.2 (hv _ hi)
  | compound form name args =>
    cases form with
    | plain => exact h.of_isPlain rfl
    | template serial =>
      rw [fits_compound] at h
      exact fits_closure.2 ⟨hf, fun a ha => (h.2 a ha).mono (.refl w) hv⟩
  | ref cell name => exact fits_ref.2 (fits_ref.1 h)
  | closure serial name args home => exact fits_closure.2 (fits_closure.1 h)
  | atom _ => exact fits_atom
  | number _ => exact fits_number
  | host _ => exact fits_host
  | thunk _ => exact fits_thunk

-- ================================================== parts of a term

/-- The arguments of a term, paired with its frame, fit where it does. -/
theorem Fits.args {w : World} {vars : Nat → Prop} {t : Term} (h : t.Fits w vars) :
    ∀ a ∈ t.args, a.Fits w vars := by
  intro a ha
  cases t with
  | compound form name args => exact (fits_compound.1 h).2 a ha
  | closure serial name args home =>
    obtain ⟨b, hb, rfl⟩ := List.mem_map.1 ha
    obtain ⟨hf, hargs⟩ := fits_closure.1 h
    exact (hargs b hb).bindTo hf fun _ hi => hi
  | _ => simp [Term.args] at ha

theorem Fits.arg? {w : World} {vars : Nat → Prop} {t a : Term} {i : Nat} (h : t.Fits w vars)
    (ha : t.arg? i = some a) : a.Fits w vars := by
  rw [arg?_eq_getElem?] at ha
  exact h.args a (List.mem_of_getElem? ha)

/-- What `split` takes apart are the arguments. -/
theorem args_of_split {t l r : Term} {name : String} (h : t.split name = some (l, r)) :
    t.args = [l, r] := by
  unfold split at h
  split at h
  · split at h
    · cases h
      rfl
    · cases h
  · split at h
    · cases h
      rfl
    · cases h
  · cases h

theorem Fits.split {w : World} {vars : Nat → Prop} {t l r : Term} {name : String}
    (h : t.Fits w vars) (hs : t.split name = some (l, r)) :
    l.Fits w vars ∧ r.Fits w vars := by
  have hargs := args_of_split hs
  exact ⟨h.args l (by simp [hargs]), h.args r (by simp [hargs])⟩

/-- The template of a closure fits the slots of its frame. -/
theorem Fits.template {w : World} {serial : Nat} {name : String} {args : List Term}
    {vars : Nat → Prop} {home : FrameId} (h : (Term.closure serial name args home).Fits w vars) :
    (Term.compound (.template serial) name args).Fits w (w.slotsOf home) :=
  fits_compound.2 ⟨fun h => (nomatch h), (fits_closure.1 h).2⟩

/-- A compound made of terms that fit does. -/
theorem fits_build {w : World} {vars : Nat → Prop} {serial : Nat} {name : String}
    {args : List Term} (h : ∀ a ∈ args, a.Fits w vars) : (build serial name args).Fits w vars := by
  unfold build
  split
  · exact fits_atom
  · refine fits_compound.2 ⟨fun hp => ?_, h⟩
    split at hp
    · assumption
    · cases hp

@[simp] theorem anonymize_plain (name : String) (args : List Term) :
    (Term.compound .plain name args).anonymize = .compound .plain name args := by
  simp [Term.anonymize]

mutual

theorem Fits.anonymize {w : World} : {vars vars' : Nat → Prop} → {t : Term} → t.Fits w vars →
    t.anonymize.Fits w vars'
  | _, _, .var _, _ => by rw [Term.anonymize]; exact fits_wildcard
  | _, _, .compound .plain _ _, h => by
    rw [anonymize_plain]
    exact h.of_isPlain rfl
  | _, _, .compound (.template _) _ _, h => by
    rw [Term.anonymize]
    rw [Fits] at h
    exact fits_build (fitsAll_iff.1 (FitsAll.anonymize h.2))
  | _, _, .ref _ _, h => fits_ref.2 (fits_ref.1 h)
  | _, _, .closure _ _ _ _, h => fits_closure.2 (fits_closure.1 h)
  | _, _, .atom _, _ | _, _, .number _, _ | _, _, .host _, _ | _, _, .thunk _, _ => by
    simp [Term.anonymize]

theorem FitsAll.anonymize {w : World} : {vars vars' : Nat → Prop} → {ts : List Term} →
    FitsAll w vars ts → FitsAll w vars' (anonymizeAll ts)
  | _, _, [], _ => by rw [anonymizeAll, FitsAll]; trivial
  | _, _, _ :: _, h => by
    rw [FitsAll] at h
    rw [anonymizeAll, FitsAll]
    exact ⟨Fits.anonymize h.1, FitsAll.anonymize h.2⟩

end

-- ================================================== terms that are the same

/-- A variable that is the same as another is allowed where that one is. -/
theorem var_fits_of_same {w : World} {vars : Nat → Prop} {a b : Var} (hs : a.same b = true)
    (ha : (Term.var a).Fits .all anyVars) (hb : (Term.var b).Fits w vars) :
    (Term.var a).Fits w vars := by
  simp only [Var.same, Bool.and_eq_true, beq_iff_eq] at hs
  rw [Fits] at ha hb ⊢
  obtain ha | ⟨hn, -⟩ := ha
  · exact .inl ha
  · obtain rfl | ⟨-, hi⟩ := hb
    · exact absurd hs.2 hn
    · exact .inr ⟨hn, hs.1 ▸ hi⟩

mutual

/-- A term that is the same as one that fits, serial numbers aside, fits
as well. -/
theorem Fits.of_same {w : World} : {vars : Nat → Prop} → {a b : Term} → a.same b = true →
    a.Fits .all anyVars → b.Fits w vars → a.Fits w vars
  | _, .var _, b, hs, ha, hb => by
    cases b <;> simp only [Term.same, Bool.false_eq_true] at hs
    exact var_fits_of_same hs ha hb
  | _, .ref _ _, b, hs, _, hb => by
    cases b <;> simp only [Term.same, Bool.false_eq_true, beq_iff_eq] at hs
    rw [hs]
    exact fits_ref.2 (fits_ref.1 hb)
  | _, .compound _ _ _, b, hs, ha, hb => by
    cases b <;> simp only [Term.same, Bool.false_eq_true, Bool.and_eq_true] at hs
    rw [Fits] at ha hb ⊢
    exact ⟨ha.1, FitsAll.of_same hs.2 ha.2 hb.2⟩
  | _, .closure _ _ args home, b, hs, ha, hb => by
    cases b <;> simp only [Term.same, Bool.false_eq_true, Bool.and_eq_true, beq_iff_eq] at hs
    obtain ⟨⟨rfl, -⟩, hs⟩ := hs
    rw [Fits] at ha hb ⊢
    exact ⟨hb.1, FitsAll.of_same hs (FitsAll.mono (.refl _) (fun _ _ => trivial) ha.2) hb.2⟩
  | _, .atom _, _, _, _, _ | _, .number _, _, _, _, _ | _, .host _, _, _, _, _
  | _, .thunk _, _, _, _, _ => by rw [Fits]; trivial

theorem FitsAll.of_same {w : World} : {vars : Nat → Prop} → {as bs : List Term} →
    sameAll as bs = true → FitsAll .all anyVars as → FitsAll w vars bs → FitsAll w vars as
  | _, [], _, _, _, _ => by rw [FitsAll]; trivial
  | _, _ :: _, [], hs, _, _ => by simp [sameAll] at hs
  | _, _ :: _, _ :: _, hs, ha, hb => by
    rw [sameAll, Bool.and_eq_true] at hs
    rw [FitsAll] at ha hb ⊢
    exact ⟨Fits.of_same hs.1 ha.1 hb.1, FitsAll.of_same hs.2 ha.2 hb.2⟩

end

end Term

-- ================================================== code that fits a world

mutual

/-- The terms in the code fit, its template variables being slots of the
frame that runs it. -/
def Code.Fits (w : World) (vars : Nat → Prop) : Code → Prop
  | .succeed | .fail => True
  | .choice _ branches => Code.FitsAll w vars branches
  | .cut _ next => Code.Fits w vars next
  | .call target args next =>
    Target.Fits w target ∧ (∀ a ∈ args, a.Fits w vars) ∧ Code.Fits w vars next
  | .noop next => Code.Fits w vars next

def Code.FitsAll (w : World) (vars : Nat → Prop) : List Code → Prop
  | [] => True
  | c :: cs => Code.Fits w vars c ∧ Code.FitsAll w vars cs

def Target.Fits (w : World) : Target → Prop
  | .table _ _ => True
  | .procedure p => Procedure.Fits w p

/-- A clause is free of frames, whatever the world. A host procedure that
fails for good, in words of its own, is not among those that fit. -/
def Procedure.Fits (w : World) : Procedure → Prop
  | .clause c => Clause.Fits c
  | .collect template _ => template.Fits w w.raw
  | .shield target => Procedure.Fits w target
  | .direct builtin => builtin ≠ .fatal
  | .framed builtin => ∀ name, builtin ≠ .uninvokable name
  | .call => True

/-- The clause mentions no frame, and no variable beyond its own. -/
def Clause.Fits : Clause → Prop
  | ⟨_, _, head, body, args, code, names⟩ =>
    head.Fits .none (· < names.length) ∧ body.Fits .none (· < names.length)
      ∧ (∀ a ∈ args, a.Fits .none (· < names.length)) ∧ Code.Fits .none (· < names.length) code

end

theorem Clause.fits_iff {c : Clause} :
    c.Fits ↔ c.head.Fits .none (· < c.locals) ∧ c.body.Fits .none (· < c.locals)
      ∧ (∀ a ∈ c.args, a.Fits .none (· < c.locals)) ∧ c.code.Fits .none (· < c.locals) := by
  cases c
  exact Iff.rfl

namespace Code

theorem fitsAll_iff {w : World} {vars : Nat → Prop} {cs : List Code} :
    FitsAll w vars cs ↔ ∀ c ∈ cs, c.Fits w vars := by
  induction cs with
  | nil => simp [FitsAll]
  | cons c cs ih => simp [FitsAll, ih]

@[simp] theorem fits_succeed {w : World} {vars : Nat → Prop} : Code.succeed.Fits w vars :=
  trivial

@[simp] theorem fits_fail {w : World} {vars : Nat → Prop} : Code.fail.Fits w vars :=
  trivial

@[simp] theorem fits_ofBool {w : World} {vars : Nat → Prop} (b : Bool) :
    (ofBool b).Fits w vars := by
  cases b <;> simp [ofBool]

theorem fits_choice {w : World} {vars : Nat → Prop} {scope : Option Nat} {cs : List Code} :
    (Code.choice scope cs).Fits w vars ↔ ∀ c ∈ cs, c.Fits w vars :=
  fitsAll_iff

@[simp] theorem fits_cut {w : World} {vars : Nat → Prop} {scope : Option Nat} {next : Code} :
    (Code.cut scope next).Fits w vars ↔ next.Fits w vars :=
  Iff.rfl

@[simp] theorem fits_noop {w : World} {vars : Nat → Prop} {next : Code} :
    (Code.noop next).Fits w vars ↔ next.Fits w vars :=
  Iff.rfl

theorem fits_call {w : World} {vars : Nat → Prop} {target : Target} {args : List Term}
    {next : Code} :
    (Code.call target args next).Fits w vars
      ↔ target.Fits w ∧ (∀ a ∈ args, a.Fits w vars) ∧ next.Fits w vars :=
  Iff.rfl

end Code

mutual

theorem Code.Fits.mono {w w' : World} {vars vars' : Nat → Prop} (hw : w.Le w')
    (hv : ∀ i, vars i → vars' i) : {c : Code} → c.Fits w vars → c.Fits w' vars'
  | .succeed, _ | .fail, _ => by rw [Code.Fits]; trivial
  | .choice _ _, h => by
    rw [Code.Fits] at h ⊢
    exact Code.FitsAll.mono hw hv h
  | .cut _ _, h | .noop _, h => by
    rw [Code.Fits] at h ⊢
    exact Code.Fits.mono hw hv h
  | .call _ _ _, h => by
    rw [Code.Fits] at h ⊢
    exact ⟨Target.Fits.mono hw h.1, fun a ha => (h.2.1 a ha).mono hw hv,
      Code.Fits.mono hw hv h.2.2⟩

theorem Code.FitsAll.mono {w w' : World} {vars vars' : Nat → Prop} (hw : w.Le w')
    (hv : ∀ i, vars i → vars' i) : {cs : List Code} → Code.FitsAll w vars cs →
    Code.FitsAll w' vars' cs
  | [], _ => by rw [Code.FitsAll]; trivial
  | _ :: _, h => by
    rw [Code.FitsAll] at h ⊢
    exact ⟨Code.Fits.mono hw hv h.1, Code.FitsAll.mono hw hv h.2⟩

theorem Target.Fits.mono {w w' : World} (hw : w.Le w') : {t : Target} → t.Fits w → t.Fits w'
  | .table _ _, _ => by rw [Target.Fits]; trivial
  | .procedure _, h => by
    rw [Target.Fits] at h ⊢
    exact Procedure.Fits.mono hw h

theorem Procedure.Fits.mono {w w' : World} (hw : w.Le w') : {p : Procedure} → p.Fits w →
    p.Fits w'
  | .clause _, h => by
    rw [Procedure.Fits] at h ⊢
    exact h
  | .collect _ _, h => by
    rw [Procedure.Fits] at h ⊢
    exact h.mono hw hw.raw
  | .shield _, h => by
    rw [Procedure.Fits] at h ⊢
    exact Procedure.Fits.mono hw h
  | .direct _, h | .framed _, h => by
    rw [Procedure.Fits] at h ⊢
    exact h
  | .call, _ => by rw [Procedure.Fits]; trivial

end

end LogicMachine
