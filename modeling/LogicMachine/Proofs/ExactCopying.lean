/-
Copies are exact.

A copy has the shape of the term, under one renaming of its variables: they are
numbered in the order in which they are met (`Copies`). A copier that goes from
term to term keeps the variables it has met, and of each compound it has come
across the copy. That a compound is found there is no sign of a cycle: it may have
been finished before. What the copier keeps is right unless the compound is one
that is being copied (`Copier.Faithful`); and such a compound leads to the term at
hand, so where the ways down end it is not met again.

On any terms copying ends: further cells than the ones allowed are never come to
(`Frames.Sound.copyWithin_eq_copy`). What holds of copies in the arenas that are
reached is put together at the end (`Session.Reached.copies_exactly`).
-/
import LogicMachine.Proofs.Shapes
import LogicMachine.Proofs.StandardOrder

namespace LogicMachine

-- ================================================== copies of a shape

theorem forall_mem_of_forall₂ {α β : Type} {R : α → β → Prop} {P : β → Prop} {as : List α}
    {bs : List β} (h : List.Forall₂ R as bs) (hP : ∀ a b, R a b → P b) : ∀ b ∈ bs, P b := by
  induction h with
  | nil => simp
  | cons hab _ ih => exact List.forall_mem_cons.2 ⟨hP _ _ hab, ih⟩

/-- A compound that is made of terms has the shapes of these below it. -/
theorem Frames.Shows.build {fs : Frames} {name : String} {args : List Term} {ss : List Shape}
    (h : List.Forall₂ fs.Shows args ss) (serial : Nat) :
    fs.Shows (Term.build serial name args) (.node name ss) := by
  unfold Term.build
  split
  · rename_i hnil
    rw [List.isEmpty_iff] at hnil
    subst hnil
    cases h
    exact .atom name
  · have hargs : List.Forall₂ (fun a s => fs.Shows (a.bindIn none) s) args ss := h
    exact (Frames.shows_compound rfl).2 ⟨_, rfl, hargs⟩

/-- A term that mentions no variable has the same shape in every arena. -/
theorem Frames.Shows.of_plain {fs : Frames} {t : Term} {s : Shape} (h : fs.Shows t s)
    (ht : t.Fits .none fun _ => False) : s.vars = [] ∧ ∀ other : Frames, other.Shows t s := by
  induction h with
  | const hc => exact ⟨Shape.vars_const _, fun _ => .const hc⟩
  | atom name => exact ⟨by simp, fun _ => .atom name⟩
  | bare hk =>
    obtain rfl | ⟨-, hv⟩ := Term.fits_var.1 ht
    · cases hk
    · cases hv
  | unbound => exact (Term.fits_ref.1 ht).elim
  | bound => exact (Term.fits_ref.1 ht).elim
  | @node t name args home ss hc hlen _ ih =>
    cases t with
    | compound form _ _ =>
      cases hc
      have hargs : List.Forall₂ (fun a s => s.vars = [] ∧ ∀ other : Frames, other.Shows a s)
          args ss := List.forall₂_iff_zip.2 ⟨hlen, fun hm =>
        ih _ _ hm ((Term.fits_compound.1 ht).2 _ (List.of_mem_zip hm).1)⟩
      refine ⟨?_, fun other => (shows_compound rfl).2 ⟨ss, rfl, hargs.imp fun _ _ h => h.2 other⟩⟩
      rw [Shape.vars_node, List.flatMap_eq_nil_iff]
      exact forall_mem_of_forall₂ hargs fun _ _ h => h.1
    | closure serial _ _ home => exact (Term.fits_closure.1 ht).1.elim
    | _ => cases hc

/-- What the copier keeps of a variable. -/
def Variable.key : Variable → CopyKey
  | .cell c => .cell c
  | .slot i => .slot i
  | .named n => .named n

theorem Variable.key_inj {v w : Variable} : v.key = w.key ↔ v = w := by
  cases v <;> cases w <;> simp [key]

/-- The variable with a number that the copier makes. -/
def fresh (number : Nat) : Term := .var (.slot number ("_G" ++ toString number))

/-- Each variable of a list by its place in the list, counted from `low`. -/
def numbering (low : Nat) (vs : List Variable) (v : Variable) : Variable :=
  .slot (low + vs.idxOf v)

theorem numbering_of_prefix {low : Nat} {vs vs' : List Variable} (h : vs <+: vs') {v : Variable}
    (hv : v ∈ vs) : numbering low vs' v = numbering low vs v := by
  obtain ⟨ws, rfl⟩ := h
  rw [numbering, numbering, List.idxOf_append_of_mem hv]

/-- A copy of a shape whose variables are numbered by a list: in every arena it
has the same shape with the numbers for its variables. -/
structure Copies (low : Nat) (vs : List Variable) (s : Shape) (copy : Term) : Prop where
  vars : ∀ v ∈ s.vars, v ∈ vs
  shows : ∀ fs : Frames, fs.Shows copy (s.rename (numbering low vs))

namespace Copies

variable {low : Nat} {vs vs' : List Variable} {s : Shape} {copy : Term}

theorem mono (h : Copies low vs s copy) (hvs : vs <+: vs') : Copies low vs' s copy := by
  refine ⟨fun v hv => hvs.subset (h.vars v hv), fun fs => ?_⟩
  rw [Shape.rename_congr s fun v hv => numbering_of_prefix hvs (h.vars v hv)]
  exact h.shows fs

theorem vars_of_forall₂ {ss : List Shape} {copies : List Term}
    (h : List.Forall₂ (Copies low vs) ss copies) : ∀ v ∈ ss.flatMap Shape.vars, v ∈ vs := by
  induction h with
  | nil => simp
  | cons h _ ih =>
    rw [List.flatMap_cons, List.forall_mem_append]
    exact ⟨h.vars, ih⟩

theorem build {name : String} {ss : List Shape} {copies : List Term}
    (h : List.Forall₂ (Copies low vs) ss copies) (serial : Nat) :
    Copies low vs (.node name ss) (Term.build serial name copies) := by
  refine ⟨fun v hv => ?_, fun fs => ?_⟩
  · rw [Shape.vars_node] at hv
    exact vars_of_forall₂ h v hv
  · rw [Shape.rename_node]
    refine Frames.Shows.build ?_ serial
    rw [List.forall₂_map_right_iff]
    exact h.flip.imp fun _ _ hc => hc.shows fs

end Copies

/-- A term that mentions no variable is a copy of itself. -/
theorem Copies.of_plain {fs : Frames} {low : Nat} {vs : List Variable} {t : Term} {s : Shape}
    (h : fs.Shows t s) (ht : t.Fits .none fun _ => False) : Copies low vs s t ∧ s.vars = [] := by
  obtain ⟨hvars, hshows⟩ := h.of_plain ht
  refine ⟨⟨fun v hv => ?_, fun other => ?_⟩, hvars⟩
  · rw [hvars] at hv
    cases hv
  · rw [Shape.rename_of_vars_eq_nil hvars]
    exact hshows other

-- ================================================== the state of a copier

theorem Term.copyKey?_inj {t u : Term} {k : CopyKey} (ht : t.copyKey? = some k)
    (hu : u.copyKey? = some k) : t = u := by
  unfold Term.copyKey? at ht hu
  split at ht <;> cases ht <;> split at hu <;> cases hu <;> rfl

theorem Term.copyKey?_ne_key {t : Term} {k : CopyKey} (ht : t.copyKey? = some k) (v : Variable) :
    k ≠ v.key := by
  unfold Term.copyKey? at ht
  split at ht <;> cases ht <;> cases v <;> exact nofun

namespace Copier

/-- A copier that has met the variables keeps their copies, and right copies of
compounds, but for those that are still being copied. -/
structure Faithful (fs : Frames) (low : Nat) (above : Term → Prop) (vs : List Variable)
    (c : Copier) : Prop where
  next : c.next = low + vs.length
  nodup : vs.Nodup
  met : ∀ v : Variable,
    c.seen[v.key]? = if v ∈ vs then some (fresh (low + vs.idxOf v)) else none
  kept : ∀ {t : Term} {k : CopyKey} {copy : Term}, t.copyKey? = some k →
    c.seen[k]? = some copy → above t ∨ ∀ s, fs.Shows t s → Copies low vs s copy

/-- A shape was copied, and the variables in it were met. -/
structure CopiedAs (fs : Frames) (low : Nat) (above : Term → Prop) (vs : List Variable) (s : Shape)
    (r : Term × Copier) : Prop where
  faithful : r.2.Faithful fs low above (note vs s.vars)
  copy : Copies low (note vs s.vars) s r.1

/-- The same of several shapes. -/
structure CopiedAllAs (fs : Frames) (low : Nat) (above : Term → Prop) (vs : List Variable)
    (ss : List Shape) (r : List Term × Copier) : Prop where
  faithful : r.2.Faithful fs low above (note vs (ss.flatMap Shape.vars))
  copies : List.Forall₂ (Copies low (note vs (ss.flatMap Shape.vars))) ss r.1

variable {fs : Frames} {low : Nat} {above : Term → Prop} {vs : List Variable} {c : Copier}

/-- One shape is copied, and then several. -/
theorem CopiedAs.cons {s : Shape} {ss : List Shape} {r : Term × Copier} {rs : List Term × Copier}
    (h : CopiedAs fs low above vs s r) (hs : CopiedAllAs fs low above (note vs s.vars) ss rs) :
    CopiedAllAs fs low above vs (s :: ss) (r.1 :: rs.1, rs.2) := by
  obtain ⟨hfaithful, hcopies⟩ := hs
  rw [← note_append, ← List.flatMap_cons] at hfaithful hcopies
  refine ⟨hfaithful, .cons (h.copy.mono ?_) hcopies⟩
  rw [List.flatMap_cons, note_append]
  exact prefix_note

/-- A term without variables is its own copy. -/
theorem Faithful.self (h : c.Faithful fs low above vs) {t : Term} {s : Shape} (hs : fs.Shows t s)
    (ht : t.Fits .none fun _ => False) : CopiedAs fs low above vs s (t, c) := by
  obtain ⟨hcopy, hvars⟩ : Copies low vs s t ∧ s.vars = [] := Copies.of_plain hs ht
  have hnote : note vs s.vars = vs := by rw [hvars, note_empty]
  exact ⟨hnote.symm ▸ h, hnote.symm ▸ hcopy⟩

theorem Faithful.freshFor (h : c.Faithful fs low above vs) (v : Variable) :
    CopiedAs fs low above vs (.var v) (c.freshFor v.key) := by
  have hcopy : ∀ {vs : List Variable}, v ∈ vs →
      Copies low vs (.var v) (fresh (low + vs.idxOf v)) := fun hv =>
    ⟨by simpa using hv, fun fs => by
      rw [Shape.rename_var]
      exact .bare rfl⟩
  unfold Copier.freshFor
  rw [h.met v]
  by_cases hv : v ∈ vs
  · have hnote : note vs (Shape.var v).vars = vs := note_of_subset (by simpa using hv)
    rw [if_pos hv]
    exact ⟨hnote.symm ▸ h, hnote.symm ▸ hcopy hv⟩
  · have hnote : note vs (Shape.var v).vars = vs ++ [v] := by
      rw [Shape.vars_var, note_cons, if_neg hv, note_empty]
    have hnumber : c.next = low + (vs ++ [v]).idxOf v := by
      rw [h.next, List.idxOf_append_of_notMem hv]
      simp
    rw [if_neg hv]
    refine ⟨hnote.symm ▸ ⟨?_, ?_, fun w => ?_, fun {u k copy} hu hk => ?_⟩, hnote.symm ▸ ?_⟩
    · show c.next + 1 = _
      rw [h.next, List.length_append, List.length_singleton, Nat.add_assoc]
    · exact hnote ▸ nodup_note h.nodup
    · show (c.seen.insert v.key (fresh c.next))[w.key]? = _
      rw [Std.HashMap.getElem?_insert]
      by_cases hw : v = w
      · subst hw
        have hmem : v ∈ vs ++ [v] := List.mem_append_right _ (List.mem_singleton_self v)
        rw [if_pos (beq_self_eq_true _), if_pos hmem, hnumber]
      · rw [if_neg (fun he => hw (Variable.key_inj.1 (eq_of_beq he))), h.met w]
        by_cases hmem : w ∈ vs
        · rw [if_pos hmem, if_pos (List.mem_append_left _ hmem), List.idxOf_append_of_mem hmem]
        · have hnot : w ∉ vs ++ [v] := by simp [hmem, Ne.symm hw]
          rw [if_neg hmem, if_neg hnot]
    · replace hk : (c.seen.insert v.key (fresh c.next))[k]? = some copy := hk
      rw [Std.HashMap.getElem?_insert,
        if_neg (fun he => Term.copyKey?_ne_key hu v (eq_of_beq he).symm)] at hk
      exact (h.kept hu hk).imp_right fun hcopy s hs => (hcopy s hs).mono (List.prefix_append ..)
    · exact hnumber ▸ hcopy (List.mem_append_right _ (List.mem_singleton_self v))

/-- A compound is copied if its arguments are, the compound counting as one that
is being copied. -/
theorem Faithful.compound (h : c.Faithful fs low above vs) {t : Term} {key : CopyKey}
    {name : String} {ss : List Shape} {args : Copier → List Term × Copier}
    (hkey : t.copyKey? = some key) (hs : fs.Shows t (.node name ss)) (hnot : ¬ above t)
    (hargs : ∀ c', c'.Faithful fs low (fun u => above u ∨ u = t) vs →
      CopiedAllAs fs low (fun u => above u ∨ u = t) vs ss (args c')) :
    CopiedAs fs low above vs (.node name ss) (c.compound key name args) := by
  unfold Copier.compound
  split
  · rename_i copy hseen
    have hcopy := (h.kept hkey hseen).resolve_left hnot _ hs
    have hnote : note vs (Shape.node name ss).vars = vs := note_of_subset hcopy.vars
    exact ⟨hnote.symm ▸ h, hnote.symm ▸ hcopy⟩
  · rename_i hnone
    have hstart : Faithful fs low (fun u => above u ∨ u = t) vs
        { c with seen := c.seen.insert key Term.cycle } := by
      refine ⟨h.next, h.nodup, fun v => ?_, fun {u k copy} hu hk => ?_⟩
      · show (c.seen.insert key Term.cycle)[v.key]? = _
        rw [Std.HashMap.getElem?_insert,
          if_neg (fun he => Term.copyKey?_ne_key hkey v (eq_of_beq he)), h.met v]
      · replace hk : (c.seen.insert key Term.cycle)[k]? = some copy := hk
        rw [Std.HashMap.getElem?_insert] at hk
        split at hk
        · rename_i he
          exact .inl (.inr (Term.copyKey?_inj hu (eq_of_beq he ▸ hkey)))
        · exact (h.kept hu hk).imp_left .inl
    obtain ⟨hfaithful, hcopies⟩ := hargs _ hstart
    generalize args { c with seen := c.seen.insert key Term.cycle } = r at *
    obtain ⟨copies, c'⟩ := r
    have hnote : note vs (Shape.node name ss).vars = note vs (ss.flatMap Shape.vars) := by
      rw [Shape.vars_node]
    have hcopy : Copies low (note vs (ss.flatMap Shape.vars)) (.node name ss)
        (Term.build c'.serial name copies) := .build hcopies c'.serial
    refine ⟨hnote.symm ▸ ⟨hfaithful.next, hfaithful.nodup, fun v => ?_, fun {u k copy} hu hk => ?_⟩,
      hnote.symm ▸ hcopy⟩
    · show (c'.seen.insert key _)[v.key]? = _
      rw [Std.HashMap.getElem?_insert,
        if_neg (fun he => Term.copyKey?_ne_key hkey v (eq_of_beq he)), hfaithful.met v]
    · replace hk : (c'.seen.insert key (Term.build c'.serial name copies))[k]? = some copy := hk
      rw [Std.HashMap.getElem?_insert] at hk
      split at hk
      · rename_i he
        obtain rfl := Term.copyKey?_inj hu (eq_of_beq he ▸ hkey)
        cases hk
        exact .inr fun s hs' => hs'.unique hs ▸ hcopy
      · rename_i hne
        rcases hfaithful.kept hu hk with (habove | rfl) | hcopy
        · exact .inl habove
        · exact absurd (beq_iff_eq.2 (Option.some.inj (hkey.symm.trans hu))) hne
        · exact .inr hcopy

end Copier

-- ================================================== copying

namespace Frames

open Copier

/-- Going on with a value below which are fewer values copies it. -/
def CopiesOn (fs : Frames) (low bound : Nat) (hop : Term → Copier → Term × Copier) : Prop :=
  ∀ {n t s above vs c}, n < bound → t ∈ fs.held → fs.Unfolds n t s →
    (∀ u, above u → Relation.TransGen fs.Leads u t) → c.Faithful fs low above vs →
    CopiedAs fs low above vs s (hop t c)

section

variable {fs : Frames} {low bound : Nat} {hop : Term → Copier → Term × Copier}

theorem CopiesOn.copyResolved (hh : fs.CopiesOn low bound hop) (hw : fs.Within) {d : Cell}
    {name : String} {s : Shape} {above : Term → Prop} {vs : List Variable} {c : Copier}
    (h : fs.Unfolds bound (.ref d name) s)
    (habove : ∀ u, above u → Relation.TransGen fs.Leads u (.ref d name))
    (hc : c.Faithful fs low above vs) :
    CopiedAs fs low above vs s (copyResolved hop (fs.resolve (.ref d name)) c) := by
  obtain ⟨e, m, he, rfl⟩ | ⟨hno, hheld, hbelow, n, hlt, hv⟩ := h.resolve hw
  · rw [he]
    exact hc.freshFor (.cell e)
  · generalize fs.resolve (.ref d name) = r at hno hheld hbelow hv ⊢
    unfold Frames.copyResolved
    split
    · exact absurd rfl (hno _ _)
    · exact hh hlt hheld hv (fun u hu => (habove u hu).trans hbelow) hc

/-- What leads to a compound leads to its arguments, and so does the compound. -/
theorem above_args {t : Term} {name : String} {as : List Term} {home : Option FrameId}
    {above : Term → Prop} (ht : t.compound? = some (name, as, home))
    (habove : ∀ u, above u → Relation.TransGen fs.Leads u t) :
    ∀ a ∈ as, ∀ u, above u ∨ u = t → Relation.TransGen fs.Leads u (a.bindIn home) := by
  rintro a ha u (hu | rfl)
  · exact (habove u hu).tail (.arg ht ha)
  · exact .single (.arg ht ha)

theorem copyIn_of_isPlain {t : Term} (h : t.isPlain = true) (frame : Option FrameId) (c : Copier) :
    fs.copyIn hop frame t c = (t, c) := by
  cases t with
  | var v => cases v <;> cases frame <;> first | rfl | cases h
  | compound form name args => cases form <;> first | rfl | cases h
  | closure => cases h
  | ref => cases h
  | _ => rfl

/-- What reads the same in every frame is its own copy. -/
theorem copiedAs_plain {t : Term} {frame : Option FrameId} {s : Shape} {above : Term → Prop}
    {vs : List Variable} {c : Copier} (hc : c.Faithful fs low above vs) (hp : t.isPlain = true)
    (ht : t.Fits .all anyVars) (h : fs.Unfolds bound (t.bindIn frame) s) :
    CopiedAs fs low above vs s (fs.copyIn hop frame t c) := by
  rw [bindIn_of_isPlain hp] at h
  rw [copyIn_of_isPlain hp]
  exact hc.self h.shows (ht.of_isPlain hp)

mutual

/-- The copy of a term read in a frame is exact if going on with values is. -/
theorem CopiesOn.copyIn (hh : fs.CopiesOn low bound hop) (hw : fs.Within) : (t : Term) →
    {frame : Option FrameId} → {s : Shape} → {above : Term → Prop} → {vs : List Variable} →
    {c : Copier} → t.Fits .all anyVars → fs.Unfolds bound (t.bindIn frame) s →
    (∀ u, above u → Relation.TransGen fs.Leads u (t.bindIn frame)) →
    c.Faithful fs low above vs → CopiedAs fs low above vs s (fs.copyIn hop frame t c)
  | .ref d name, frame, s, above, vs, c, _, h, habove, hc => by
    rw [Frames.copyIn]
    rw [show (Term.ref d name).bindIn frame = .ref d name by cases frame <;> rfl] at h habove
    exact hh.copyResolved hw h habove hc
  | .var .wildcard, _, _, _, _, _, ht, h, _, hc => copiedAs_plain hc rfl ht h
  | .var (.named n), none, s, above, vs, c, _, h, _, hc => by
    rw [Frames.copyIn.eq_def, (shows_bare rfl).1 h.shows]
    exact hc.freshFor (.named n)
  | .var (.slot i n), none, s, above, vs, c, _, h, _, hc => by
    rw [Frames.copyIn.eq_def, (shows_bare rfl).1 h.shows]
    exact hc.freshFor (.slot i)
  | .var (.named n), some f, s, above, vs, c, _, h, habove, hc
  | .var (.slot i n), some f, s, above, vs, c, _, h, habove, hc => by
    rw [Frames.copyIn.eq_def]
    exact hh.copyResolved hw h habove hc
  | .closure serial name as home, frame, s, above, vs, c, ht, h, habove, hc => by
    rw [Frames.copyIn]
    rw [show (Term.closure serial name as home).bindIn frame = .closure serial name as home by
      cases frame <;> rfl] at h habove
    obtain ⟨ss, rfl, hss⟩ := h.of_compound rfl
    exact hc.compound rfl h.shows (fun hat => h.ends.not_transGen (habove _ hat)) fun c' hc' =>
      hh.copyAllIn hw as (fun a ha => ((Term.fits_closure.1 ht).2 a ha).wellMade) hss
        (above_args rfl habove) hc'
  | .compound .plain _ _, _, _, _, _, _, ht, h, _, hc => copiedAs_plain hc rfl ht h
  | .compound (.template serial) name as, frame, s, above, vs, c, ht, h, habove, hc => by
    rw [Frames.copyIn]
    have hcompound : ((Term.compound (.template serial) name as).bindIn frame).compound?
        = some (name, as, frame) := by cases frame <;> rfl
    have hkey : ((Term.compound (.template serial) name as).bindIn frame).copyKey?
        = some (.compound serial name as frame) := by cases frame <;> rfl
    obtain ⟨ss, rfl, hss⟩ := h.of_compound hcompound
    exact hc.compound hkey h.shows (fun hat => h.ends.not_transGen (habove _ hat)) fun c' hc' =>
      hh.copyAllIn hw as (Term.fits_compound.1 ht).2 hss (above_args hcompound habove) hc'
  | .atom _, _, _, _, _, _, ht, h, _, hc => copiedAs_plain hc rfl ht h
  | .number _, _, _, _, _, _, ht, h, _, hc => copiedAs_plain hc rfl ht h
  | .host _, _, _, _, _, _, ht, h, _, hc => copiedAs_plain hc rfl ht h
  | .thunk _, _, _, _, _, _, ht, h, _, hc => copiedAs_plain hc rfl ht h

theorem CopiesOn.copyAllIn (hh : fs.CopiesOn low bound hop) (hw : fs.Within) : (ts : List Term) →
    {frame : Option FrameId} → {ss : List Shape} → {above : Term → Prop} → {vs : List Variable} →
    {c : Copier} → (∀ t ∈ ts, t.Fits .all anyVars) →
    List.Forall₂ (fun t s => fs.Unfolds bound (t.bindIn frame) s) ts ss →
    (∀ t ∈ ts, ∀ u, above u → Relation.TransGen fs.Leads u (t.bindIn frame)) →
    c.Faithful fs low above vs → CopiedAllAs fs low above vs ss (fs.copyAllIn hop frame ts c)
  | [], _, _, _, _, _, _, .nil, _, hc => by
    rw [Frames.copyAllIn]
    exact ⟨hc, .nil⟩
  | t :: ts, frame, s :: ss, above, vs, c, ht, .cons h hss, habove, hc => by
    rw [Frames.copyAllIn]
    rw [List.forall_mem_cons] at ht habove
    have h₁ : CopiedAs fs low above vs s (fs.copyIn hop frame t c) :=
      hh.copyIn hw t ht.1 h habove.1 hc
    generalize fs.copyIn hop frame t c = r₁ at *
    have h₂ : CopiedAllAs fs low above (note vs s.vars) ss (fs.copyAllIn hop frame ts r₁.2) :=
      hh.copyAllIn hw ts ht.2 hss habove.2 h₁.faithful
    exact h₁.cons h₂

end

/-- Enough cells are allowed where more values are not below. -/
theorem Sound.copiesOn_copyWithin {strict : Bool} (hsound : fs.Sound strict) (hw : fs.Within)
    (low bound : Nat) : fs.CopiesOn low bound (fs.copyWithin bound) := by
  induction bound with
  | zero => exact fun hlt => absurd hlt (Nat.not_lt_zero _)
  | succ bound ih =>
    intro n t s above vs c hlt hheld h habove hc
    have hunfolds : fs.Unfolds bound (t.bindIn none) s :=
      ⟨h.ends, h.below.trans (Nat.le_of_lt_succ hlt), h.shows⟩
    rw [copyWithin]
    exact CopiesOn.copyIn ih hw t (hsound.held hheld) hunfolds habove hc

/-- The copy of a term has its shape, with numbers for its variables. -/
theorem Sound.copy_exact {strict : Bool} (hsound : fs.Sound strict) (hw : fs.Within) {t : Term}
    {s : Shape} {vs : List Variable} {c : Copier} (ht : t.Fits .all anyVars) (he : fs.Ends t)
    (hs : fs.Shows t s) (hc : c.Faithful fs low (fun _ => False) vs) :
    CopiedAs fs low (fun _ => False) vs s (fs.copy t c) := by
  have hunfolds : fs.Unfolds (fs.made + 1) (t.bindIn none) s :=
    ⟨he, (below_le hw t).trans (Nat.le_succ _), hs⟩
  rw [Frames.copy, copyWithin]
  exact CopiesOn.copyIn (hsound.copiesOn_copyWithin hw low (fs.made + 1)) hw t ht hunfolds
    (fun _ hu => hu.elim) hc

theorem Sound.copyAll_exact {strict : Bool} (hsound : fs.Sound strict) (hw : fs.Within)
    {ts : List Term} {ss : List Shape} {vs : List Variable} {c : Copier}
    (ht : ∀ t ∈ ts, t.Fits .all anyVars) (he : ∀ t ∈ ts, fs.Ends t)
    (hs : List.Forall₂ fs.Shows ts ss) (hc : c.Faithful fs low (fun _ => False) vs) :
    CopiedAllAs fs low (fun _ => False) vs ss (fs.copyAll ts c) := by
  induction hs generalizing vs c with
  | nil => exact ⟨hc, .nil⟩
  | cons h _ ih =>
    rw [List.forall_mem_cons] at ht he
    rw [Frames.copyAll]
    have h₁ := hsound.copy_exact hw ht.1 he.1 h hc
    exact h₁.cons (ih ht.2 he.2 h₁.faithful)

/-- A copier that was just started has met nothing. -/
theorem faithful_start (fs : Frames) (low serial : Nat) :
    Copier.Faithful fs low (fun _ => False) [] { next := low, serial := serial } :=
  ⟨rfl, .nil, fun v => by simp, fun _ hk => by simp at hk⟩

end

end Frames

-- ================================================== more cells change nothing

/-- Two ways to copy the arguments that agree make the same copy of a compound. -/
theorem Copier.compound_congr {c : Copier} {key : CopyKey} {name : String}
    {args args' : Copier → List Term × Copier}
    (h : key ∉ c.seen → args { c with seen := c.seen.insert key Term.cycle }
      = args' { c with seen := c.seen.insert key Term.cycle }) :
    c.compound key name args = c.compound key name args' := by
  unfold Copier.compound
  split
  · rfl
  · rename_i hseen
    rw [h fun hmem => by
      rw [Std.HashMap.mem_iff_isSome_getElem?, hseen] at hmem
      cases hmem]

namespace Frames

open Copier

section

variable {fs : Frames} {strict : Bool} {low bound : Nat} {hop hop' : Term → Copier → Term × Copier}

/-- Two ways to go on with a value agree, as long as no more than `bound` values
are new. -/
def Agrees (fs : Frames) (low bound : Nat) (hop hop' : Term → Copier → Term × Copier) : Prop :=
  ∀ t c, t ∈ fs.held → (∀ d m, t ≠ .ref d m) → c.Fits low → fs.unseen c ≤ bound →
    hop t c = hop' t c

theorem Agrees.copyResolved (ha : fs.Agrees low bound hop hop') {c : Copier} (hc : c.Fits low)
    (hb : fs.unseen c ≤ bound) (d : Cell) (name : String) :
    Frames.copyResolved hop (fs.resolve (.ref d name)) c
      = Frames.copyResolved hop' (fs.resolve (.ref d name)) c := by
  unfold Frames.copyResolved
  split
  · rfl
  · rename_i hno
    obtain ⟨e, m, he⟩ | hmem := follow_cases fs (fs.made + 1) d name
    · exact absurd he (hno e m)
    · exact ha _ c hmem (fun e m => hno e m) hc hb

mutual

/-- The copies of a term agree if going on with values does. -/
theorem Agrees.copyIn (ha : fs.Agrees low bound hop hop') (hh : fs.Hops low bound hop) :
    (t : Term) → {frame : Option FrameId} → {c : Copier} → t.Fits .all anyVars → c.Fits low →
    fs.unseen c ≤ bound → fs.copyIn hop frame t c = fs.copyIn hop' frame t c
  | .ref d name, _, _, _, hc, hb => by
    rw [Frames.copyIn, Frames.copyIn]
    exact ha.copyResolved hc hb d name
  | .var v, frame, _, _, hc, hb => by
    rw [Frames.copyIn.eq_def, Frames.copyIn.eq_def]
    cases frame with
    | none => cases v <;> rfl
    | some f =>
      cases v with
      | wildcard => rfl
      | named n => exact ha.copyResolved hc hb _ _
      | slot i n => exact ha.copyResolved hc hb _ _
  | .closure serial name args home, _, c, ht, hc, hb => by
    rw [Frames.copyIn, Frames.copyIn]
    refine compound_congr fun _ => ha.copyAllIn hh args (fun a hm => ?_)
      (hc.insert _ Term.fits_atom) ((unseen_mono (le_insert c _ _)).trans hb)
    exact ((Term.fits_closure.1 ht).2 a hm).wellMade
  | .compound form name args, _, c, ht, hc, hb => by
    cases form with
    | plain => rw [Frames.copyIn.eq_def, Frames.copyIn.eq_def]
    | template serial =>
      rw [Frames.copyIn, Frames.copyIn]
      exact compound_congr fun _ => ha.copyAllIn hh args (Term.fits_compound.1 ht).2
        (hc.insert _ Term.fits_atom) ((unseen_mono (le_insert c _ _)).trans hb)
  | .atom _, _, _, _, _, _ | .number _, _, _, _, _, _ | .host _, _, _, _, _, _
  | .thunk _, _, _, _, _, _ => by rw [Frames.copyIn.eq_def, Frames.copyIn.eq_def]

theorem Agrees.copyAllIn (ha : fs.Agrees low bound hop hop') (hh : fs.Hops low bound hop) :
    (ts : List Term) → {frame : Option FrameId} → {c : Copier} →
    (∀ t ∈ ts, t.Fits .all anyVars) → c.Fits low → fs.unseen c ≤ bound →
    fs.copyAllIn hop frame ts c = fs.copyAllIn hop' frame ts c
  | [], _, _, _, _, _ => by rw [Frames.copyAllIn, Frames.copyAllIn]
  | t :: ts, frame, c, hts, hc, hb => by
    rw [List.forall_mem_cons] at hts
    have h₁ : c.Copied low (fs.copyIn hop frame t c) := hh.copyIn t hts.1 hc hb
    rw [Frames.copyAllIn, Frames.copyAllIn, ← ha.copyIn hh t hts.1 hc hb]
    generalize fs.copyIn hop frame t c = r₁ at *
    dsimp only
    rw [ha.copyAllIn hh ts hts.2 h₁.fits ((unseen_mono h₁.le).trans hb)]

end

/-- A value met in a cell is copied alike if, when its compound is new, the
arguments are. -/
theorem Sound.copyWithin_value (h : fs.Sound strict) {t : Term} {c : Copier} {n n' : Nat}
    (ht : t ∈ fs.held) (hno : ∀ d m, t ≠ .ref d m)
    (hargs : ∀ {k : CopyKey}, t.copyKey? = some k → k ∉ c.seen →
      ∀ (args : List Term) (frame : Option FrameId), (∀ a ∈ args, a.Fits .all anyVars) →
        fs.copyAllIn (fs.copyWithin n) frame args { c with seen := c.seen.insert k Term.cycle }
          = fs.copyAllIn (fs.copyWithin n') frame args
              { c with seen := c.seen.insert k Term.cycle }) :
    fs.copyWithin (n + 1) t c = fs.copyWithin (n' + 1) t c := by
  have hfits := h.held ht
  rw [copyWithin, copyWithin, Frames.copyIn.eq_def, Frames.copyIn.eq_def]
  cases t with
  | ref d m => exact absurd rfl (hno d m)
  | var v => cases v <;> rfl
  | closure serial name args home =>
    exact compound_congr fun hnew => hargs rfl hnew args (some home) fun a ha =>
      ((Term.fits_closure.1 hfits).2 a ha).wellMade
  | compound form name args =>
    cases form with
    | plain => rfl
    | template serial =>
      exact compound_congr fun hnew => hargs rfl hnew args none (Term.fits_compound.1 hfits).2
  | _ => rfl

/-- One cell more than there are new values is enough, so further cells are never
come to. -/
theorem Sound.agrees_copyWithin (h : fs.Sound strict) (low : Nat) {bound n : Nat}
    (hn : bound < n) : fs.Agrees low bound (fs.copyWithin (bound + 1)) (fs.copyWithin n) := by
  induction bound generalizing n with
  | zero =>
    intro t c ht hno hc hb
    obtain ⟨n, rfl⟩ := Nat.exists_eq_succ_of_ne_zero (Nat.ne_of_gt hn)
    -- no value is new, so no compound is entered
    exact h.copyWithin_value ht hno fun hk hnew =>
      absurd ((unseen_insert_lt (v := Term.cycle) ht hk hnew).trans_le hb) (Nat.not_lt_zero _)
  | succ bound ih =>
    intro t c ht hno hc hb
    obtain ⟨n, rfl⟩ := Nat.exists_eq_succ_of_ne_zero (Nat.ne_of_gt ((Nat.zero_lt_succ _).trans hn))
    refine h.copyWithin_value ht hno fun hk hnew args frame hargs => ?_
    have hlt := (unseen_insert_lt (v := Term.cycle) ht hk hnew).trans_le hb
    exact (ih (Nat.lt_of_succ_lt_succ hn)).copyAllIn (h.hops_copyWithin low bound) args hargs
      (hc.insert _ Term.fits_atom) (Nat.le_of_lt_succ hlt)

/-- The cells that copying is allowed are never used up. -/
theorem Sound.copyWithin_eq_copy (h : fs.Sound strict) (hw : fs.Within) {t : Term} {c : Copier}
    (ht : t.Fits .all anyVars) (hc : c.Fits low) {n : Nat} (hn : fs.made + 2 ≤ n) :
    fs.copyWithin n t c = fs.copy t c := by
  have hle : fs.unseen c ≤ fs.made :=
    (List.length_filter_le _ _).trans ((length_held_le fs).trans hw)
  obtain ⟨n, rfl⟩ := Nat.exists_eq_succ_of_ne_zero (Nat.ne_of_gt ((Nat.zero_lt_succ _).trans_le hn))
  rw [Frames.copy, copyWithin, copyWithin]
  exact ((h.agrees_copyWithin low (Nat.le_of_succ_le_succ hn)).copyIn
    (h.hops_copyWithin low fs.made) t ht hc hle).symm

/-- Nor are those that following a reference is allowed: a chain of references
comes to older and older cells. -/
theorem Sound.follow_eq (h : fs.Sound strict) {cells cells' : Nat} {d : Cell}
    (hd : fs.place d < cells) (hd' : fs.place d < cells') (name : String) :
    fs.follow false cells d name = fs.follow false cells' d name := by
  induction cells generalizing cells' d name with
  | zero => exact absurd hd (Nat.not_lt_zero _)
  | succ cells ih =>
    obtain ⟨cells', rfl⟩ :=
      Nat.exists_eq_succ_of_ne_zero (Nat.ne_of_gt ((Nat.zero_le _).trans_lt hd'))
    cases hv : fs.content d with
    | none => rw [Frames.follow_unbound hv, Frames.follow_unbound hv]
    | some v =>
      by_cases href : ∃ e m, v = .ref e m
      · obtain ⟨e, m, rfl⟩ := href
        rw [follow_ref hv, follow_ref hv]
        cases he : fs.content e with
        | none => rw [Frames.follow_unbound he, Frames.follow_unbound he]
        | some u =>
          obtain ⟨s, hs, hsv⟩ := content_eq_some.1 hv
          obtain ⟨s', hs', -⟩ := content_eq_some.1 he
          have hlt := place_lt_place (Option.isSome_of_eq_some hs') (h.descends hs (.inl hsv))
          exact ih (hlt.trans_le (Nat.le_of_lt_succ hd)) (hlt.trans_le (Nat.le_of_lt_succ hd')) m
      · have hno : ∀ e m, v ≠ .ref e m := fun e m he => href ⟨e, m, he⟩
        rw [follow_value hv hno, follow_value hv hno]

theorem Sound.follow_eq_resolve (h : fs.Sound strict) (hw : fs.Within) {cells : Nat}
    (hn : fs.made < cells) (d : Cell) (name : String) :
    fs.follow false cells d name = fs.resolve (.ref d name) := by
  cases hv : fs.content d with
  | none => rw [Frames.resolve, Frames.follow_unbound hv, Frames.follow_unbound hv]
  | some v =>
    obtain ⟨s, hs, -⟩ := content_eq_some.1 hv
    have hlt : fs.place d < fs.made := (place_lt_total (Option.isSome_of_eq_some hs)).trans_le hw
    exact h.follow_eq (hlt.trans hn) (hlt.trans (Nat.lt_succ_self _)) name

end

end Frames

-- ================================================== copies with fresh slots

/-- The variable of a template as the cell that it is in a frame. -/
def Variable.inFrame (f : FrameId) : Variable → Variable
  | .cell c => .cell c
  | .slot i => .cell ⟨f, i⟩
  | .named n => .cell ⟨f, (Var.named n).number⟩

namespace Frames

section

variable {fs fs' : Frames} {strict : Bool} {f : FrameId}

/-- A template that is read in a frame where its variables are unbound has the
same shape, with the cells for the variables. -/
theorem Shows.bindTo {t : Term} {s : Shape} (h : fs.Shows t s) {vars : Nat → Prop}
    (ht : t.Fits .none vars) (hu : ∀ i, vars i → fs'.content ⟨f, i⟩ = none) :
    fs'.Shows (t.bindTo f) (s.rename (Variable.inFrame f)) := by
  induction h with
  | @const t hc =>
    rw [Shape.rename_const]
    cases t with
    | var v => cases v <;> first | exact .const rfl | cases hc
    | number _ | host _ | thunk _ => exact .const rfl
    | _ => cases hc
  | atom name =>
    rw [Shape.rename_node]
    exact .atom name
  | @bare v k hk =>
    rw [Shape.rename_var]
    obtain rfl | ⟨-, hv⟩ := Term.fits_var.1 ht
    · cases hk
    · cases v <;> cases hk <;> exact .unbound (hu _ hv)
  | unbound => exact (Term.fits_ref.1 ht).elim
  | bound => exact (Term.fits_ref.1 ht).elim
  | @node t name args home ss hc hlen h ih =>
    cases t with
    | closure serial _ _ home => exact (Term.fits_closure.1 ht).1.elim
    | compound form _ _ =>
      cases hc
      cases form with
      | plain =>
        have hplain : (Term.compound .plain name args).Fits .none fun _ => False :=
          ht.of_isPlain rfl
        obtain ⟨hvars, hshows⟩ := (Shows.node rfl hlen h).of_plain hplain
        rw [Term.bindTo_of_isPlain f rfl, Shape.rename_of_vars_eq_nil hvars]
        exact hshows fs'
      | template serial =>
        rw [Shape.rename_node]
        refine .node rfl (by rw [hlen, List.length_map]) fun a s hm => ?_
        rw [List.zip_map_right, List.mem_map] at hm
        obtain ⟨⟨a, s⟩, hm, he⟩ := hm
        cases he
        exact ih a s hm ((Term.fits_compound.1 ht).2 a (List.of_mem_zip hm).1)
    | _ => cases hc

theorem locals_of_owner (hown : fs.owner f = f) {g : Frame} (hg : fs.get? f = some g) :
    fs.locals f = g.slots.size := by
  rw [locals_owner, hown, hg]
  rfl

theorem slot?_of_locals_le (hown : fs.owner f = f) {i : Nat} (hi : fs.locals f ≤ i) :
    fs.slot? ⟨f, i⟩ = none := by
  rw [slot?_eq]
  cases hg : fs.get? f with
  | none => rfl
  | some g =>
    rw [locals_of_owner hown hg] at hi
    exact Array.getElem?_eq_none hi

/-- The slots of a frame that is given more. -/
theorem slot?_expand (hf : f < fs.size) (hown : fs.owner f = f) (count : Nat) (c : Cell) :
    (fs.expand f count).1.slot? c
      = if c.frame = f ∧ fs.locals f ≤ c.slot ∧ c.slot < fs.locals f + count then some {}
        else fs.slot? c := by
  obtain ⟨g, hg⟩ := exists_get? hf
  rw [slot?_eq, slot?_eq, get?_expand, hown, locals_of_owner hown hg]
  by_cases hc : c.frame = f
  · rw [hc, hg, Option.map_some, if_pos rfl, Option.bind_some, Option.bind_some,
      Frame.slots_withSlots, Array.getElem?_append, Array.getElem?_replicate]
    by_cases hlt : c.slot < g.slots.size
    · rw [if_pos hlt, if_neg (by omega)]
    · by_cases hlt' : c.slot < g.slots.size + count
      · rw [if_neg hlt, if_pos (by omega), if_pos ⟨rfl, Nat.le_of_not_lt hlt, hlt'⟩]
      · rw [if_neg hlt, if_neg (by omega), if_neg (by omega), Array.getElem?_eq_none (by omega)]
  · rw [if_neg (fun h => hc h.1)]
    cases fs.get? c.frame with
    | none => rfl
    | some _ => rw [Option.map_some, if_neg (Ne.symm hc)]

theorem locals_expand (hf : f < fs.size) (hown : fs.owner f = f) (count : Nat) :
    (fs.expand f count).1.locals f = fs.locals f + count := by
  obtain ⟨g, hg⟩ := exists_get? hf
  have hown' : (fs.expand f count).1.owner f = f := ((Grows.expand fs f count).owner hf).trans hown
  have hg' : (fs.expand f count).1.get? f = some (g.withSlots (g.slots ++ blanks count)) := by
    rw [get?_expand, hg, Option.map_some, if_pos hown]
  rw [locals_of_owner hown' hg', locals_of_owner hown hg]
  simp

end

end Frames

-- ================================================== copies are exact

section

variable {low : Nat} {vs : List Variable}

theorem numbering_injOn (low : Nat) (vs : List Variable) :
    Set.InjOn (numbering low vs) {v | v ∈ vs} := by
  intro v hv w _ he
  rw [numbering, numbering, Variable.slot.injEq, Nat.add_left_cancel_iff] at he
  exact (List.idxOf_inj hv).1 he

theorem map_numbering (low : Nat) (h : vs.Nodup) :
    vs.map (numbering low vs) = (List.range' low vs.length).map .slot := by
  refine List.ext_getElem (by simp) fun i hi _ => ?_
  rw [List.length_map] at hi
  simp [numbering, h.idxOf_getElem i hi]

end

/-- The terms have shapes, and one injective renaming makes their variables, in
the order in which they stand there first, those of a list. -/
structure Frames.Renames (fs : Frames) (ts : List Term) (ss : List Shape)
    (ρ : Variable → Variable) (names : List Variable) : Prop where
  shapes : List.Forall₂ fs.Shows ts ss
  injective : Set.InjOn ρ {v | v ∈ ss.flatMap Shape.vars}
  inOrder : (ss.flatMap Shape.vars).eraseDups.map ρ = names

/-- A copier that has met nothing yet. -/
abbrev Copier.start (low serial : Nat) : Copier := { next := low, serial := serial }

namespace Frames

/-- Copies of several terms, each through at most so many cells on any one way
down. -/
def copyAllWithin (fs : Frames) (cells : Nat) : List Term → Copier → List Term × Copier
  | [], c => ([], c)
  | t :: ts, c =>
    let (copy, c) := fs.copyWithin cells t c
    let (copies, c) := fs.copyAllWithin cells ts c
    (copy :: copies, c)

/-- What it takes to copy terms together and out of their frames. Copying ends on
terms that contain themselves too: any more cells than are allowed change nothing.
The copies mention the variables that were made and nothing else. Where no cell
is met again below itself they are the terms under one renaming, to variables
numbered from 0, and if all variables are cells then they are the variables that
are listed, in that order. -/
structure CopiesOut (fs : Frames) (ts : List Term) (serial : Nat) (copies : List Term)
    (count : Nat) : Prop where
  ends : ∀ cells, fs.made + 2 ≤ cells →
    (fs.copyAllWithin cells ts (.start 0 serial)).1 = copies
      ∧ (fs.copyAllWithin cells ts (.start 0 serial)).2.next = count
  detached : ∀ copy ∈ copies, copy.Fits .none (· < count)
  exact : (∀ t ∈ ts, fs.AcyclicFrom t) → ∃ ss ρ,
    fs.Renames ts ss ρ ((List.range count).map .slot)
      ∧ List.Forall₂ (fun copy s => ∀ other : Frames, other.Shows copy (s.rename ρ)) copies ss
      ∧ ((∀ s ∈ ss, s.Bound) → ∀ serial name, Lists
          (fs.freeVars (.compound (.template serial) name ts)) (ss.flatMap Shape.vars).eraseDups)

/-- What it takes to copy a term into fresh slots of a frame, `count` of them from
`base` on: the slots there were are as they were, the others are unbound, and the
copy mentions no slot but these. -/
structure CopiesInto (fs : Frames) (t : Term) (owner : FrameId) (base serial : Nat) (copy : Term)
    (count : Nat) (fs' : Frames) : Prop where
  ends : ∀ cells, fs.made + 2 ≤ cells →
    (fs.copyWithin cells t (.start base serial)).1.bindTo owner = copy
      ∧ (fs.copyWithin cells t (.start base serial)).2.next = base + count
  locals : fs'.locals owner = base + count
  slots : ∀ c, fs'.slot? c
    = if c.frame = owner ∧ base ≤ c.slot ∧ c.slot < base + count then some {} else fs.slot? c
  new : ∀ i, base ≤ i → fs.slot? ⟨owner, i⟩ = none
  free : copy.Fits
    ⟨fun c => c.frame = owner ∧ base ≤ c.slot ∧ c.slot < base + count, (· = owner),
      fun _ => False⟩ fun _ => False
  exact : fs.AcyclicFrom t → ∃ s ρ,
    fs.Renames [t] [s] ρ ((List.range' base count).map fun i => .cell ⟨owner, i⟩)
      ∧ fs'.Shows copy (s.rename ρ) ∧ (s.Bound → Lists (fs.freeVars t) s.vars.eraseDups)

section

variable {fs : Frames} {strict : Bool}

theorem Sound.copyAllWithin_eq (h : fs.Sound strict) (hw : fs.Within) {low cells : Nat}
    (hcells : fs.made + 2 ≤ cells) {ts : List Term} {c : Copier}
    (hts : ∀ t ∈ ts, t.Fits .all anyVars) (hc : c.Fits low) :
    fs.copyAllWithin cells ts c = fs.copyAll ts c := by
  induction ts generalizing c with
  | nil => rfl
  | cons t ts ih =>
    rw [List.forall_mem_cons] at hts
    have h₁ : c.Copied low (fs.copy t c) := h.copy hw hts.1 hc
    rw [copyAllWithin, Frames.copyAll, h.copyWithin_eq_copy hw hts.1 hc hcells]
    generalize fs.copy t c = r₁ at *
    dsimp only
    rw [ih hts.2 h₁.fits]

theorem renames_numbering {ts : List Term} {ss : List Shape} (hs : List.Forall₂ fs.Shows ts ss)
    (low : Nat) : fs.Renames ts ss (numbering low (ss.flatMap Shape.vars).eraseDups)
      ((List.range' low (ss.flatMap Shape.vars).eraseDups.length).map .slot) where
  shapes := hs
  injective := (numbering_injOn low _).mono fun _ hv => List.mem_eraseDups.2 hv
  inOrder := map_numbering low (note_nil _ ▸ nodup_note .nil)

/-- In a sound arena, terms are copied out of their frames as is said. -/
theorem Sound.copiesOut (h : fs.Sound strict) (hw : fs.Within) {ts : List Term}
    (hts : ∀ t ∈ ts, t.Fits .all anyVars) (serial : Nat) :
    fs.CopiesOut ts serial (fs.copyAll ts (.start 0 serial)).1
      (fs.copyAll ts (.start 0 serial)).2.next := by
  refine ⟨fun cells hcells => ?_, fun copy hcopy => ?_, fun hacyclic => ?_⟩
  · rw [h.copyAllWithin_eq hw hcells hts (fits_start 0 serial)]
    exact ⟨rfl, rfl⟩
  · exact ((h.copyAll hw hts (fits_start 0 serial)).copies copy hcopy).mono (.refl _)
      fun _ hi => hi.2
  · have hends : ∀ t ∈ ts, fs.Ends t := fun t ht => (hacyclic t ht).ends
    obtain ⟨ss, hss⟩ := exists_forall₂ fun t ht => (hends t ht).shows
    obtain ⟨hfaithful, hcopies⟩ := h.copyAll_exact hw hts hends hss (faithful_start fs 0 serial)
    rw [note_nil] at hfaithful hcopies
    refine ⟨ss, _, ?_, hcopies.flip.imp fun _ _ hc => hc.shows, fun hbound serial name => ?_⟩
    · rw [hfaithful.next, Nat.zero_add, List.range_eq_range']
      exact renames_numbering hss 0
    · have hargs : List.Forall₂ (fun t s => fs.Shows (t.bindIn none) s) ts ss := hss
      have hshows : fs.Shows (.compound (.template serial) name ts) (.node name ss) :=
        (shows_compound rfl).2 ⟨ss, rfl, hargs⟩
      rw [← Shape.vars_node name]
      exact h.lists_freeVars hw (Term.fits_compound.2 ⟨nofun, hts⟩) (ends_compound rfl hends)
        hshows (Shape.bound_node.2 hbound)

theorem Sound.owner_owner (h : fs.Sound strict) {id : FrameId} (hid : id < fs.size) :
    fs.owner id < fs.size ∧ fs.owner (fs.owner id) = fs.owner id := by
  obtain ⟨g, hg⟩ := exists_get? hid
  obtain ⟨-, -, e, he, heo, -⟩ := h.owned hg
  rw [owner_eq hg]
  exact ⟨lt_size_of_get? he, (owner_eq he).trans heo⟩

/-- A variable that is numbered is the cell with that number in the frame. -/
theorem renames_cells {t : Term} {s : Shape} (hs : fs.Shows t s) (owner : FrameId) (base : Nat) :
    fs.Renames [t] [s] (Variable.inFrame owner ∘ numbering base s.vars.eraseDups)
      ((List.range' base s.vars.eraseDups.length).map fun i => .cell ⟨owner, i⟩) := by
  obtain ⟨hshapes, hinjective, hinOrder⟩ := renames_numbering (.cons hs .nil) base
  rw [List.flatMap_singleton] at hinjective hinOrder
  refine ⟨hshapes, ?_, ?_⟩
  · rw [List.flatMap_singleton]
    intro v hv w hw he
    refine hinjective hv hw ?_
    simpa [numbering, Variable.inFrame] using he
  · rw [List.flatMap_singleton, ← List.map_map, hinOrder, List.map_map]
    rfl

/-- In a sound arena, a term is copied into fresh slots of a frame as is said. -/
theorem Sound.copiesInto (h : fs.Sound strict) (hw : fs.Within) {t : Term}
    (ht : t.Fits .all anyVars) {id : FrameId} (hid : id < fs.size) (serial : Nat) :
    ∃ count, fs.CopiesInto t (fs.owner id) (fs.locals (fs.owner id)) serial
      (fs.rebind t id serial).1 count (fs.rebind t id serial).2.2 := by
  obtain ⟨hlive, hown⟩ := h.owner_owner hid
  have hcopied := h.copy hw ht (fits_start (fs.locals (fs.owner id)) serial)
  have hends : ∀ cells, fs.made + 2 ≤ cells → _ := fun _ hcells =>
    h.copyWithin_eq_copy hw ht (fits_start (fs.locals (fs.owner id)) serial) hcells
  have hexact := fun s he hs => h.copy_exact (s := s) hw ht he hs
    (faithful_start fs (fs.locals (fs.owner id)) serial)
  unfold Frames.rebind
  dsimp only
  generalize fs.copy t (.start (fs.locals (fs.owner id)) serial) = r at *
  obtain ⟨copy, c⟩ := r
  obtain ⟨count, hcount⟩ := Nat.exists_eq_add_of_le hcopied.fits.next
  have hsub : c.next - fs.locals (fs.owner id) = count := by
    rw [hcount, Nat.add_sub_cancel_left]
  rw [hsub]
  refine ⟨count, fun cells hcells => ?_, locals_expand hlive hown count,
    slot?_expand hlive hown count, fun i hi => slot?_of_locals_le hown hi, ?_, fun hacyclic => ?_⟩
  · rw [hends cells hcells]
    exact ⟨rfl, hcount⟩
  · refine (hcopied.copy.mono (World.none_le _) fun _ hi => hi).bindTo rfl fun i hi => ?_
    exact ⟨rfl, hi.1, hcount ▸ hi.2⟩
  · obtain ⟨s, hs⟩ := hacyclic.ends.shows
    obtain ⟨hfaithful, hcopy⟩ := hexact s hacyclic.ends hs
    rw [note_nil] at hfaithful hcopy
    have hlength : s.vars.eraseDups.length = count :=
      Nat.add_left_cancel (hfaithful.next.symm.trans hcount)
    refine ⟨s, _, hlength ▸ renames_cells hs (fs.owner id) _, ?_, fun hbound =>
      h.lists_freeVars hw ht hacyclic.ends hs hbound⟩
    rw [← Shape.rename_rename]
    refine (hcopy.shows fs).bindTo hcopied.copy fun i hi => ?_
    rw [content, slot?_expand hlive hown, if_pos ⟨rfl, hi.1, hcount ▸ hi.2⟩]
    rfl

end

end Frames

namespace Session.Reached

/-- The arena of every query that a session reaches is sound. In a sound arena,
bindings are followed to their end, terms are copied out of it together, and a
term is copied into fresh slots of any frame, as is said; on terms that contain
themselves, too, copying ends and the copy is free of what it was made from. -/
theorem copies_exactly :
    (∀ {strict : Bool} {s : Session} {q : Query} {phase : Phase}, s.Reached strict →
      (q, phase) ∈ s.queries → q.frames.Sound strict ∧ q.frames.Within)
    ∧ ∀ {strict : Bool} {fs : Frames}, fs.Sound strict → fs.Within →
      (∀ cells d name, fs.made < cells →
        fs.follow false cells d name = fs.resolve (.ref d name))
      ∧ (∀ ts serial, (∀ t ∈ ts, t.Fits .all anyVars) →
        fs.CopiesOut ts serial (fs.copyAll ts (.start 0 serial)).1
          (fs.copyAll ts (.start 0 serial)).2.next)
      ∧ ∀ t id serial, t.Fits .all anyVars → id < fs.size →
        ∃ count, fs.CopiesInto t (fs.owner id) (fs.locals (fs.owner id)) serial
          (fs.rebind t id serial).1 count (fs.rebind t id serial).2.2 := by
  refine ⟨fun hs hq => ?_, fun hsound hw => ⟨fun cells d name hcells => ?_, ?_, ?_⟩⟩
  · obtain ⟨c, hsound, -⟩ := hs.rests hq
    exact ⟨hsound.arena, hsound.within⟩
  · exact hsound.follow_eq_resolve hw hcells d name
  · exact fun ts serial hts => hsound.copiesOut hw hts serial
  · exact fun t id serial ht hid => hsound.copiesInto hw ht hid serial

open Act in
/-- In a query of two variables, the copies of two terms with both have the same
two variables. -/
theorem copies_exactly_pair : ∃ db entry copies,
    Session.Reached true ⟨db, [(Query.start entry, .running)]⟩
    ∧ (Query.start entry).frames.CopiesOut [asClosure, asCompound] 0 copies 2
    ∧ ∃ count, (Query.start entry).frames.CopiesInto asClosure Query.root 2 0
      ((Query.start entry).frames.rebind asClosure Query.root 0).1 count
      ((Query.start entry).frames.rebind asClosure Query.root 0).2.2 := by
  obtain ⟨db, entry, hreached, hlocals⟩ := exists_reached_pair
  obtain ⟨hsound, hw⟩ := copies_exactly.1 hreached List.mem_cons_self
  obtain ⟨-, hout, hinto⟩ := copies_exactly.2 hsound hw
  have hmade : asClosure.Fits .all anyVars ∧ asCompound.Fits .all anyVars := by
    simp [asClosure, asCompound, Term.fits_closure, Term.fits_compound, Term.fits_var, World.all,
      World.slotsOf, Var.name]
  have hcell : ∀ i name, i < 2 → (Query.start entry).frames.Shows
      (.ref ⟨Query.root, i⟩ name) (.var (.cell ⟨Query.root, i⟩)) := fun i name hi =>
    .unbound (by rw [Frames.content, slot?_root hlocals hi]; rfl)
  have hclosure : (Query.start entry).frames.Shows asClosure
      (.node "f" [.var (.cell ⟨Query.root, 0⟩), .var (.cell ⟨Query.root, 1⟩)]) := by
    refine (Frames.shows_compound rfl).2 ⟨_, rfl, .cons ?_ (.cons ?_ .nil)⟩
    · exact hcell 0 "X" (by decide)
    · exact hcell 1 "Y" (by decide)
  have hcompound : (Query.start entry).frames.Shows asCompound
      (.node "f" [.var (.cell ⟨Query.root, 0⟩), .var (.cell ⟨Query.root, 1⟩)]) := by
    refine (Frames.shows_compound rfl).2 ⟨_, rfl, .cons ?_ (.cons ?_ .nil)⟩
    · exact hcell 0 "X" (by decide)
    · exact hcell 1 "Y" (by decide)
  have hcopied := hout [asClosure, asCompound] 0 (by simp [hmade])
  obtain ⟨ss, ρ, hrenames, -, -⟩ := hcopied.exact fun t _ c name m _ =>
    acyclic_start entry c name m
  obtain _ | ⟨h, _ | ⟨h', _ | _⟩⟩ := hrenames.shapes
  obtain rfl := h.unique hclosure
  obtain rfl := h'.unique hcompound
  have hcount := congrArg List.length hrenames.inOrder
  rw [List.length_map, List.length_map, List.length_range] at hcount
  have hroot := get?_start entry Query.root
  obtain ⟨count, hinto⟩ := hinto asClosure Query.root 0 hmade.1 (Frames.lt_size_of_get? hroot)
  rw [owner_start, Frames.locals_of_owner owner_start hroot] at hinto
  have hbase : (blanks entry.locals).size = 2 := by rw [Array.size_replicate, hlocals]
  exact ⟨db, entry, _, hreached, hcount ▸ hcopied, count, hbase ▸ hinto⟩

end Session.Reached

end LogicMachine
