/-
Copies are free of the frames they were made from.

Copying goes from cell to cell through the values of slots, and is allowed
so many cells on any one way down. What bounds the way is the number of
values whose compound was not come across yet: entering such a compound
makes it one less, and a compound that was come across is not entered
again. The arena has no more values than slots, so the allowance suffices,
on terms that contain themselves too.
-/
import LogicMachine.Frames.Copy
import LogicMachine.Proofs.Solving

namespace LogicMachine

-- ================================================== the values of an arena

namespace Frames

/-- The committed values of an arena. -/
def held (fs : Frames) : List Term :=
  fs.frames.toList.flatMap fun f => f.slots.toList.filterMap (·.value)

theorem length_held_le (fs : Frames) : fs.held.length ≤ fs.total := by
  unfold held total
  generalize fs.frames.toList = frames
  induction frames with
  | nil => simp
  | cons f frames ih =>
    have hf : (f.slots.toList.filterMap (·.value)).length ≤ f.slots.size := by
      simpa using List.length_filterMap_le (·.value) f.slots.toList
    rw [List.flatMap_cons, List.length_append, List.map_cons, List.sum_cons]
    exact Nat.add_le_add hf ih

variable {fs : Frames}

theorem mem_held {c : Cell} {s : Slot} {t : Term} (hs : fs.slot? c = some s)
    (ht : s.value = some t) : t ∈ fs.held := by
  rw [slot?_eq] at hs
  obtain ⟨f, hf, hs⟩ := Option.bind_eq_some_iff.1 hs
  refine List.mem_flatMap.2 ⟨f, ?_, List.mem_filterMap.2 ⟨s, ?_, ht⟩⟩
  · exact Array.mem_toList_iff.2 (Array.mem_of_getElem? hf)
  · exact Array.mem_toList_iff.2 (Array.mem_of_getElem? hs)

theorem exists_slot_of_mem_held {t : Term} (h : t ∈ fs.held) :
    ∃ c s, fs.slot? c = some s ∧ s.value = some t := by
  obtain ⟨f, hf, h⟩ := List.mem_flatMap.1 h
  obtain ⟨s, hs, ht⟩ := List.mem_filterMap.1 h
  obtain ⟨i, hi⟩ := Array.mem_iff_getElem?.1 (Array.mem_toList_iff.1 hf)
  obtain ⟨j, hj⟩ := Array.mem_iff_getElem?.1 (Array.mem_toList_iff.1 hs)
  refine ⟨⟨i, j⟩, s, ?_, ht⟩
  rw [slot?_eq]
  show (fs.frames[i]?).bind _ = _
  rw [hi]
  exact hj

theorem Sound.held {strict : Bool} (h : fs.Sound strict) {t : Term} (ht : t ∈ fs.held) :
    t.Fits .all anyVars := by
  obtain ⟨c, s, hs, hv⟩ := exists_slot_of_mem_held ht
  exact (h.value hs (.inl hv)).wellMade

/-- What a term stands for is itself, a cell or a value. -/
theorem follow_cases (fs : Frames) (cells : Nat) (c : Cell) (name : String) :
    (∃ d m, fs.follow false cells c name = .ref d m) ∨ fs.follow false cells c name ∈ fs.held := by
  induction cells generalizing c name with
  | zero => exact .inl ⟨c, name, rfl⟩
  | succ cells ih =>
    unfold follow
    split
    · exact .inl ⟨c, name, rfl⟩
    · rename_i slot hslot
      split
      · exact .inl ⟨c, name, rfl⟩
      · exact ih _ _
      · rename_i value _ hshown
        refine .inr (mem_held hslot ?_)
        unfold Slot.shown at hshown
        split at hshown
        · rename_i hv
          exact hv.trans hshown
        · cases hshown

end Frames

-- ================================================== the state of a copier

/-- What the copier keeps of a compound met in a cell. -/
def Term.copyKey? : Term → Option CopyKey
  | .closure serial name args home => some (.compound serial name args (some home))
  | .compound (.template serial) name args => some (.compound serial name args none)
  | _ => none

/-- The variables made since `low`. -/
abbrev made (low : Nat) (c : Copier) : Nat → Prop := fun i => low ≤ i ∧ i < c.next

namespace Copier

/-- The copies made so far mention nothing but variables that were made. -/
structure Fits (low : Nat) (c : Copier) : Prop where
  next : low ≤ c.next
  seen : ∀ {k : CopyKey} {t : Term}, c.seen[k]? = some t → t.Fits .none (made low c)

/-- The copier has gone on. -/
structure Le (c c' : Copier) : Prop where
  next : c.next ≤ c'.next
  seen : ∀ k, k ∈ c.seen → k ∈ c'.seen

theorem Le.refl (c : Copier) : c.Le c := ⟨le_rfl, fun _ h => h⟩

theorem Le.trans {c₁ c₂ c₃ : Copier} (h : c₁.Le c₂) (h' : c₂.Le c₃) : c₁.Le c₃ :=
  ⟨h.next.trans h'.next, fun k hk => h'.seen k (h.seen k hk)⟩

theorem Le.made {low : Nat} {c c' : Copier} (h : c.Le c') {i : Nat} (hi : made low c i) :
    LogicMachine.made low c' i :=
  ⟨hi.1, hi.2.trans_le h.next⟩

/-- A copy that is as it should be, and the copier after it. -/
structure Copied (low : Nat) (c : Copier) (r : Term × Copier) : Prop where
  le : c.Le r.2
  fits : r.2.Fits low
  copy : r.1.Fits .none (made low r.2)

/-- The same of several copies. -/
structure CopiedAll (low : Nat) (c : Copier) (r : List Term × Copier) : Prop where
  le : c.Le r.2
  fits : r.2.Fits low
  copies : ∀ t ∈ r.1, t.Fits .none (made low r.2)

variable {low : Nat} {c : Copier}

/-- A term that mentions nothing is its own copy. -/
theorem Fits.self (h : c.Fits low) {t : Term} (ht : t.Fits .none (made low c)) :
    c.Copied low (t, c) :=
  ⟨.refl c, h, ht⟩

theorem Fits.insert (h : c.Fits low) (key : CopyKey) {t : Term} (ht : t.Fits .none (made low c)) :
    ({ c with seen := c.seen.insert key t } : Copier).Fits low := by
  refine ⟨h.next, fun {k t'} hk => ?_⟩
  replace hk : (c.seen.insert key t)[k]? = some t' := hk
  rw [Std.HashMap.getElem?_insert] at hk
  split at hk
  · cases hk
    exact ht
  · exact h.seen hk

theorem le_insert (c : Copier) (key : CopyKey) (t : Term) :
    c.Le { c with seen := c.seen.insert key t } :=
  ⟨le_rfl, fun _ hk => Std.HashMap.mem_insert.2 (.inr hk)⟩

theorem Fits.freshFor (h : c.Fits low) (key : CopyKey) : c.Copied low (c.freshFor key) := by
  unfold Copier.freshFor
  split
  · rename_i copy hseen
    exact h.self (h.seen hseen)
  · have hle : c.Le { c with next := c.next + 1 } := ⟨Nat.le_succ _, fun _ hk => hk⟩
    have hup : ({ c with next := c.next + 1 } : Copier).Fits low :=
      ⟨h.next.trans (Nat.le_succ _), fun hk => (h.seen hk).mono (.refl _) fun _ => hle.made⟩
    have hfits : (Term.var (.slot c.next ("_G" ++ toString c.next))).Fits .none
        (LogicMachine.made low { c with next := c.next + 1 }) := by
      refine Term.fits_var.2 (.inr ⟨?_, h.next, Nat.lt_succ_self _⟩)
      show "_G" ++ toString c.next ≠ "_"
      intro he
      have hlen := congrArg String.length he
      rw [String.length_append, show "_G".length = 2 from rfl, show "_".length = 1 from rfl] at hlen
      omega
    exact ⟨hle.trans (le_insert _ _ _), hup.insert key hfits, hfits⟩

/-- A compound is copied if its arguments are, the compound counting as
come across. -/
theorem Fits.compound (h : c.Fits low) (key : CopyKey) (name : String)
    {args : Copier → List Term × Copier}
    (hargs : key ∉ c.seen →
      CopiedAll low { c with seen := c.seen.insert key Term.cycle }
        (args { c with seen := c.seen.insert key Term.cycle })) :
    c.Copied low (c.compound key name args) := by
  unfold Copier.compound
  split
  · rename_i copy hseen
    exact h.self (h.seen hseen)
  · rename_i hseen
    obtain ⟨hle, hfits, hcopies⟩ := hargs (by
      rw [Std.HashMap.mem_iff_isSome_getElem?, hseen]
      exact Bool.false_ne_true)
    generalize args { c with seen := c.seen.insert key Term.cycle } = r at *
    obtain ⟨copies, c'⟩ := r
    have hcopy : (Term.build c'.serial name copies).Fits .none (made low c') :=
      Term.fits_build hcopies
    have hup : ({ c' with serial := c'.serial + 1 } : Copier).Fits low := ⟨hfits.next, hfits.seen⟩
    exact ⟨(le_insert c key _).trans (hle.trans ⟨le_rfl, (le_insert c' key _).seen⟩),
      hup.insert key hcopy, hcopy⟩

end Copier

-- ================================================== copying

namespace Frames

open Copier

variable {fs : Frames} {low : Nat}

/-- The number of values whose compound was not come across yet. -/
def unseen (fs : Frames) (c : Copier) : Nat :=
  (fs.held.filter fun t => t.copyKey?.any fun k => !c.seen.contains k).length

theorem unseen_mono {c c' : Copier} (h : c.Le c') : fs.unseen c' ≤ fs.unseen c := by
  unfold unseen
  refine (List.monotone_filter_right fs.held fun t ht => ?_).length_le
  cases hk : t.copyKey? with
  | none => simp [hk] at ht
  | some k =>
    simp only [hk, Option.any_some, Bool.not_eq_true', ← Bool.not_eq_true,
      Std.HashMap.contains_iff_mem] at ht ⊢
    exact fun hmem => ht (h.seen k hmem)

/-- Entering a compound met in a cell makes one value less. -/
theorem unseen_insert_lt {c : Copier} {t v : Term} {k : CopyKey} (ht : t ∈ fs.held)
    (hk : t.copyKey? = some k) (hnew : k ∉ c.seen) :
    fs.unseen { c with seen := c.seen.insert k v } < fs.unseen c := by
  unfold unseen
  have hsub : (fs.held.filter fun t => t.copyKey?.any fun k' => !(c.seen.insert k v).contains k')
      = (fs.held.filter fun t => t.copyKey?.any fun k => !c.seen.contains k).filter
          fun t => t.copyKey? != some k := by
    rw [List.filter_filter]
    refine List.filter_congr fun t' _ => ?_
    cases hk' : t'.copyKey? with
    | none => simp
    | some k' =>
      by_cases he : k = k'
      · simp [he]
      · have hkk : (k == k') = false := beq_eq_false_iff_ne.2 he
        have hkk' : (k' == k) = false := beq_eq_false_iff_ne.2 (Ne.symm he)
        simp [bne, hkk, hkk']
  rw [hsub]
  refine List.length_filter_lt_length_iff_exists.2 ⟨t, List.mem_filter.2 ⟨ht, ?_⟩, ?_⟩
  · simpa [hk] using hnew
  · simp [hk]

/-- What going on with a value must do: copy it, as long as no more than
`bound` values are new. -/
def Hops (fs : Frames) (low bound : Nat) (hop : Term → Copier → Term × Copier) : Prop :=
  ∀ t c, t ∈ fs.held → (∀ d m, t ≠ .ref d m) → c.Fits low → fs.unseen c ≤ bound →
    c.Copied low (hop t c)

section

variable {strict : Bool} {bound : Nat} {hop : Term → Copier → Term × Copier}

theorem Hops.copyResolved (hh : fs.Hops low bound hop) {c : Copier} (hc : c.Fits low)
    (hb : fs.unseen c ≤ bound) (d : Cell) (name : String) :
    c.Copied low (copyResolved hop (fs.resolve (.ref d name)) c) := by
  unfold Frames.copyResolved
  split
  · exact hc.freshFor _
  · rename_i hno
    obtain ⟨e, m, he⟩ | hmem := follow_cases fs (fs.made + 1) d name
    · exact absurd he (hno e m)
    · exact hh _ c hmem (fun e m => hno e m) hc hb

mutual

/-- The copy of a term is as it should be if going on with values is. -/
theorem Hops.copyIn (hh : fs.Hops low bound hop) : (t : Term) → {frame : Option FrameId} →
    {c : Copier} → t.Fits .all anyVars → c.Fits low → fs.unseen c ≤ bound →
    c.Copied low (fs.copyIn hop frame t c)
  | .ref d name, _, _, _, hc, hb => by
    rw [Frames.copyIn]
    exact hh.copyResolved hc hb d name
  | .var v, frame, _, _, hc, hb => by
    rw [Frames.copyIn.eq_def]
    cases frame with
    | none =>
      cases v with
      | wildcard => exact hc.self Term.fits_wildcard
      | named n => exact hc.freshFor _
      | slot i n => exact hc.freshFor _
    | some f =>
      cases v with
      | wildcard => exact hc.self Term.fits_wildcard
      | named n => exact hh.copyResolved hc hb _ _
      | slot i n => exact hh.copyResolved hc hb _ _
  | .closure serial name args home, _, c, ht, hc, hb => by
    rw [Frames.copyIn]
    refine hc.compound _ name fun _ => hh.copyAllIn args (fun a ha => ?_)
      (hc.insert _ Term.fits_atom) ((unseen_mono (le_insert c _ _)).trans hb)
    exact ((Term.fits_closure.1 ht).2 a ha).mono (.refl _) fun _ _ => trivial
  | .compound form name args, _, c, ht, hc, hb => by
    cases form with
    | plain =>
      rw [Frames.copyIn.eq_def]
      exact hc.self (ht.of_isPlain rfl)
    | template serial =>
      rw [Frames.copyIn]
      exact hc.compound _ name fun _ => hh.copyAllIn args (Term.fits_compound.1 ht).2
        (hc.insert _ Term.fits_atom) ((unseen_mono (le_insert c _ _)).trans hb)
  | .atom _, _, _, _, hc, _ => by
    rw [Frames.copyIn.eq_def]
    exact hc.self Term.fits_atom
  | .number _, _, _, _, hc, _ => by
    rw [Frames.copyIn.eq_def]
    exact hc.self Term.fits_number
  | .host _, _, _, _, hc, _ => by
    rw [Frames.copyIn.eq_def]
    exact hc.self Term.fits_host
  | .thunk _, _, _, _, hc, _ => by
    rw [Frames.copyIn.eq_def]
    exact hc.self Term.fits_thunk

theorem Hops.copyAllIn (hh : fs.Hops low bound hop) : (ts : List Term) →
    {frame : Option FrameId} → {c : Copier} → (∀ t ∈ ts, t.Fits .all anyVars) → c.Fits low →
    fs.unseen c ≤ bound → c.CopiedAll low (fs.copyAllIn hop frame ts c)
  | [], _, c, _, hc, _ => by
    rw [Frames.copyAllIn]
    exact ⟨.refl c, hc, fun _ ht => absurd ht List.not_mem_nil⟩
  | t :: ts, frame, c, hts, hc, hb => by
    rw [Frames.copyAllIn]
    have h₁ : c.Copied low (fs.copyIn hop frame t c) := hh.copyIn t (hts t List.mem_cons_self) hc hb
    generalize fs.copyIn hop frame t c = r₁ at *
    have h₂ : r₁.2.CopiedAll low (fs.copyAllIn hop frame ts r₁.2) :=
      hh.copyAllIn ts (fun t' ht' => hts t' (List.mem_cons_of_mem _ ht')) h₁.fits
        ((unseen_mono h₁.le).trans hb)
    refine ⟨h₁.le.trans h₂.le, h₂.fits, fun t' ht' => ?_⟩
    rcases List.mem_cons.1 ht' with rfl | ht'
    · exact h₁.copy.mono (.refl _) fun _ => h₂.le.made
    · exact h₂.copies t' ht'

end

/-- A value met in a cell is copied if, when its compound is new, the
arguments are. -/
theorem Sound.copied_value (h : fs.Sound strict) {t : Term} {c : Copier} {n : Nat}
    (ht : t ∈ fs.held) (hno : ∀ d m, t ≠ .ref d m) (hc : c.Fits low)
    (hargs : ∀ {k : CopyKey}, t.copyKey? = some k → k ∉ c.seen →
      ∀ (args : List Term) (frame : Option FrameId), (∀ a ∈ args, a.Fits .all anyVars) →
        CopiedAll low { c with seen := c.seen.insert k Term.cycle }
          (fs.copyAllIn (fs.copyWithin n) frame args
            { c with seen := c.seen.insert k Term.cycle })) :
    c.Copied low (fs.copyWithin (n + 1) t c) := by
  have hfits := h.held ht
  rw [copyWithin, Frames.copyIn.eq_def]
  cases t with
  | ref d m => exact absurd rfl (hno d m)
  | var v =>
    cases v with
    | wildcard => exact hc.self Term.fits_wildcard
    | named n => exact hc.freshFor _
    | slot i n => exact hc.freshFor _
  | closure serial name args home =>
    refine hc.compound _ name fun hnew => hargs rfl hnew args (some home) fun a ha => ?_
    exact ((Term.fits_closure.1 hfits).2 a ha).mono (.refl _) fun _ _ => trivial
  | compound form name args =>
    cases form with
    | plain => exact hc.self (hfits.of_isPlain rfl)
    | template serial =>
      exact hc.compound _ name fun hnew => hargs rfl hnew args none (Term.fits_compound.1 hfits).2
  | atom _ => exact hc.self Term.fits_atom
  | number _ => exact hc.self Term.fits_number
  | host _ => exact hc.self Term.fits_host
  | thunk _ => exact hc.self Term.fits_thunk

/-- One cell more than there are new values is enough. -/
theorem Sound.hops_copyWithin (h : fs.Sound strict) (low bound : Nat) :
    fs.Hops low bound (fs.copyWithin (bound + 1)) := by
  induction bound with
  | zero =>
    intro t c ht hno hc hb
    -- no value is new, so no compound is entered
    have hold : ∀ {k : CopyKey}, t.copyKey? = some k → k ∉ c.seen → False := fun hk hnew =>
      Nat.not_lt_zero _ ((unseen_insert_lt (v := Term.cycle) ht hk hnew).trans_le hb)
    exact h.copied_value ht hno hc fun hk hnew => (hold hk hnew).elim
  | succ bound ih =>
    intro t c ht hno hc hb
    refine h.copied_value ht hno hc fun hk hnew _ _ hargs => ?_
    have hlt := (unseen_insert_lt (v := Term.cycle) ht hk hnew).trans_le hb
    exact ih.copyAllIn _ hargs (hc.insert _ Term.fits_atom) (Nat.le_of_lt_succ hlt)

/-- A copy mentions nothing but variables that the copier made. -/
theorem Sound.copy (h : fs.Sound strict) (hw : fs.Within) {t : Term} {c : Copier}
    (ht : t.Fits .all anyVars) (hc : c.Fits low) : c.Copied low (fs.copy t c) := by
  have hle : fs.unseen c ≤ fs.made :=
    (List.length_filter_le _ _).trans ((length_held_le fs).trans hw)
  rw [Frames.copy, copyWithin]
  exact (h.hops_copyWithin low fs.made).copyIn t ht hc hle

theorem Sound.copyAll (h : fs.Sound strict) (hw : fs.Within) {ts : List Term} {c : Copier}
    (hts : ∀ t ∈ ts, t.Fits .all anyVars) (hc : c.Fits low) :
    c.CopiedAll low (fs.copyAll ts c) := by
  induction ts generalizing c with
  | nil => exact ⟨.refl c, hc, fun _ ht => absurd ht List.not_mem_nil⟩
  | cons t ts ih =>
    rw [Frames.copyAll]
    have h₁ := h.copy hw (hts t List.mem_cons_self) hc
    generalize fs.copy t c = r₁ at *
    have h₂ := ih (fun t' ht' => hts t' (List.mem_cons_of_mem _ ht')) h₁.fits
    refine ⟨h₁.le.trans h₂.le, h₂.fits, fun t' ht' => ?_⟩
    rcases List.mem_cons.1 ht' with rfl | ht'
    · exact h₁.copy.mono (.refl _) fun _ => h₂.le.made
    · exact h₂.copies t' ht'

theorem fits_start (next serial : Nat) : Copier.Fits next { next := next, serial := serial } :=
  ⟨le_rfl, fun hk => by simp at hk⟩

end

-- ================================================== copies with fresh slots

theorem locals_owner (fs : Frames) (id : FrameId) :
    fs.locals id = (fs.get? (fs.owner id)).elim 0 (·.slots.size) := by
  unfold locals get?
  split <;> rename_i h <;> rw [h] <;> rfl

/-- The slots that a frame is given are there afterwards. -/
theorem slot?_expand_isSome {f : FrameId} (hf : f < fs.size) (hown : fs.owner f = f) {count i : Nat}
    (hi : i < fs.locals f + count) : ((fs.expand f count).1.slot? ⟨f, i⟩).isSome := by
  obtain ⟨g, hg⟩ := exists_get? hf
  rw [slot?_eq, get?_expand, hg, hown, Option.map_some, if_pos rfl, Option.bind_some,
    Frame.slots_withSlots]
  rw [locals_owner, hown, hg] at hi
  have hi : i < g.slots.size + count := hi
  simpa using hi

/-- A copy in fresh slots of a frame mentions only these. -/
theorem Sound.rebind {strict : Bool} (h : fs.Sound strict) (hw : fs.Within) {t : Term}
    (ht : t.Fits .all anyVars) (id : FrameId) (serial : Nat)
    (hid : (fs.world strict).frame (fs.owner id)) :
    ∃ count, (fs.rebind t id serial).2.2 = (fs.expand (fs.owner id) count).1
      ∧ (fs.rebind t id serial).1.Live ((fs.expand (fs.owner id) count).1.world strict) := by
  have hcopy := h.copy hw ht (fits_start (fs.locals (fs.owner id)) serial)
  unfold Frames.rebind
  dsimp only
  generalize fs.copy t { next := fs.locals (fs.owner id), serial := serial } = r at *
  obtain ⟨-, hfits, hcopy⟩ := hcopy
  refine ⟨r.2.next - fs.locals (fs.owner id), rfl, ?_⟩
  have hg := Grows.expand fs (fs.owner id) (r.2.next - fs.locals (fs.owner id))
  refine (hcopy.mono (World.none_le _) fun _ hi => hi).bindTo (hg.world_le.frame _ hid) fun i hi => ?_
  have ⟨_, hlive, hown⟩ := hid
  refine ⟨hg.world_le.frame _ hid, fun _ => slot?_expand_isSome hlive hown ?_⟩
  have := hfits.next
  have := hi.2
  omega

end Frames

end LogicMachine
