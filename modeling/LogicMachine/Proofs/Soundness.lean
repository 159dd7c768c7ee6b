/-
Sound arenas.

An arena is sound if it mentions only what is there: a value in a slot
names live frames and existing slots, and the code that a frame goes on
with names nothing as young as the frame itself. So whatever is younger can
be dropped. In a sound arena a chain of references leads from slot to
strictly older slot; since there are no more slots than were ever made,
following it ends where the chain does.

All this is said twice, told apart by the parameter `strict`. A run that
has read, from a flag, a term with bare template variables may come to name
slots that a frame has not; the frames it names are there all the same. So
without `strict` nothing is said of slots and the order of bindings, only of
frames.
-/
import LogicMachine.Frames.Unify
import LogicMachine.Proofs.Mention
import LogicMachine.Proofs.Moves

namespace LogicMachine

/-- The term fits, and has template variables only if the world allows
bare ones. -/
abbrev Term.Live (w : World) (t : Term) : Prop := t.Fits w w.raw

/-- The older of two cells: the one in the older frame, else the one that
comes first there. -/
def Cell.Before (d c : Cell) : Prop := d.frame < c.frame ∨ d.frame = c.frame ∧ d.slot < c.slot

namespace Frames

-- ================================================== the world of an arena

/-- What may be mentioned of the frames below a mark. -/
def reach (strict : Bool) (fs : Frames) (mark : Nat) : World where
  cell c := (c.frame < mark ∧ c.frame < fs.size ∧ fs.owner c.frame = c.frame)
    ∧ (strict = true → (fs.slot? c).isSome)
  frame f := f < mark ∧ f < fs.size ∧ fs.owner f = f
  raw _ := strict = false

/-- What may be mentioned of an arena. -/
abbrev world (strict : Bool) (fs : Frames) : World := fs.reach strict fs.size

section

variable {strict : Bool} {fs fs' : Frames} {mark mark' : Nat}

theorem reach_mono (h : mark ≤ mark') : (fs.reach strict mark).Le (fs.reach strict mark') :=
  ⟨fun _ hc => ⟨⟨hc.1.1.trans_le h, hc.1.2⟩, hc.2⟩, fun _ hf => ⟨hf.1.trans_le h, hf.2⟩,
    fun _ hr => hr⟩

/-- More may be mentioned of an arena that has grown. -/
theorem Grows.reach_le (h : fs.Grows fs') : (fs.reach strict mark).Le (fs'.reach strict mark) := by
  have hframe : ∀ f, (fs.reach strict mark).frame f → (fs'.reach strict mark).frame f :=
    fun f ⟨hm, hlive, hown⟩ => ⟨hm, hlive.trans_le h.size, (h.owner hlive).trans hown⟩
  exact ⟨fun c hc => ⟨hframe c.frame hc.1, fun hs => h.isSome_slot? (hc.2 hs)⟩, hframe, fun _ hr => hr⟩

theorem Grows.world_le (h : fs.Grows fs') : (fs.world strict).Le (fs'.world strict) :=
  (reach_mono h.size).trans h.reach_le

/-- Bare variables are allowed only where all slots are. -/
theorem slotsOf_of_raw {i : Nat} {f : FrameId} (h : (fs.reach strict mark).raw i)
    (hf : (fs.reach strict mark).frame f) : (fs.reach strict mark).slotsOf f i := by
  refine ⟨hf, fun hs => ?_⟩
  have h : strict = false := h
  rw [h] at hs
  cases hs

/-- The slots that a frame uses are those of its owner. -/
theorem slotsOf_owner {f : FrameId} {i : Nat} (hf : (fs.reach strict mark).frame f)
    (h : (fs.reach strict mark).slotsOf f i) : (fs.reach strict mark).slotsOf (fs.owner f) i := by
  rw [hf.2.2]
  exact h

theorem frame_owner {f : FrameId} (hf : (fs.reach strict mark).frame f) :
    (fs.reach strict mark).frame (fs.owner f) := by
  rw [hf.2.2]
  exact hf

end

-- ================================================== places

/-- The number of slots of the first frames. -/
def slotsBelow (fs : Frames) (n : Nat) : Nat := ((fs.frames.toList.take n).map (·.slots.size)).sum

/-- The place of a cell among all cells, oldest first. -/
def place (fs : Frames) (c : Cell) : Nat := fs.slotsBelow c.frame + c.slot

section

variable {fs : Frames}

theorem slotsBelow_succ {n : Nat} {f : Frame} (h : fs.get? n = some f) :
    fs.slotsBelow (n + 1) = fs.slotsBelow n + f.slots.size := by
  unfold get? at h
  have hl : fs.frames.toList[n]? = some f := by rw [Array.getElem?_toList, h]
  simp [slotsBelow, List.take_add_one, hl]

theorem slotsBelow_mono {m n : Nat} (h : m ≤ n) : fs.slotsBelow m ≤ fs.slotsBelow n := by
  unfold slotsBelow
  rw [← Nat.add_sub_cancel' h, List.take_add, List.map_append, List.sum_append]
  exact Nat.le_add_right _ _

theorem slotsBelow_le_total (n : Nat) : fs.slotsBelow n ≤ fs.total := by
  unfold slotsBelow total
  conv => rhs; rw [← List.take_append_drop n fs.frames.toList]
  rw [List.map_append, List.sum_append]
  exact Nat.le_add_right _ _

/-- An existing cell comes before all slots of younger frames. -/
theorem place_lt_slotsBelow {c : Cell} (h : (fs.slot? c).isSome) :
    fs.place c < fs.slotsBelow (c.frame + 1) := by
  rw [slot?_eq] at h
  cases hf : fs.get? c.frame with
  | none => simp [hf] at h
  | some f =>
    have hlt : c.slot < f.slots.size := by simpa [hf] using h
    rw [slotsBelow_succ hf]
    exact Nat.add_lt_add_left hlt _

theorem place_lt_total {c : Cell} (h : (fs.slot? c).isSome) : fs.place c < fs.total :=
  (place_lt_slotsBelow h).trans_le (slotsBelow_le_total _)

theorem place_lt_place {d c : Cell} (hd : (fs.slot? d).isSome) (h : d.Before c) :
    fs.place d < fs.place c := by
  rcases h with h | ⟨h, hs⟩
  · have hle : fs.slotsBelow (d.frame + 1) ≤ fs.slotsBelow c.frame := slotsBelow_mono h
    exact (place_lt_slotsBelow hd).trans_le (hle.trans (Nat.le_add_right _ _))
  · unfold place
    rw [h]
    exact Nat.add_lt_add_left hs _

end

-- ================================================== sound arenas

/-- The arena mentions only what is there. -/
structure Sound (strict : Bool) (fs : Frames) : Prop where
  next : ∀ {i f c}, fs.get? i = some f → f.caller = some c →
    c < i ∧ f.next.Fits (fs.reach strict i) ((fs.reach strict i).slotsOf (fs.owner c))
  value : ∀ {c s t}, fs.slot? c = some s → s.value = some t ∨ s.scratch = some t →
    t.Live (fs.world strict)
  descends : ∀ {c s d name}, fs.slot? c = some s →
    s.value = some (.ref d name) ∨ s.scratch = some (.ref d name) → d.Before c
  owned : ∀ {i f}, fs.get? i = some f →
    f.owner ≤ i ∧ (f.slots ≠ #[] → f.owner = i)
      ∧ ∃ g, fs.get? f.owner = some g ∧ g.owner = f.owner ∧ g.ordinal = g.ancestry
        ∧ f.ordinal = g.ordinal

namespace Sound

variable {strict : Bool} {fs fs' : Frames}

/-- The frame of an existing slot is its own owner. -/
theorem frame_of_slot? (h : fs.Sound strict) {c : Cell} (hc : (fs.slot? c).isSome) :
    (fs.world strict).frame c.frame := by
  rw [slot?_eq] at hc
  cases hf : fs.get? c.frame with
  | none => simp [hf] at hc
  | some f =>
    have hne : f.slots ≠ #[] := by
      rintro he
      simp [hf, he] at hc
    have hlive := lt_size_of_get? hf
    exact ⟨hlive, hlive, (owner_eq hf).trans ((h.owned hf).2.1 hne)⟩

/-- A frame that is its own owner is as old as its slots. -/
theorem ordinal_eq_ancestry (h : fs.Sound strict) {i : FrameId} (hi : (fs.world strict).frame i) :
    ∃ f, fs.get? i = some f ∧ fs.ordinal i = f.ancestry := by
  obtain ⟨-, hlive, hown⟩ := hi
  obtain ⟨f, hf⟩ := exists_get? hlive
  obtain ⟨-, -, g, hg, -, hga, -⟩ := h.owned hf
  rw [← owner_eq hf, hown, hf] at hg
  cases hg
  exact ⟨f, hf, (ordinal_eq hf).trans hga⟩

/-- Of such frames the ages differ. -/
theorem eq_of_ordinal {age : Nat} (h : fs.Sound strict) (hl : fs.Laddered age) {i j : FrameId}
    (hi : (fs.world strict).frame i) (hj : (fs.world strict).frame j)
    (hord : fs.ordinal i = fs.ordinal j) : i = j := by
  obtain ⟨f, hf, hfo⟩ := h.ordinal_eq_ancestry hi
  obtain ⟨g, hg, hgo⟩ := h.ordinal_eq_ancestry hj
  rcases Nat.lt_trichotomy i j with hlt | heq | hgt
  · have hanc := hl.ladder hf hg hlt
    omega
  · exact heq
  · have hanc := hl.ladder hg hf hgt
    omega

/-- Of two cells of such frames the unifier takes the one for older that is. -/
theorem isOlder_iff {age : Nat} (h : fs.Sound strict) (hl : fs.Laddered age) {a b : Cell}
    (ha : (fs.world strict).frame a.frame) (hb : (fs.world strict).frame b.frame) :
    fs.isOlder a b = true ↔ a.Before b := by
  obtain ⟨f, hf, hfo⟩ := h.ordinal_eq_ancestry ha
  obtain ⟨g, hg, hgo⟩ := h.ordinal_eq_ancestry hb
  unfold isOlder Cell.Before
  rw [hfo, hgo]
  rcases Nat.lt_trichotomy a.frame b.frame with hlt | heq | hgt
  · have hanc := hl.ladder hf hg hlt
    simp [hanc.ne, hanc, hlt]
  · have hfg : f = g := by
      rw [heq, hg] at hf
      exact (Option.some.inj hf).symm
    simp [hfg, heq]
  · have hanc := hl.ladder hg hf hgt
    have hne : f.ancestry ≠ g.ancestry := hanc.ne'
    simp [hne, Nat.not_lt.2 hanc.le, Nat.not_lt.2 hgt.le, (Nat.ne_of_lt hgt).symm]

/-- The same frames, perhaps with more slots, and values that are in
order. -/
theorem regrown (h : fs.Sound strict) (hg : fs.Grows fs') (hsize : fs'.size = fs.size)
    (hown : ∀ {i f}, fs'.get? i = some f → f.slots ≠ #[] → f.owner = i)
    (hv : ∀ {c s t}, fs'.slot? c = some s → s.value = some t ∨ s.scratch = some t →
      t.Live (fs.world strict) ∧ ∀ d name, t = .ref d name → d.Before c) :
    fs'.Sound strict := by
  have hback : ∀ {i f'}, fs'.get? i = some f' →
      ∃ f, fs.get? i = some f ∧ f' = f.withSlots f'.slots := by
    intro i f' hf'
    obtain ⟨f, hf⟩ := exists_get? (hsize ▸ lt_size_of_get? hf')
    obtain ⟨slots, hf'', -⟩ := hg.frame hf
    rw [hf'] at hf''
    cases hf''
    exact ⟨f, hf, rfl⟩
  refine ⟨fun hf' hc => ?_, fun hc ht => ?_, fun hc ht => ?_, fun {i f'} hf' => ?_⟩
  · obtain ⟨f, hf, heq⟩ := hback hf'
    rw [heq] at hc ⊢
    obtain ⟨hlt, hfits⟩ := h.next hf hc
    rw [hg.owner (hlt.trans (lt_size_of_get? hf))]
    exact ⟨hlt, hfits.mono hg.reach_le fun i hi => hg.reach_le.cell _ hi⟩
  · exact (hv hc ht).1.mono hg.world_le fun _ hr => hr
  · exact (hv hc ht).2 _ _ rfl
  · obtain ⟨f, hf, heq⟩ := hback hf'
    obtain ⟨hle, -, g, hgf, hgo, hga, hord⟩ := h.owned hf
    obtain ⟨slots, hg', -⟩ := hg.frame hgf
    have howner : f'.owner = f.owner := by rw [heq, Frame.owner_withSlots]
    rw [howner]
    refine ⟨hle, fun hne => howner ▸ hown hf' hne, _, hg', hgo, hga, ?_⟩
    rw [heq]
    exact hord

/-- The same frames and slots, and values that are in order. -/
theorem of_reslots (h : fs.Sound strict) (hr : fs.Reslots fs')
    (hv : ∀ {c s t}, fs'.slot? c = some s → s.value = some t ∨ s.scratch = some t →
      t.Live (fs.world strict) ∧ ∀ d name, t = .ref d name → d.Before c) :
    fs'.Sound strict := by
  refine h.regrown hr.grows hr.size (fun {i f'} hf' hne => ?_) hv
  obtain ⟨f, hf, heq, hsize⟩ := hr.frame_inv hf'
  rw [heq]
  refine (h.owned hf).2.1 fun he => hne ?_
  rw [he] at hsize
  exact Array.eq_empty_of_size_eq_zero hsize

/-- What the slots of a sound arena hold is in order. -/
theorem in_order (h : fs.Sound strict) {c : Cell} {s : Slot} {t : Term}
    (hc : fs.slot? c = some s) (ht : s.value = some t ∨ s.scratch = some t) :
    t.Live (fs.world strict) ∧ ∀ d name, t = .ref d name → d.Before c :=
  ⟨h.value hc ht, fun _ _ he => h.descends hc (he ▸ ht)⟩

/-- New slots are unbound. -/
theorem expand (h : fs.Sound strict) (id : FrameId) (count : Nat) :
    (fs.expand id count).1.Sound strict := by
  refine h.regrown (.expand fs id count) (size_expand ..) (fun {i f'} hf' hne => ?_) fun {c s t} hc ht => ?_
  · rw [get?_expand] at hf'
    obtain ⟨f, hf, rfl⟩ := Option.map_eq_some_iff.1 hf'
    obtain ⟨-, hown, -⟩ := h.owned hf
    by_cases hi : fs.owner id = i
    · -- the slots go to the owner of a frame, which owns itself
      subst hi
      rw [if_pos rfl]
      by_cases hid : id < fs.size
      · obtain ⟨e, he⟩ := exists_get? hid
        rw [owner_eq he] at hf ⊢
        obtain ⟨-, -, g, hgf, hgo, -⟩ := h.owned he
        rw [hf] at hgf
        cases hgf
        exact hgo
      · rw [owner_of_le (Nat.le_of_not_lt hid)] at hf
        exact absurd (lt_size_of_get? hf) hid
    · rw [if_neg hi] at hne ⊢
      exact hown hne
  · rw [slot?_eq, get?_expand] at hc
    cases hf : fs.get? c.frame with
    | none => simp [hf] at hc
    | some f =>
      rw [hf, Option.map_some, Option.bind_some] at hc
      have hold : f.slots[c.slot]? = some s → fs.slot? c = some s := fun hs => by
        rw [slot?_eq, hf]
        exact hs
      split at hc
      · rw [Frame.slots_withSlots, Array.getElem?_append] at hc
        split at hc
        · exact h.in_order (hold hc) ht
        · rw [Array.getElem?_replicate] at hc
          split at hc
          · cases hc
            simp at ht
          · cases hc
      · exact h.in_order (hold hc) ht

/-- A frame whose code and base are in order may be entered. -/
theorem push (h : fs.Sound strict) (ancestry : Nat) {caller : FrameId} (hc : caller < fs.size)
    {next : Code} (hn : next.Fits (fs.world strict) ((fs.world strict).slotsOf (fs.owner caller)))
    (procedure : Option Procedure) (locals : Nat) {base : Option FrameId}
    (hb : ∀ b ∈ base, (fs.world strict).frame b) :
    (fs.push ancestry (some caller) next procedure locals base).1.Sound strict := by
  have hg := Grows.push fs ancestry (some caller) next procedure locals base
  have hget := get?_push fs ancestry (some caller) next procedure locals base
  have hslots : ∀ {j : Nat} {s : Slot}, (fs.entered ancestry (some caller) next procedure locals base).slots[j]?
      = some s → s = {} := by
    intro j s hs
    cases base with
    | none =>
      simp only [entered, Array.getElem?_replicate] at hs
      split at hs
      · exact (Option.some.inj hs).symm
      · cases hs
    | some b => simp [entered] at hs
  have hold : ∀ {i f}, fs.get? i = some f →
      (fs.push ancestry (some caller) next procedure locals base).1.get? i = some f := by
    intro i f hf
    rw [hget, if_neg (lt_size_of_get? hf).ne, hf]
  refine ⟨fun {i f c} hf hcaller => ?_, fun {c s t} hs ht => ?_, fun {c s d name} hs ht => ?_,
    fun {i f} hf => ?_⟩
  · rw [hget] at hf
    split at hf
    · rename_i hi
      cases hf
      cases hcaller
      subst hi
      rw [hg.owner hc]
      exact ⟨hc, hn.mono hg.reach_le fun i hi => hg.reach_le.cell _ hi⟩
    · obtain ⟨hlt, hfits⟩ := h.next hf hcaller
      rw [hg.owner (hlt.trans (lt_size_of_get? hf))]
      exact ⟨hlt, hfits.mono hg.reach_le fun i hi => hg.reach_le.cell _ hi⟩
  · rw [slot?_eq, hget] at hs
    split at hs
    · rw [hslots hs] at ht
      simp at ht
    · rw [← slot?_eq] at hs
      exact (h.value hs ht).mono hg.world_le fun _ hr => hr
  · rw [slot?_eq, hget] at hs
    split at hs
    · rw [hslots hs] at ht
      simp at ht
    · rw [← slot?_eq] at hs
      exact h.descends hs ht
  · rw [hget] at hf
    split at hf
    · rename_i hi
      cases hf
      cases base with
      | none =>
        refine ⟨hi.ge, fun _ => hi.symm, _, ?_, rfl, rfl, rfl⟩
        exact (hget _).trans (if_pos rfl)
      | some b =>
        obtain ⟨-, hlive, hself⟩ := hb b rfl
        obtain ⟨g, hgb⟩ := exists_get? hlive
        obtain ⟨-, -, e, he, heo, hea, -⟩ := h.owned hgb
        rw [← owner_eq hgb, hself, hgb] at he
        cases he
        have hown : (fs.entered ancestry (some caller) next procedure locals (some b)).owner = b :=
          hself
        rw [hown]
        refine ⟨hi ▸ hlive.le, fun hne => absurd rfl hne, g, hold hgb, by rw [heo, ← owner_eq hgb, hself],
          hea, ?_⟩
        show fs.ordinal (fs.owner b) = g.ordinal
        rw [hself, ordinal_eq hgb]
    · obtain ⟨hle, hown, g, hgf, hrest⟩ := h.owned hf
      exact ⟨hle, hown, g, hold hgf, hrest⟩

end Sound

-- ================================================== going back

section

variable {strict : Bool} {fs : Frames} {mark n : Nat} {trail : List Cell}

theorem get?_back (fs : Frames) (trail : List Cell) (hm : 0 < mark) (i : FrameId) :
    ((fs.undo trail).truncate mark).get? i
      = if i < mark then (fs.get? i).map fun f => f.withSlots (wiped trail i f.slots) else none := by
  rw [get?_truncate, Nat.max_eq_left hm, get?_undo]

theorem slot?_back (fs : Frames) (trail : List Cell) (hm : 0 < mark) (c : Cell) :
    ((fs.undo trail).truncate mark).slot? c
      = if c.frame < mark then (fs.slot? c).map fun s => if c ∈ trail then {} else s else none := by
  rw [slot?_truncate, Nat.max_eq_left hm, slot?_undo]

theorem owner_back (trail : List Cell) {i : FrameId} (hi : i < mark) (hle : mark ≤ fs.size) :
    ((fs.undo trail).truncate mark).owner i = fs.owner i := by
  obtain ⟨f, hf⟩ := exists_get? (hi.trans_le hle)
  have hf' : ((fs.undo trail).truncate mark).get? i = some (f.withSlots (wiped trail i f.slots)) := by
    rw [get?_back fs trail (Nat.zero_lt_of_lt hi), if_pos hi, hf]
    rfl
  rw [owner_eq hf, owner_eq hf', Frame.owner_withSlots]

/-- Going back to a mark leaves all below it there. -/
theorem reach_back (strict : Bool) (hm : 0 < mark) (hle : mark ≤ fs.size) (hn : n ≤ mark) (trail : List Cell) :
    (fs.reach strict n).Le (((fs.undo trail).truncate mark).reach strict n) := by
  have hframe : ∀ f, (fs.reach strict n).frame f →
      (((fs.undo trail).truncate mark).reach strict n).frame f := by
    intro f ⟨hlt, hlive, hown⟩
    have hlt' := hlt.trans_le hn
    refine ⟨hlt, ?_, by rw [owner_back trail hlt' hle, hown]⟩
    rw [size_truncate, size_undo]
    exact Nat.lt_min.2 ⟨hlt'.trans_le (Nat.le_max_left _ _), hlive⟩
  refine ⟨fun c hc => ⟨hframe c.frame hc.1, fun hs => ?_⟩, hframe, fun _ hr => hr⟩
  rw [slot?_back fs trail hm, if_pos (hc.1.1.trans_le hn), Option.isSome_map]
  exact hc.2 hs

/-- Going back to a mark, where every value that stays names only what
stays. -/
theorem Sound.back (h : fs.Sound strict) (hm : 0 < mark) (hle : mark ≤ fs.size)
    (hkept : ∀ {c s t}, c.frame < mark → c ∉ trail → fs.slot? c = some s →
      s.value = some t ∨ s.scratch = some t → t.Live (fs.reach strict mark)) :
    ((fs.undo trail).truncate mark).Sound strict := by
  have hsize : ((fs.undo trail).truncate mark).size = mark := by
    rw [size_truncate, size_undo, Nat.max_eq_left hm, Nat.min_eq_left hle]
  have hslot : ∀ {c s t}, ((fs.undo trail).truncate mark).slot? c = some s →
      s.value = some t ∨ s.scratch = some t →
      c.frame < mark ∧ c ∉ trail ∧ fs.slot? c = some s := by
    intro c s t hs ht
    rw [slot?_back fs trail hm] at hs
    split at hs
    · rename_i hlt
      obtain ⟨s₀, hs₀, rfl⟩ := Option.map_eq_some_iff.1 hs
      split at ht
      · simp at ht
      · rename_i hc
        exact ⟨hlt, hc, by rw [if_neg hc]; exact hs₀⟩
    · cases hs
  refine ⟨fun {i f c} hf hcaller => ?_, fun {c s t} hs ht => ?_, fun {c s d name} hs ht => ?_,
    fun {i f} hf => ?_⟩
  · rw [get?_back fs trail hm] at hf
    split at hf
    · rename_i hi
      obtain ⟨f₀, hf₀, rfl⟩ := Option.map_eq_some_iff.1 hf
      obtain ⟨hlt, hfits⟩ := h.next hf₀ hcaller
      have hreach := reach_back strict hm hle hi.le trail
      rw [owner_back trail (hlt.trans hi) hle]
      exact ⟨hlt, hfits.mono hreach fun j hj => hreach.cell _ hj⟩
    · cases hf
  · obtain ⟨hlt, hc, hs⟩ := hslot hs ht
    have hreach := reach_back strict hm hle le_rfl trail
    rw [world, hsize]
    exact (hkept hlt hc hs ht).mono hreach fun _ hr => hr
  · exact h.descends (hslot hs ht).2.2 ht
  · rw [get?_back fs trail hm] at hf
    split at hf
    · rename_i hi
      obtain ⟨f₀, hf₀, rfl⟩ := Option.map_eq_some_iff.1 hf
      obtain ⟨hlow, hown, g, hg, hgo, hga, hord⟩ := h.owned hf₀
      refine ⟨hlow, fun hne => hown fun he => hne ?_, g.withSlots (wiped trail f₀.owner g.slots), ?_,
        hgo, hga, hord⟩
      · rw [Frame.slots_withSlots, he]
        rfl
      · rw [Frame.owner_withSlots, get?_back fs trail hm, if_pos (hlow.trans_lt hi), hg]
        rfl
    · cases hf

end

end Frames

end LogicMachine
