/-
Coming back to a goal.

A goal that may have several solutions leaves a choice point. What the query
does after a solution is no business of the goal: it binds, calls and cuts, and
leaves points of its own and goes back to them. As long as the point of the goal
is there, going back to it leads to where the goal was called, in an arena that
holds what it held then (`Query.Keeps.returns`); this is what `Moves.saves`
says of the point. Here is added that the alternatives found there are those that
were put there last, since no move but going back to the point takes them
(`Moment.Elsewhere.remains`).

Coming back, one finds slots that were not there before, unbound ones. That does
not show in what a term stands for, nor in what it can be (`Machine.Restores`).
-/
import LogicMachine.Proofs.Matching

namespace LogicMachine

-- ================================================== restored arenas

namespace Frames

variable {fs fs' : Frames}

theorem Grows.slotsBelow_le (h : fs.Grows fs') {n : Nat} (hn : n ≤ fs.size) :
    fs.slotsBelow n ≤ fs'.slotsBelow n := by
  induction n with
  | zero => exact (by simp [slotsBelow] : fs.slotsBelow 0 = 0).trans_le (Nat.zero_le _)
  | succ n ih =>
    obtain ⟨f, hf⟩ := exists_get? hn
    obtain ⟨slots, hf', hsize⟩ := h.frame hf
    rw [slotsBelow_succ hf, slotsBelow_succ hf']
    exact Nat.add_le_add (ih (Nat.le_of_succ_le hn)) hsize

theorem Grows.total_le (h : fs.Grows fs') : fs.total ≤ fs'.total := by
  have htotal : fs.total = fs.slotsBelow fs.size := by
    rw [slotsBelow, List.take_of_length_le (Array.length_toList ▸ le_rfl), total]
  rw [htotal]
  exact (h.slotsBelow_le le_rfl).trans (slotsBelow_le_total _)

theorem Restores.fills (h : fs.Restores fs') (hw : fs'.Within) : fs.Fills false fs' where
  room := h.grows.total_le.trans hw
  kept := by
    intro c v hv
    obtain ⟨s, hs, hshown⟩ := Option.bind_eq_some_iff.1 hv
    rw [shows, h.kept hs]
    exact hshown
  filled := by
    intro c s hs hvalue
    refine ⟨Option.isSome_of_eq_some (h.kept hs), fun v hv => ?_⟩
    rw [shows, h.kept hs] at hv
    simp [Slot.shown, hvalue] at hv

end Frames

/-- The machine has come back to where terms stand for what they stood for. -/
structure Machine.Restores (m m' : Machine) : Prop where
  db : m.db.Evolves m'.db
  frames : m.query.frames.Restores m'.query.frames
  room : m'.query.frames.Within

namespace Machine.Restores

variable {m m' : Machine} {t u : Term} {ts us : List Term} {n : Nat} {σ : Cell → Term}

theorem live (h : m.Restores m') (ht : t.Live (m.query.frames.world true)) :
    t.Live (m'.query.frames.world true) :=
  ht.mono h.frames.grows.world_le fun _ hr => hr

theorem resolve (h : m.Restores m') (hq : m.query.Sound true)
    (ht : t.Live (m.query.frames.world true)) :
    m'.query.frames.resolve t = m.query.frames.resolve t := by
  rw [(h.frames.fills h.room).resolve hq.arena hq.within ht]
  by_cases hcell : ∃ c name, m.query.frames.resolve t = .ref c name
  · -- a cell that was unbound has not been bound
    obtain ⟨c, name, hc⟩ := hcell
    rw [hc, Frames.refill, Frames.shows, h.frames.kept (hq.resolve_unbound ht hc)]
    rfl
  · exact Frames.refill_of_ne_ref fun c name hc => hcell ⟨c, name, hc⟩

theorem settled (h : m.Restores m') (hq : m.query.Sound true) (hdb : m.db.Sound)
    (ht : t.Live (m.query.frames.world true)) (hs : m.Settled n t) : m'.Settled n t := by
  induction hs with
  | plain hthunk => exact .plain fun id => h.resolve hq ht ▸ hthunk id
  | forced hthunk hvalue _ ih =>
    exact .forced ((h.resolve hq ht).trans hthunk) (h.db.forced _ _ hvalue)
      (ih (Act.live_of_detached (hdb.forced hvalue)))

/-- What a settled term can be, it can be again. -/
theorem denotes (h : m.Restores m') (hq : m.query.Sound true) (hdb : m.db.Sound)
    (ht : t.Live (m.query.frames.world true)) (hs : m.Settled n t) :
    m'.Denotes σ t u ↔ m.Denotes σ t u := by
  induction hs with
  | @plain t hthunk =>
    have hresolve := h.resolve hq ht
    constructor
    · intro hd
      cases hd with
      | any => exact .any
      | cell hc => exact .cell (hresolve ▸ hc)
      | same hu hatomic => exact .same (hresolve ▸ hu) hatomic
      | forced hid => exact absurd (hresolve ▸ hid) (hthunk _)
    · intro hd
      cases hd with
      | any => exact .any
      | cell hc => exact .cell (hresolve.trans hc)
      | same hu hatomic => exact .same (hresolve.trans hu) hatomic
      | forced hid => exact absurd hid (hthunk _)
  | forced hthunk hvalue _ ih =>
    rw [denotes_forced hthunk hvalue,
      denotes_forced ((h.resolve hq ht).trans hthunk) (h.db.forced _ _ hvalue)]
    exact ih (Act.live_of_detached (hdb.forced hvalue))

theorem ready (h : m.Restores m') (hq : m.query.Sound true) (hdb : m.db.Sound)
    (hts : Act.Ready m n ts) : Act.Ready m' n ts := by
  induction hts with
  | nil => exact .nil
  | cons ht hs _ ih => exact .cons (h.live ht) (h.settled hq hdb ht hs) ih

theorem forall₂_denotes (h : m.Restores m') (hq : m.query.Sound true) (hdb : m.db.Sound)
    (hts : Act.Ready m n ts) :
    List.Forall₂ (m'.Denotes σ) ts us ↔ List.Forall₂ (m.Denotes σ) ts us := by
  induction hts generalizing us with
  | nil => simp
  | cons ht hs _ ih =>
    cases us with
    | nil => simp
    | cons u us => rw [List.forall₂_cons, List.forall₂_cons, h.denotes hq hdb ht hs, ih]

theorem canBe (h : m.Restores m') (hq : m.query.Sound true) (hdb : m.db.Sound)
    (hts : Act.Ready m n ts) : m'.CanBe ts us ↔ m.CanBe ts us :=
  exists_congr fun _ => h.forall₂_denotes hq hdb hts

end Machine.Restores

-- ================================================== the point of a goal

section

variable {q q₀ q' : Query} {a : Alternatives} {x y : Moment} {id : Nat}

theorem Query.Sound.orderly_leaving {strict : Bool} (hq : q.Sound strict) (ha : a.IsLeaf) :
    Moment.Orderly ⟨q.leaving a, none⟩ :=
  hq.orderly.point none a fun _ _ hscope => ha.suits hscope

theorem Query.Sound.leaving {strict : Bool} (hq : q.Sound strict) (ha : a.IsLeaf)
    (hfits : a.Fits (q.frames.world strict)
      ((q.frames.world strict).slotsOf (q.frames.owner q.callee))) :
    (q.leaving a).Sound strict :=
  hq.point (p := ⟨q.nextPoint, q.callee, q.ancestry, none, q.frames.size, some a, []⟩) rfl rfl
    (fun _ h => Option.some.inj h ▸ hfits) (hq.orderly_leaving ha)

theorem Moment.Orderly.ordered (h : x.Orderly) : x.query.choices.Ordered where
  falling := List.pairwise_map.2 (h.points.ordered.imp And.left)
  le_serial p hp := (h.points.point p hp).id

-- ================================================== moves elsewhere

/-- A move that has nothing to do with the alternatives of the point. -/
structure Moment.Elsewhere (id : Nat) (x y : Moment) : Prop where
  move : Move true x y
  before : ∀ r, x.flight = some r → r.id ≠ id
  after : ∀ r, y.flight = some r → r.id ≠ id

/-- Just these alternatives remain at the point with this number, if it is there. -/
def Remains (id : Nat) (a : Alternatives) (points : List ChoicePoint) : Prop :=
  ∀ p ∈ points, p.id = id → p.alternatives = some a

/-- Dropping points and trailing on them does not change what remains at any. -/
theorem Remains.samePoints {points points' : List ChoicePoint} (h : Remains id a points)
    (hs : SamePoints points points') : Remains id a points' := by
  intro p' hp' hid
  obtain ⟨p, hp, hsame⟩ := exists_left_of_forall₂ hs p' hp'
  rw [hsame.alternatives]
  exact h p hp (hsame.same.id ▸ hid)

/-- What is left at another point is put back. -/
theorem Remains.settle (h : Remains id a q.choices.points) (ho : q.choices.Ordered) {id' : Nat}
    (hne : id' ≠ id) (rest : Alternatives) : Remains id a (q.settle id' rest).choices.points := by
  intro p' hp' hid
  rcases ChoiceStack.Ordered.mem_settle ho hp' with ⟨hid', -⟩ | ⟨-, p, hp, hid', ha⟩
  · exact absurd (hid'.symm.trans hid) hne
  · exact ha ▸ h p hp (hid'.trans hid)

/-- The query goes back to another point. -/
theorem Remains.retreat (h : Remains id a q.choices.points) {r : Resumption}
    (hr : q.retreat = (some r, q')) (hne : r.id ≠ id) : Remains id a q'.choices.points := by
  obtain ⟨above, p, below, hpts, hid, -, -, -, rfl⟩ := Query.retreat_split hr
  intro p' hp' hid'
  rcases List.mem_cons.1 hp' with rfl | hp'
  · exact absurd (hid.symm.trans hid') hne
  · exact h p' (hpts ▸ List.mem_append_right _ (List.mem_cons_of_mem _ hp')) hid'

/-- The point has the same left after a move elsewhere. -/
theorem Moment.Elsewhere.remains (h : x.Elsewhere id y) (hx : x.Orderly)
    (hid : id ≤ x.query.choices.serial) (hb : ∀ codes, a ≠ .branches codes)
    (hleft : Remains id a x.query.choices.points) : Remains id a y.query.choices.points := by
  -- a new point has another number
  have hpush : ∀ {frame ancestry mark scope a'},
      Remains id a (x.query.choices.push frame ancestry mark scope a').points := by
    intro frame ancestry mark scope a' p hp hpid
    rcases List.mem_cons.1 hp with rfl | hp
    · exact absurd hpid (Nat.ne_of_gt (Nat.lt_succ_of_le hid))
    · exact hleft p hp hpid
  obtain ⟨hmove, hbefore, hafter⟩ := h
  cases hmove with
  | work h =>
    cases h with
    | bind cells _ _ => exact hleft.samePoints (ChoiceStack.samePoints_recordAll ..)
    | point _ _ _ => exact hpush
    | _ => exact hleft
  | choose _ | select _ _ | guard _ _ _ _ => exact hpush
  | @cut q scope next _ =>
    obtain ⟨gone, kept, cells, hpts, -, -, hcut⟩ :=
      q.choices.cut_split q.frames (q.frames.ancestry q.callee) (scope.map (·, q.callee))
    have hkept : Remains id a kept := fun p hp => hleft p (hpts ▸ List.mem_append_right _ hp)
    show Remains id a (q.choices.cut _ _ _).points
    rw [hcut]
    exact hkept.samePoints (ChoiceStack.samePoints_recordAll _ _ ⟨kept, q.choices.serial⟩)
  | @branch q q' id' code rest hr =>
    obtain ⟨above, p, below, hpts, hpid, hp, -, -, -⟩ := Query.retreat_split hr
    have hne : id' ≠ id := by
      rintro rfl
      exact hb _ (Option.some.inj ((hleft p (hpts ▸ by simp) hpid).symm.trans hp))
    exact (hleft.retreat hr hne).settle (hx.ordered.retreat hr) hne _
  | resume hr _ =>
    have hback := hleft.retreat hr (hafter _ rfl)
    exact hback
  | settle => exact hleft.settle hx.ordered (hbefore _ rfl) _
  | unwind _ _ _ hu _ =>
    obtain ⟨above, p, below, hpts, -, rfl, rfl⟩ := ChoiceStack.unwindTo_split hu
    exact fun p' hp' => hleft p' (hpts ▸ List.mem_append_right _ (List.mem_cons_of_mem _ hp'))
  | _ => exact hleft

-- ================================================== keeping a goal

/-- The query has come from where a goal was called, and if the point of the
goal is still there, these alternatives are left. -/
structure Query.Keeps (q₀ : Query) (a : Alternatives) (q : Query) : Prop where
  moves : ∃ a₀ : Alternatives, a₀.IsLeaf ∧ Moves true ⟨q₀.leaving a₀, none⟩ ⟨q, none⟩
  sound : q.Sound true
  remains : Remains q₀.nextPoint a q.choices.points

theorem Query.Sound.keeps (hq : q.Sound true) (ha : a.IsLeaf)
    (hfits : a.Fits (q.frames.world true)
      ((q.frames.world true).slotsOf (q.frames.owner q.callee))) : q.Keeps a (q.leaving a) where
  moves := ⟨a, ha, .refl⟩
  sound := hq.leaving ha hfits
  remains := by
    intro p hp hid
    rcases List.mem_cons.1 hp with rfl | hp
    · rfl
    · exact absurd hid (Nat.ne_of_lt (Nat.lt_succ_of_le (hq.orderly.ordered.le_serial p hp)))

theorem Query.Keeps.le_serial (h : q₀.Keeps a q) : q₀.nextPoint ≤ q.choices.serial := by
  obtain ⟨a₀, -, hmoves⟩ := h.moves
  exact Moves.serial_le hmoves

/-- Whatever the query does elsewhere, it keeps the goal. -/
theorem Query.Keeps.elsewhere (h : q₀.Keeps a q) (hb : ∀ codes, a ≠ .branches codes)
    (hmoves : Relation.ReflTransGen (Moment.Elsewhere q₀.nextPoint) ⟨q, none⟩ ⟨q', none⟩)
    (hsound : q'.Sound true) : q₀.Keeps a q' := by
  have hrun : ∀ y, Relation.ReflTransGen (Moment.Elsewhere q₀.nextPoint) ⟨q, none⟩ y →
      Moves true ⟨q, none⟩ y ∧ Remains q₀.nextPoint a y.query.choices.points := by
    intro y hy
    induction hy with
    | refl => exact ⟨.refl, h.remains⟩
    | tail _ hstep ih =>
      obtain ⟨hxy, hleft⟩ := ih
      exact ⟨hxy.tail hstep.move, hstep.remains (hxy.orderly h.sound.orderly)
        (h.le_serial.trans (Moves.serial_le hxy)) hb hleft⟩
  obtain ⟨hxy, hleft⟩ := hrun _ hmoves
  obtain ⟨a₀, ha₀, hfrom⟩ := h.moves
  exact ⟨⟨a₀, ha₀, hfrom.trans hxy⟩, hsound, hleft⟩

/-- In going back the query comes to the point. -/
def Query.BackTo (q : Query) (id : Nat) : Prop := ∃ r, q.retreat.1 = some r ∧ r.id = id

/-- The code to run next does not matter for that. -/
theorem Query.BackTo.holding (h : q.BackTo id) (code : Code) : (q.holding code).BackTo id := by
  have hgo : ∀ points frames,
      (retreat.go (q.holding code) points frames).1 = (retreat.go q points frames).1 := by
    intro points
    induction points with
    | nil => exact fun _ => rfl
    | cons p rest ih =>
      intro frames
      simp only [retreat.go]
      split
      · split
        · rfl
        · exact ih _
      · exact ih _
  obtain ⟨r, hr, hid⟩ := h
  exact ⟨r, (hgo _ _).trans hr, hid⟩

/-- Where nothing is left at a point, going back does not lead there. -/
theorem Query.not_backTo (h : ∀ p ∈ q.choices.points, p.id = id → p.hasNext = false) :
    ¬ q.BackTo id := by
  rintro ⟨r, hr, rfl⟩
  obtain ⟨above, p, below, hpts, hid, ha, hmore, -, -⟩ :=
    Query.retreat_split (q := q) (Prod.ext hr rfl : q.retreat = (some r, q.retreat.2))
  have hp := h p (hpts ▸ by simp) hid
  rw [ChoicePoint.hasNext, ha] at hp
  cases hmore.symm.trans hp

/-- Going back to the point of a goal leads to where the goal was called. -/
structure Query.Returns (q₀ q : Query) : Prop where
  sound : q.Sound true
  frames : q₀.frames.Restores q.frames
  callee : q.callee = q₀.callee
  ancestry : q.ancestry = q₀.ancestry

theorem Query.Keeps.returns (h : q₀.Keeps a q) (hq₀ : q₀.Sound true)
    (hback : q.BackTo q₀.nextPoint) :
    ∃ q', q.retreat = (some ⟨q₀.nextPoint, a⟩, q') ∧ q₀.Returns q' := by
  obtain ⟨r, hr, hid⟩ := hback
  have hr : q.retreat = (some r, q.retreat.2) := Prod.ext hr rfl
  obtain ⟨a₀, ha₀, hmoves⟩ := h.moves
  have hleaving := hq₀.orderly_leaving ha₀
  obtain ⟨above, p, below, hpts, hpid, ha, -, -, hq'⟩ := Query.retreat_split hr
  have hpid : p.id = q₀.nextPoint := hpid.trans hid
  -- the point saves the arena of the call
  have hsaves : q.Saves p ((q.frames.undo (trails (above ++ [p]))).truncate p.mark) :=
    ⟨above, below, hpts, rfl⟩
  obtain ⟨p₀, saved, hsaved, hsame, hres⟩ := Moves.saves hmoves hleaving hsaves hpid.le
  obtain rfl : p₀ = ⟨q₀.nextPoint, q₀.callee, q₀.ancestry, none, q₀.frames.size, some a₀, []⟩ :=
    hleaving.points.eq_of_id hsaved.mem List.mem_cons_self (hsame.id.symm.trans hpid)
  have hleaves : Leaves ⟨q₀, none⟩ ⟨q₀.leaving a₀, none⟩
      ⟨q₀.nextPoint, q₀.callee, q₀.ancestry, none, q₀.frames.size, some a₀, []⟩ :=
    ⟨rfl, rfl, rfl, rfl, rfl⟩
  have hrestores := (hleaves.restores hleaving hsaved).trans hres
  have hleft : p.alternatives = some a := h.remains p (hpts ▸ by simp) hpid
  obtain ⟨id, alternatives⟩ := r
  obtain rfl : id = q₀.nextPoint := hid
  obtain rfl : alternatives = a := Option.some.inj (ha.symm.trans hleft)
  exact ⟨_, hr, (h.sound.retreat hr).1, hq' ▸ hrestores, hq' ▸ hsame.frame, hq' ▸ hsame.ancestry⟩

end

end LogicMachine
