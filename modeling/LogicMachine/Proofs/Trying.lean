/-
Trying alternatives.

A trial goes on with code in the frame of its choice point, or unifies
something there. Alternatives are tried one after the other until a trial
gives code; a trial that gives none has left nothing but slots behind, so
that the next one starts from where the first did.

The one trial that may bring a bare template variable into the arena is
that of a flag's value. Taking such a value is set apart (`TakesBare`);
one that is tried and not taken leaves the query as it was.
-/
import LogicMachine.Proofs.Calling

namespace LogicMachine

/-- A call that a trial makes is made anew in the frame of its point, at
the age of the point. -/
def Trial.Ready (q : Query) : Trial → Prop
  | .row _ _ caller _ revision => caller = q.callee ∧ q.ancestry = revision + 1 ∧ q.Fresh
  | _ => True

/-- How a trial ends: with code to go on with, or ready for the next one. -/
def Query.Tested (strict : Bool) (q : Query) (held : Code) :
    Option Code → Query → Prop
  | some code, q' => q.Goes strict held q' code
  | none, q' => Act.Touches strict q q'

namespace Act

section

variable {μ : Rigor} {q : Query}

-- ================================================== what was collected

theorem touches_collectors (hq : q.Sound μ.strict) {collectors : Array (List Term)}
    (hc : ∀ l ∈ collectors, ∀ t ∈ l, t.Fits .none anyVars) :
    Touches μ.strict q { q with collectors := collectors } :=
  ⟨runs_collectors hq hc, .refl _, rfl⟩

theorem tries_rebindAll (hq : q.Sound μ.strict) {items : List Term}
    (hi : ∀ i ∈ items, i.Fits .all anyVars) :
    Tries μ q (items.mapM rebind) fun ts q' => ∀ t ∈ ts, t.Live (q'.frames.world μ.strict) := by
  induction items generalizing q with
  | nil => exact .pure hq fun _ ht => absurd ht List.not_mem_nil
  | cons i items ih =>
    rw [List.mapM_cons]
    refine (tries_rebind hq (hi i List.mem_cons_self)).bind fun t q₁ h₁ ht =>
      (ih h₁.sound fun j hj => hi j (List.mem_cons_of_mem _ hj)).bind fun ts q₂ h₂ hts =>
        .pure h₂.sound fun u hu => ?_
    rcases List.mem_cons.1 hu with rfl | hu
    · exact h₂.live ht
    · exact hts u hu

/-- What was collected is taken out of its collector. -/
theorem tries_takeCollected (hq : q.Sound μ.strict) (collector : Nat) :
    Tries μ q (Control.takeCollected collector) fun ts _ => ∀ t ∈ ts, t.Fits .none anyVars := by
  have hempty : ∀ l ∈ q.collectors.modify collector fun _ => [], ∀ t ∈ l, t.Fits .none anyVars := by
    intro l hl
    obtain ⟨i, hi⟩ := Array.mem_iff_getElem?.1 hl
    rw [Array.getElem?_modify] at hi
    split at hi
    · obtain ⟨l₀, -, rfl⟩ := Option.map_eq_some_iff.1 hi
      exact fun t ht => absurd ht List.not_mem_nil
    · exact hq.collectors l (Array.mem_of_getElem? hi)
  refine ⟨fun _ _ _ hdb => ⟨hdb, touches_collectors hq hempty, fun t ht => ?_⟩⟩
  rw [List.mem_reverse, Array.getD_eq_getD_getElem?] at ht
  cases hl : q.collectors[collector]? with
  | none =>
    rw [hl] at ht
    exact absurd ht List.not_mem_nil
  | some l =>
    rw [hl] at ht
    exact hq.collectors l (Array.mem_of_getElem? hl) t ht

theorem tries_deliver (hq : q.Sound μ.strict) (collector : Nat) {target : Term}
    (ht : target.Live (q.frames.world μ.strict)) :
    Tries μ q (Control.deliver collector target) fun _ _ => True :=
  (tries_takeCollected hq collector).bind fun _ _ h₁ hts =>
    (tries_rebindAll h₁.sound fun t h => (hts t h).wellMade).bind fun _ _ h₂ hitems =>
      .read h₂.sound (reads_list hitems) fun _ hl =>
        tries_unify h₂.sound hl (h₂.live (h₁.live ht))

-- ================================================== clauses on offer

/-- A stored clause mentions nothing but its own variables. -/
theorem fits_parts {row : Row} (h : row.procedure.Fits .none) {c : Clause}
    (hc : row.procedure.clause? = some c) : ∀ a ∈ [c.head, c.body], a.Fits .none anyVars := by
  have hclause : c.Fits := by
    cases hproc : row.procedure with
    | clause c' =>
      rw [hproc] at hc h
      cases hc
      rwa [Procedure.Fits] at h
    | _ =>
      rw [hproc] at hc
      cases hc
  rw [Clause.fits_iff] at hclause
  exact List.forall_mem_cons.2 ⟨hclause.1.mono (.refl _) fun _ _ => trivial,
    List.forall_mem_singleton.2 (hclause.2.1.mono (.refl _) fun _ _ => trivial)⟩

/-- A stored clause is tried against a pattern. -/
theorem tries_runClause (hq : q.Sound μ.strict) (predicate : Predicate) {row : Row}
    (hrow : row.procedure.Fits .none) {pattern : Term}
    (hp : pattern.Live (q.frames.world μ.strict)) (remove : Bool) :
    Tries μ q (Trial.runClause predicate row pattern remove)
      fun r _ => ∀ code, r = some code → code = .succeed := by
  have hnone : ∀ code : Code, none = some code → code = .succeed := fun _ h => nomatch h
  unfold Trial.runClause
  split
  · exact .pure hq hnone
  · rename_i c hc
    refine .read hq (reads_term (fits_parts hrow hc)) fun whole hwhole =>
      (tries_rebind hq hwhole.wellMade).bind fun stored q₁ h₁ hstored =>
        .read h₁.sound (reads_unifiable h₁.sound (h₁.live hp) hstored) fun ok _ => ?_
    have htake : Tries μ q₁
        (do if ← Act.unify pattern stored then return some Code.succeed else return none)
        fun r _ => ∀ code, r = some code → code = .succeed := by
      refine (tries_unify h₁.sound (h₁.live hp) hstored).bind fun ok q₂ h₂ _ => ?_
      cases ok with
      | true => exact .pure h₂.sound fun code h => (Option.some.inj h).symm
      | false => exact .pure h₂.sound hnone
    cases ok with
    | false => exact .pure h₁.sound hnone
    | true =>
      cases remove with
      | false => exact htake
      | true =>
        refine .read h₁.sound (.store (Database.keeps_remove predicate row.id)) fun found _ => ?_
        cases found with
        | true => exact htake
        | false => exact .pure h₁.sound hnone

-- ================================================== one trial

/-- A term on offer that has no bare variable can be read. -/
theorem live_of_paired {t : Term} (h : t.Fits (q.frames.world μ.strict) anyVars)
    (hp : μ.strict = true → t.Fits .all noVars) : t.Live (q.frames.world μ.strict) := by
  cases hs : μ.strict with
  | true =>
    rw [hs] at h
    exact (h.narrow (hp hs)).mono (.refl _) fun _ hf => hf.elim
  | false =>
    rw [hs] at h
    exact h.mono (.refl _) fun _ _ => rfl

/-- What a trial holds can run where the query is. -/
theorem executes_held {trial : Trial}
    (hf : trial.Fits (q.frames.world μ.strict)
      ((q.frames.world μ.strict).slotsOf (q.frames.owner q.callee))) :
    q.Executes μ.strict trial.held := by
  cases trial with
  | code c => exact hf
  | row procedure args caller next revision => exact hf.2.2
  | _ => exact executes_succeed

/-- A trial that makes no call only touches the query; if it gives code,
that is what it holds, or failure. -/
theorem tries_leaf (hq : q.Sound μ.strict) {trial : Trial}
    (hf : trial.Fits (q.frames.world μ.strict)
      ((q.frames.world μ.strict).slotsOf (q.frames.owner q.callee)))
    (hrow : ∀ procedure args caller next revision,
      trial ≠ .row procedure args caller next revision)
    (hpaired : μ.strict = true → trial.Paired) :
    Tries μ q trial.run fun r _ => ∀ code, r = some code → code = trial.held ∨ code = .fail := by
  -- a trial that unifies goes on by succeeding or failing
  have hunifies : ∀ {act : Act Bool}, Tries μ q act (fun _ _ => True) →
      Tries μ q (do return some (Code.ofBool (← act)))
        fun r _ => ∀ code, r = some code → code = Code.succeed ∨ code = Code.fail := by
    intro act hact
    refine hact.bind fun ok q' h _ => .pure h.sound fun code hcode => ?_
    cases ok with
    | true => exact .inl (Option.some.inj hcode).symm
    | false => exact .inr (Option.some.inj hcode).symm
  cases trial with
  | code c => exact .pure hq fun code hcode => .inl (Option.some.inj hcode).symm
  | row procedure args caller next revision =>
    exact (hrow procedure args caller next revision rfl).elim
  | deliver collector target => exact hunifies (tries_deliver hq collector hf)
  | unify left right => exact hunifies (tries_unify hq hf.1 hf.2)
  | candidate left right =>
    refine (tries_unify hq hf.1 (live_of_paired hf.2 hpaired)).bind fun ok q' h _ => ?_
    cases ok with
    | true => exact .pure h.sound fun code hcode => .inl (Option.some.inj hcode).symm
    | false => exact .pure h.sound fun code hcode => nomatch hcode
  | clause predicate stored pattern remove =>
    exact (tries_runClause hq predicate hf.1 hf.2 remove).mono
      (fun r q' ⟨h, hr⟩ => ⟨h, fun code hcode => .inl (hr code hcode)⟩) fun _ h => h

/-- A row is called at the age of its point, from where the query is. -/
theorem suits_row (hq : q.Sound μ.strict) {procedure : Procedure} {args : List Term}
    {caller : FrameId} {next : Code} {revision : Nat}
    (hf : (Trial.row procedure args caller next revision).Fits (q.frames.world μ.strict)
      ((q.frames.world μ.strict).slotsOf (q.frames.owner q.callee)))
    (hready : (Trial.row procedure args caller next revision).Ready q) :
    { q with ancestry := revision + 1 } = q
      ∧ CallSite.Suits μ.strict q ⟨procedure, args, revision + 1, caller, next⟩ := by
  obtain ⟨rfl, hage, hfresh⟩ := hready
  exact ⟨by rw [← hage], hf.1.mono (World.none_le _), hq.orderly.live, hf.2.1, hf.2.2, hage.symm,
    hfresh⟩

theorem does_trial (hq : q.Sound μ.strict) {trial : Trial}
    (hf : trial.Fits (q.frames.world μ.strict)
      ((q.frames.world μ.strict).slotsOf (q.frames.owner q.callee)))
    (hready : trial.Ready q) (hpaired : μ.strict = true → trial.Paired) :
    Does μ q trial.run (q.Tested μ.strict trial.held)
      fun q' => q.Goes μ.strict trial.held q' .fail := by
  have hgo : Query.Goes μ.strict q trial.held q trial.held := .refl hq (executes_held hf)
  by_cases hrow : ∃ procedure args caller next revision,
      trial = .row procedure args caller next revision
  · obtain ⟨procedure, args, caller, next, revision, rfl⟩ := hrow
    obtain ⟨hsame, hsuits⟩ := suits_row hq hf hready
    have hcall := calls_procedure (q := q) (hsame.symm ▸ hq) (hsame.symm ▸ hsuits)
    rw [hsame] at hcall
    exact hcall.bind fun code q' h => .pure h
  · refine (tries_leaf hq hf (fun p a c n r he => hrow ⟨p, a, c, n, r, he⟩) hpaired).mono
      (fun r q' ⟨h, hr⟩ => ?_) fun q' h => (hgo.effect h.toEffect).failing
    cases r with
    | none => exact h
    | some code =>
      rcases hr code rfl with rfl | rfl
      · exact hgo.effect h.toEffect
      · exact (hgo.effect h.toEffect).failing

end

end Act

-- ================================================== with less taken for granted

theorem Frames.reach_relax {strict : Bool} {fs : Frames} {mark : Nat} :
    (fs.reach strict mark).Le (fs.reach false mark) :=
  ⟨fun _ hc => ⟨hc.1, fun hs => (nomatch hs)⟩, fun _ hf => hf, fun _ _ => rfl⟩

theorem Term.Live.relax {strict : Bool} {fs : Frames} {mark : Nat} {t : Term}
    (h : t.Live (fs.reach strict mark)) : t.Live (fs.reach false mark) :=
  h.mono Frames.reach_relax fun _ _ => rfl

/-- A sound query is one when nothing is taken for granted. -/
theorem Query.Sound.relax {strict : Bool} {q : Query} (h : q.Sound strict) : q.Sound false := by
  have hslots : ∀ {fs : Frames} {mark : Nat} {f : FrameId} (i : Nat),
      (fs.reach strict mark).slotsOf f i → (fs.reach false mark).slotsOf f i :=
    fun _ h => Frames.reach_relax.cell _ h
  have hkept : ∀ {gone : Cell → Prop} {points : List ChoicePoint},
      Kept strict q.frames gone points → Kept false q.frames gone points := by
    intro gone points hk
    induction points generalizing gone with
    | nil => trivial
    | cons p rest ih =>
      exact ⟨fun c s t hlt hg ht hs hv => Term.Live.relax (hk.1 c s t hlt hg ht hs hv), ih hk.2⟩
  refine { h with
    arena := ⟨fun hf hc => ?_, fun hs ht => Term.Live.relax (h.arena.value hs ht),
      h.arena.descends, h.arena.owned⟩
    standing := ⟨hkept h.standing.kept, fun p hp a ha =>
      (h.standing.offers p hp a ha).mono Frames.reach_relax hslots⟩ }
  obtain ⟨hlt, hfits⟩ := h.arena.next hf hc
  exact ⟨hlt, hfits.mono Frames.reach_relax hslots⟩

theorem Env.Sound.relax {tame : Bool} {env : Env} (h : env.Sound tame) : env.Sound false := by
  refine ⟨h.ok, fun hdb he => ?_⟩
  obtain ⟨hq, hdb', hfits⟩ := h.error hdb he
  exact ⟨hq, hdb', hfits.relax⟩

-- ================================================== one after the other

theorem Work.size {strict : Bool} {q q' : Query} (h : Work strict q q') :
    q'.frames.size = q.frames.size := by
  cases h with
  | bind cells hb _ => exact hb.reslots.size
  | grow id count => exact Frames.size_expand ..
  | _ => rfl

/-- Work enters no frame. -/
theorem Works.size {strict : Bool} {q q' : Query} (h : Works strict q q') :
    q'.frames.size = q.frames.size := by
  induction h with
  | refl => rfl
  | tail _ hw ih => exact hw.size.trans ih

/-- Where its point leads, the alternatives can be read. -/
def Query.Offers (strict : Bool) (q : Query) (id : Nat) (a : Alternatives) : Prop :=
  ∀ p ∈ q.choices.points, p.id = id →
    a.Fits (q.frames.reach strict p.mark)
      ((q.frames.reach strict p.mark).slotsOf (q.frames.owner p.frame))

theorem Query.Offers.advances {strict : Bool} {q q' : Query} {id : Nat} {a : Alternatives}
    (h : q.Offers strict id a) (hq : q.Sound strict) (ha : q.Advances q')
    (hid : id ≤ q.choices.serial) : q'.Offers strict id a := by
  intro p' hp' hid'
  obtain ⟨p, hp, hs⟩ := ha.points p' hp' (hid'.le.trans hid)
  rw [hs.mark, hs.frame, ha.grows.owner (hq.frame_lt hp)]
  exact (h p hp (hs.id ▸ hid')).mono ha.grows.reach_le fun i hi => ha.grows.reach_le.cell _ hi

/-- The query has just gone back to its topmost point, the one named. -/
def Query.Resumed (q : Query) (id : Nat) : Prop :=
  ∃ p below, q.choices.points = p :: below ∧ p.id = id ∧ p.frame = q.callee
    ∧ p.mark = q.frames.size

/-- What can be read where the query is can be read where that point leads.
-/
theorem Query.Resumed.offers {strict : Bool} {q : Query} {id : Nat} {a : Alternatives}
    (h : q.Resumed id) (hq : q.Sound strict)
    (hf : a.Fits (q.frames.world strict)
      ((q.frames.world strict).slotsOf (q.frames.owner q.callee))) : q.Offers strict id a := by
  obtain ⟨p, below, hpts, hid, hframe, hmark⟩ := h
  intro p' hp' hid'
  have hp : p ∈ q.choices.points := hpts ▸ List.mem_cons_self
  obtain rfl := hq.orderly.points.eq_of_id hp' hp (hid'.trans hid.symm)
  rw [hmark, hframe]
  exact hf

/-- What can be read where the query is can be read there after some work. -/
theorem Act.Touches.fits {strict : Bool} {q q' : Query} {a : Alternatives}
    (h : Act.Touches strict q q') (hq : q.Sound strict)
    (hf : a.Fits (q.frames.world strict)
      ((q.frames.world strict).slotsOf (q.frames.owner q.callee))) :
    a.Fits (q'.frames.world strict)
      ((q'.frames.world strict).slotsOf (q'.frames.owner q'.callee)) := by
  obtain ⟨hgrows, hcallee, -, -⟩ := h.works.steady
  rw [hcallee, hgrows.owner hq.orderly.live]
  exact hf.mono hgrows.world_le fun i hi => hgrows.world_le.cell _ hi

/-- Alternatives are in flight and the query is where they are tried. -/
structure Query.Trying (strict : Bool) (x : Moment) (q : Query) (r : Resumption) : Prop where
  moves : Moves strict x ⟨q.holding .fail, some r⟩
  sound : q.Sound strict
  atPoint : q.Resumed r.id
  fits : r.alternatives.Fits (q.frames.world strict)
    ((q.frames.world strict).slotsOf (q.frames.owner q.callee))

/-- The code that trying alternatives ended with; an error makes the query
fail. -/
def Alternatives.ending : Except Failure Code → Code
  | .ok code => code
  | .error _ => .fail

/-- Alternatives have been tried, and what is left of them is in flight.
-/
structure Query.Tried (strict : Bool) (x : Moment) (q : Query) (r : Resumption) (code : Code) :
    Prop where
  moves : Moves strict x ⟨q.holding code, some r⟩
  sound : q.Sound strict
  executes : q.Executes strict code
  offers : q.Offers strict r.id r.alternatives

theorem Alternatives.eq_of_next?_row {a rest : Alternatives} {procedure : Procedure}
    {args : List Term} {caller : FrameId} {next : Code} {revision : Nat}
    (hn : a.next? = some (.row procedure args caller next revision, rest)) :
    ∃ snapshot index, a = .rows snapshot index args next caller revision := by
  unfold Alternatives.next? at hn
  repeat' split at hn
  all_goals first
    | cases hn; exact ⟨_, _, rfl⟩
    | cases hn

/-- Only a term on offer can have a bare variable. -/
theorem Alternatives.eq_of_not_paired {a rest : Alternatives} {trial : Trial}
    (hn : a.next? = some (trial, rest)) (hp : ¬ trial.Paired) :
    ∃ item later target, a = .candidates (item :: later) target ∧ rest = .candidates later target
      ∧ trial = .candidate target item ∧ ¬ item.Fits .all noVars := by
  cases a with
  | candidates items target =>
    cases items with
    | nil => cases hn
    | cons item later =>
      cases hn
      exact ⟨item, later, target, rfl, rfl, rfl, hp⟩
  | _ =>
    refine absurd (Alternatives.Paired.next? ?_ hn).1 hp
    trivial

/-- The last thing tried was a term with a bare variable. -/
def Alternatives.TakesBare (a rest : Alternatives) : Prop :=
  ∃ earlier item later target, a = .candidates (earlier ++ item :: later) target
    ∧ rest = .candidates later target ∧ ¬ item.Fits .all noVars

/-- What was tried before does not matter. -/
theorem Alternatives.TakesBare.of_next? {a rest rest' : Alternatives} {trial : Trial}
    (h : rest.TakesBare rest') (hn : a.next? = some (trial, rest)) : a.TakesBare rest' := by
  obtain ⟨earlier, item, later, target, rfl, rfl, hitem⟩ := h
  obtain ⟨first, rfl⟩ : ∃ first, a = .candidates (first :: (earlier ++ item :: later)) target := by
    unfold Alternatives.next? at hn
    repeat' split at hn
    all_goals first
      | cases hn; exact ⟨_, rfl⟩
      | cases hn
  exact ⟨first :: earlier, item, later, target, rfl, rfl, hitem⟩

namespace Query.Trying

variable {strict : Bool} {x : Moment} {q q' : Query} {id : Nat} {a rest : Alternatives}
  {trial : Trial}

theorem orderly (h : q.Trying strict x ⟨id, a⟩) (hx : x.Orderly) :
    Moment.Orderly ⟨q.holding .fail, some ⟨id, a⟩⟩ := h.moves.orderly hx

theorem id_le (h : q.Trying strict x ⟨id, a⟩) : id ≤ q.choices.serial := by
  obtain ⟨p, below, hpts, hid, -, -⟩ := h.atPoint
  have hp : p ∈ q.choices.points := hpts ▸ List.mem_cons_self
  exact hid.ge.trans (h.sound.orderly.points.point p hp).id

/-- The next thing is tried: the code that it holds is that of a move. -/
theorem attempt (h : q.Trying strict x ⟨id, a⟩) (hn : a.next? = some (trial, rest)) :
    Moves strict x ⟨q.holding trial.held, some ⟨id, rest⟩⟩ := by
  obtain ⟨p, below, hpts, hid, hframe, -⟩ := h.atPoint
  exact h.moves.tail (.attempt ⟨p, below, hpts, hid, hframe.symm⟩ hn)

/-- A row is called anew in the frame of its point. -/
theorem ready (h : q.Trying strict x ⟨id, a⟩) (hx : x.Orderly)
    (hn : a.next? = some (trial, rest)) : trial.Ready q := by
  cases trial with
  | row procedure args caller next revision =>
    obtain ⟨snapshot, index, rfl⟩ := Alternatives.eq_of_next?_row hn
    obtain ⟨p, below, hpts, hid, hframe, hmark⟩ := h.atPoint
    obtain ⟨p', hp', hid', hage, hscope, hcaller, hanc, hframes, hpoints⟩ :=
      (h.orderly hx).flight rfl
    have hp : p ∈ q.choices.points := hpts ▸ List.mem_cons_self
    obtain rfl := h.sound.orderly.points.eq_of_id hp' hp (hid'.trans hid.symm)
    have hq : q.ancestry = revision + 1 := hage.symm.trans hanc
    refine ⟨hcaller.trans hframe, hq, fun hf => ?_, fun b hb hsome => ?_⟩
    · rw [hq]
      exact Nat.lt_succ_of_le (hframes (hmark ▸ Frames.lt_size_of_get? hf) hf)
    · rcases List.mem_cons.1 (hpts ▸ hb) with rfl | hbelow
      · rw [hscope] at hsome
        cases hsome
      · have hover := h.sound.orderly.points.ordered
        rw [hpts] at hover
        rw [hq]
        exact Nat.lt_succ_of_le (hpoints b hb (List.rel_of_pairwise_cons hover hbelow).1)
  | _ => trivial

/-- The next trial may follow one that left nothing but slots. -/
theorem next (h : q.Trying strict x ⟨id, a⟩) (hn : a.next? = some (trial, rest))
    (ht : Act.Touches strict q q') : q'.Trying strict x ⟨id, rest⟩ := by
  obtain ⟨p, below, hpts, hid, hframe, hmark⟩ := h.atPoint
  obtain ⟨-, hcallee, -, -⟩ := ht.works.steady
  have hpoints := ht.points
  rw [hpts] at hpoints
  refine ⟨((h.attempt hn).trans ((ht.works.holding _).moves _)).tail .fail, ht.sound, ?_,
    ht.fits h.sound (h.fits.next? hn).2⟩
  cases hq' : q'.choices.points with
  | nil =>
    rw [hq'] at hpoints
    cases hpoints
  | cons p' below' =>
    rw [hq'] at hpoints
    obtain ⟨hsame, -⟩ := List.forall₂_cons.1 hpoints
    exact ⟨p', below', hq', hsame.same.id.trans hid, (hsame.same.frame.trans hframe).trans
      hcallee.symm, (hsame.same.mark.trans hmark).trans ht.works.size.symm⟩

end Query.Trying

-- ================================================== one trial after the other

/-- How trying alternatives goes on after the next trial. -/
theorem Alternatives.start_succ (steps : Nat) (a : Alternatives) (env : Env) (m : Machine) :
    a.start (steps + 1) env m = match a.next? with
      | none => .ok (.ok .fail, a) m
      | some (trial, rest) => match trial.run env m with
        | .ok (some code) m' => .ok (.ok code, rest) m'
        | .ok none m' => rest.start steps env m'
        | .error e m' => .ok (.error e, rest) m' := by
  rw [Alternatives.start]
  cases a.next? with
  | none => rfl
  | some next =>
    obtain ⟨trial, rest⟩ := next
    simp only [Act.bind_apply, Act.attempt_apply]
    cases trial.run env m with
    | ok r m' => cases r <;> rfl
    | error e m' => rfl

/-- A bare term that is tried and not taken leaves the query as it was. -/
theorem ends_candidate {env : Env} {db : Database} {q : Query} {strict tame : Bool}
    (henv : env.Sound tame) (hdb : db.Sound) (hq : q.Sound strict) {target item : Term}
    (ht : target.Live (q.frames.world strict)) (hi : item.Fits (q.frames.world strict) anyVars) :
    match (Trial.candidate target item).run env ⟨db, q⟩ with
    | .ok none m => m.db.Sound ∧ m.query = q
    | .ok (some code) _ => code = .succeed
    | .error _ _ => True := by
  have hunify := (Act.unites_unify (μ := .loose) hq.relax (Term.Live.relax ht)
    (hi.mono Frames.reach_relax fun _ _ => rfl)).ends env db henv.relax hdb
  show match EStateM.bind (Act.unify target item env)
    (fun ok => (if ok = true then pure (some Code.succeed) else pure none : Act (Option Code)) env)
    ⟨db, q⟩ with
    | .ok none m => m.db.Sound ∧ m.query = q
    | .ok (some code) _ => code = .succeed
    | .error _ _ => True
  unfold EStateM.bind
  cases hr : Act.unify target item env ⟨db, q⟩ with
  | ok ok m =>
    rw [hr] at hunify
    cases ok with
    | true => rfl
    | false => exact ⟨hunify.1, hunify.2.2 rfl⟩
  | error e m => trivial

/-- Alternatives are tried one after the other until one gives code, which
can run where it leads. -/
theorem Alternatives.ends_start {μ : Rigor} {env : Env} (henv : env.Sound μ.tame) {x : Moment}
    (hx : x.Orderly) {id : Nat} (steps : Nat) {db : Database} (hdb : db.Sound) {q : Query}
    {a : Alternatives} (h : q.Trying μ.strict x ⟨id, a⟩)
    (hbare : μ.strict = true → ∀ ended rest m,
      a.start steps env ⟨db, q⟩ = .ok (ended, rest) m → ended ≠ .ok .fail → ¬ a.TakesBare rest) :
    Act.Left μ.tame (fun r q' => q'.Tried μ.strict x ⟨id, r.2⟩ (ending r.1)
      ∧ ∀ e, r.1 = .error e → e.Fits μ.tame) (fun _ => False) (a.start steps env ⟨db, q⟩) := by
  induction steps generalizing db q a with
  | zero =>
    refine ⟨hdb, ⟨h.moves, h.sound, executes_fail, h.atPoint.offers h.sound h.fits⟩, fun e he => ?_⟩
    cases he
    exact fits_unfinished
  | succ steps ih =>
    rw [start_succ] at hbare ⊢
    cases hn : a.next? with
    | none =>
      exact ⟨hdb, ⟨h.moves, h.sound, executes_fail, h.atPoint.offers h.sound h.fits⟩,
        fun e he => nomatch he⟩
    | some next =>
      obtain ⟨trial, rest⟩ := next
      simp only [hn] at hbare ⊢
      obtain ⟨htrial, hrest⟩ := h.fits.next? hn
      have hoffers := h.atPoint.offers h.sound hrest
      -- going on with the next trial
      have hgo : ∀ {m : Machine}, m.db.Sound → Act.Touches μ.strict q m.query →
          (μ.strict = true → ∀ ended rest' m',
            rest.start steps env m = .ok (ended, rest') m' → ended ≠ .ok .fail →
              ¬ a.TakesBare rest') →
          Act.Left μ.tame (fun r q' => q'.Tried μ.strict x ⟨id, r.2⟩ (ending r.1)
            ∧ ∀ e, r.1 = .error e → e.Fits μ.tame) (fun _ => False) (rest.start steps env m) := by
        intro m hm ht hnext
        refine ih hm (h.next hn ht) fun hs ended rest' m' hstart hne hbad => ?_
        exact hnext hs ended rest' m' hstart hne (hbad.of_next? hn)
      by_cases hpaired : μ.strict = true → trial.Paired
      · have hrun := (Act.does_trial h.sound htrial (h.ready hx hn) hpaired).ends env db henv hdb
        have hgoes : ∀ {q' : Query} {code : Code}, q.Goes μ.strict trial.held q' code →
            q'.Tried μ.strict x ⟨id, rest⟩ code := fun hg =>
          ⟨(h.attempt hn).trans (hg.moves _), hg.sound, hg.executes,
            hoffers.advances h.sound hg.advances h.id_le⟩
        cases hr : trial.run env ⟨db, q⟩ with
        | ok r m =>
          simp only [hr] at hrun hbare
          cases r with
          | some code => exact ⟨hrun.1, hgoes hrun.2, fun e he => nomatch he⟩
          | none => exact hgo hrun.1 hrun.2 hbare
        | error e m =>
          simp only [hr] at hrun
          refine ⟨hrun.1, hgoes hrun.2.1, fun e' he => ?_⟩
          cases he
          exact hrun.2.2
      · rw [Classical.not_imp] at hpaired
        obtain ⟨hs, hp⟩ := hpaired
        obtain ⟨item, later, target, rfl, rfl, rfl, hitem⟩ := eq_of_not_paired hn hp
        have hrun := ends_candidate henv hdb h.sound htrial.1 htrial.2
        have hbad : (candidates (item :: later) target).TakesBare (.candidates later target) :=
          ⟨[], item, later, target, rfl, rfl, hitem⟩
        cases hr : (Trial.candidate target item).run env ⟨db, q⟩ with
        | ok r m =>
          simp only [hr] at hrun hbare
          cases r with
          | some code =>
            obtain rfl : code = .succeed := hrun
            exact absurd hbad (hbare hs _ _ _ rfl fun he => nomatch he)
          | none => exact hgo hrun.1 (.of_eq h.sound hrun.2) hbare
        | error e m =>
          simp only [hr] at hbare
          exact absurd hbad (hbare hs _ _ _ rfl fun he => nomatch he)

end LogicMachine
