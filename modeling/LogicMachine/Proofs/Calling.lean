/-
Making calls.

A call enters a frame, or works on behalf of its caller, and answers the
code to go on with (`Query.Invoked`). Nothing that was there goes
meanwhile: frames and slots are added and choice points left
(`Query.Advances`). What a call does is a sequence of moves from the code
that follows it to the code it answers (`Query.Goes`); the same is said of
a call that fails with an error, which goes on, as far as its query is
concerned, by failing.
-/
import LogicMachine.Engine
import LogicMachine.Proofs.Offering

namespace LogicMachine

-- ================================================== what stays

/-- Nothing that was there has gone: the arena has grown, and a point that
is no younger is one that was there. -/
structure Query.Advances (q q' : Query) : Prop where
  grows : q.frames.Grows q'.frames
  serial : q.choices.serial ≤ q'.choices.serial
  points : ∀ p' ∈ q'.choices.points, p'.id ≤ q.choices.serial → ∃ p ∈ q.choices.points, p.Same p'

namespace Query.Advances

variable {q q' q'' : Query}

theorem refl (q : Query) : q.Advances q := ⟨.refl _, le_rfl, fun p hp _ => ⟨p, hp, .refl p⟩⟩

theorem trans (h : q.Advances q') (h' : q'.Advances q'') : q.Advances q'' := by
  refine ⟨h.grows.trans h'.grows, h.serial.trans h'.serial, fun p'' hp'' hid => ?_⟩
  obtain ⟨p', hp', hs'⟩ := h'.points p'' hp'' (hid.trans h.serial)
  obtain ⟨p, hp, hs⟩ := h.points p' hp' (hs'.id ▸ hid)
  exact ⟨p, hp, hs.trans hs'⟩

end Query.Advances

theorem Work.advances {strict : Bool} {q q' : Query} (h : Work strict q q') : q.Advances q' := by
  cases h with
  | bind cells hb _ =>
    refine ⟨hb.reslots.grows, (ChoiceStack.serial_recordAll ..).ge, fun p' hp' _ => ?_⟩
    obtain ⟨p, hp, hs⟩ := exists_left_of_forall₂ (ChoiceStack.samePoints_recordAll ..) p' hp'
    exact ⟨p, hp, hs.same⟩
  | grow id count => exact ⟨.expand .., le_rfl, fun p hp _ => ⟨p, hp, .refl p⟩⟩
  | point _ _ _ =>
    refine ⟨.refl _, Nat.le_succ _, fun p hp hid => ?_⟩
    rcases List.mem_cons.1 hp with rfl | hp
    · exact absurd hid (Nat.not_succ_le_self _)
    · exact ⟨p, hp, .refl p⟩
  | collect _ => exact ⟨.refl _, le_rfl, fun p hp _ => ⟨p, hp, .refl p⟩⟩

theorem Works.advances {strict : Bool} {q q' : Query} (h : Works strict q q') : q.Advances q' := by
  induction h with
  | refl => exact .refl q
  | tail _ hw ih => exact ih.trans hw.advances

-- ================================================== going on

/-- The query has moved on, from having `next` to run to having `code`,
while the alternatives in flight stayed what they were. -/
structure Query.Goes (strict : Bool) (q : Query) (next : Code) (q' : Query) (code : Code) :
    Prop where
  moves : ∀ fl, Moves strict ⟨q.holding next, fl⟩ ⟨q'.holding code, fl⟩
  advances : q.Advances q'
  sound : q'.Sound strict
  executes : q'.Executes strict code

namespace Query.Goes

variable {strict : Bool} {q q' q'' : Query} {next code code' : Code}

theorem refl (hq : q.Sound strict) (hn : q.Executes strict next) : Goes strict q next q next :=
  ⟨fun _ => .refl, .refl q, hq, hn⟩

theorem trans (h : Goes strict q next q' code) (h' : Goes strict q' code q'' code') :
    Goes strict q next q'' code' :=
  ⟨fun fl => (h.moves fl).trans (h'.moves fl), h.advances.trans h'.advances, h'.sound, h'.executes⟩

/-- A query can always fail. -/
theorem failing (h : Goes strict q next q' code) : Goes strict q next q' .fail :=
  ⟨fun fl => (h.moves fl).tail .fail, h.advances, h.sound, executes_fail⟩

/-- Further work by a built-in. -/
theorem effect (h : Goes strict q next q' code) (he : Act.Effect strict q' q'') :
    Goes strict q next q'' code :=
  ⟨fun fl => (h.moves fl).trans ((he.works.holding code).moves fl),
    h.advances.trans he.works.advances, he.sound, he.executes h.sound h.executes⟩

end Query.Goes

-- ================================================== entering a frame

/-- The query after a frame was entered. -/
def Query.entered (q : Query) (site : CallSite) (locals : Nat) (base : Option FrameId) : Query :=
  { q with
    frames := (q.frames.push site.ancestry (some q.callee) site.next (some site.procedure) locals
      base).1
    callee := q.frames.size }

/-- A call that can be made: what it mentions is there, and nothing is as
young as it. -/
structure CallSite.Suits (strict : Bool) (q : Query) (site : CallSite) : Prop where
  procedure : site.procedure.Fits (q.frames.world strict)
  caller : site.caller < q.frames.size
  args : ∀ a ∈ site.args, a.Fits (q.frames.world strict)
    ((q.frames.world strict).slotsOf (q.frames.owner site.caller))
  next : q.Executes strict site.next
  ancestry : site.ancestry = q.ancestry
  fresh : q.Fresh

namespace Query

variable {strict : Bool} {q : Query} {site : CallSite} {locals : Nat} {base : Option FrameId}

theorem advances_entered : q.Advances (q.entered site locals base) :=
  ⟨.push .., le_rfl, fun p hp _ => ⟨p, hp, .refl p⟩⟩

theorem get?_entered :
    (q.entered site locals base).frames.get? q.frames.size
      = some (q.frames.entered site.ancestry (some q.callee) site.next (some site.procedure) locals
          base) := by
  rw [entered, Frames.get?_push, if_pos rfl]

theorem owner_entered_none :
    (q.entered site locals none).frames.owner (q.entered site locals none).callee
      = q.frames.size := by
  exact Frames.owner_eq get?_entered

theorem owner_entered_some {b : FrameId} :
    (q.entered site locals (some b)).frames.owner (q.entered site locals (some b)).callee
      = q.frames.owner b := by
  exact Frames.owner_eq get?_entered

/-- A frame of its own has the slots asked for. -/
theorem slotsOf_entered {i : Nat} (hi : i < locals) :
    ((q.entered site locals none).frames.world strict).slotsOf
      ((q.entered site locals none).frames.owner (q.entered site locals none).callee) i := by
  have hlt : q.frames.size < (q.entered site locals none).frames.size :=
    Frames.lt_size_of_get? get?_entered
  rw [owner_entered_none]
  refine ⟨⟨hlt, hlt, owner_entered_none⟩, fun _ => ?_⟩
  rw [Frames.slot?_eq, get?_entered]
  simp [Frames.entered, hi]

/-- A value that mentions only what is older is kept in the frame that was
just entered. -/
theorem Opened.keep (ho : q.Opened) (hq : q.Sound strict) (slot : Nat) {value : Term}
    (hv : value.Live (q.frames.reach strict q.callee)) :
    Query.Sound strict { q with frames := q.frames.setValue q.callee slot value }
      ∧ Query.Opened { q with frames := q.frames.setValue q.callee slot value } := by
  refine ⟨hq.keep ho.own ho.above (hv.mono (Frames.reach_mono hq.orderly.live.le) fun _ hr => hr)
    fun d name he => ?_, ((Frames.Reslots.modifySlot ..).owner q.callee).trans ho.own, ho.above⟩
  rw [he] at hv
  exact .inl (Term.fits_ref.1 hv).1.1

theorem opened_entered (hq : q.Sound strict) : (q.entered site locals none).Opened :=
  ⟨owner_entered_none, fun p hp => (hq.orderly.points.point p hp).mark⟩

end Query

namespace CallSite.Suits

variable {strict : Bool} {q : Query} {site : CallSite} {locals : Nat} {base : Option FrameId}

theorem entered_eq (h : site.Suits strict q) : q.entered site locals base = { q with
    frames := (q.frames.push q.ancestry (some q.callee) site.next (some site.procedure) locals
      base).1
    callee := q.frames.size } := by
  rw [Query.entered, h.ancestry]

theorem sound_entered (h : site.Suits strict q) (hq : q.Sound strict)
    (hb : ∀ b ∈ base, (q.frames.world strict).frame b) :
    (q.entered site locals base).Sound strict := by
  rw [h.entered_eq]
  exact hq.enter h.fresh h.next (some site.procedure) locals hb

/-- The frame of the call is entered, and built-ins work there. -/
theorem enter_then (h : site.Suits strict q) (hp : site.procedure ≠ .framed .guarded) {q' : Query}
    (he : Act.Effect strict (q.entered site locals base) q') {code : Code}
    (hc : q'.Executes strict code) : Query.Goes strict q site.next q' code := by
  refine ⟨fun fl => ?_, Query.advances_entered.trans he.works.advances, he.sound, hc⟩
  refine .trans ?_ ((he.works.holding code).moves fl)
  rw [h.entered_eq]
  exact .single (.enter (some site.procedure) locals base code ⟨h.fresh.frames, h.fresh.scopes⟩
    fun he => hp (Option.some.inj he))

/-- The arguments of the call, paired with the frame they are read in. -/
theorem bound (h : site.Suits strict q) (hq : q.Sound strict) :
    ∀ a ∈ site.args.map (Term.bindTo (q.frames.owner site.caller)),
      a.Live (q.frames.world strict) := by
  intro a ha
  obtain ⟨b, hb, rfl⟩ := List.mem_map.1 ha
  exact (h.args b hb).bindTo (hq.frame_owner h.caller) fun _ hi => hi

/-- What the frame of a guarded goal holds is in order. -/
theorem sound_guard (h : site.Suits strict q) (hq : q.Sound strict) {catcher handler : Term}
    (hc : catcher.Live (q.frames.world strict)) (hh : handler.Live (q.frames.world strict)) :
    ((q.holding site.next).guard catcher handler).Sound strict := by
  have hstart : Query.Sound strict (q.holding site.next) := hq.goto hq.orderly.live site.next
  have hfresh : (q.holding site.next).Fresh := ⟨h.fresh.frames, h.fresh.scopes⟩
  have hopened : Query.Opened { q.holding site.next with
      frames := (q.frames.push q.ancestry (some q.callee) site.next (some (.framed .guarded)) 3
        none).1
      callee := q.frames.size } :=
    ⟨Frames.owner_eq ((Frames.get?_push ..).trans (if_pos rfl)),
      fun p hp => (hq.orderly.points.point p hp).mark⟩
  have hold : ∀ {fs : Frames} {t : Term}, (q.frames.push q.ancestry (some q.callee) site.next
      (some (.framed .guarded)) 3 none).1.Grows fs → t.Live (q.frames.world strict) →
      t.Live (fs.reach strict q.frames.size) :=
    fun hg ht => ht.mono ((Frames.Grows.push ..).trans hg).reach_le fun _ hr => hr
  obtain ⟨hs₁, ho₁⟩ := hopened.keep
    (hstart.enter hfresh h.next (some (.framed .guarded)) 3 fun b hb =>
      absurd hb (Option.not_mem_none b))
    Control.catcherSlot (hold (.refl _) hc)
  obtain ⟨hs₂, ho₂⟩ := ho₁.keep hs₁ Control.handlerSlot
    (hold (Frames.Reslots.modifySlot ..).grows hh)
  obtain ⟨hs₃, -⟩ := ho₂.keep hs₂ Control.barrierSlot 
    (Term.fits_ofNat : Term.Fits _ _ (.ofNat (q.choices.serial + 1)))
  exact hs₃.point (Frames.size_pushGuarded ..).symm rfl (fun a ha => by cases ha; trivial)
    (hstart.orderly.guard hfresh catcher handler)

/-- The frame of a guarded goal is entered. -/
theorem goes_guard (h : site.Suits strict q) (hq : q.Sound strict) {goal catcher handler : Term}
    (hg : goal.Live (q.frames.world strict)) (hc : catcher.Live (q.frames.world strict))
    (hh : handler.Live (q.frames.world strict)) :
    Query.Goes strict q site.next (((q.holding site.next).guard catcher handler).holding q.next)
      (.run .call [goal] (.noop .succeed)) := by
  have hsound := h.sound_guard hq hc hh
  have hadvances : q.Advances ((q.holding site.next).guard catcher handler) := by
    refine ⟨?_, Nat.le_succ _, fun p hp hid => ?_⟩
    · exact (Frames.Grows.push ..).trans (Frames.reslots_pushGuarded ..).grows
    · rcases List.mem_cons.1 hp with rfl | hp
      · exact absurd hid (Nat.not_succ_le_self _)
      · exact ⟨p, hp, .refl p⟩
  refine ⟨fun fl => .single (.guard catcher handler _ ⟨h.fresh.frames, h.fresh.scopes⟩),
    ⟨hadvances.grows, hadvances.serial, hadvances.points⟩,
    hsound.goto hsound.orderly.live _, ?_⟩
  exact executes_run_call (hg.mono hadvances.grows.world_le fun _ hr => hr)
    (hsound.frame_owner hsound.orderly.live) (Code.fits_noop.2 Code.fits_succeed)

end CallSite.Suits

-- ================================================== what a call does

/-- Where a call returns to that is made in the frame `id` with `next` to
follow, and what it goes on with there. A last call runs on behalf of the
caller of the frame. -/
def Frames.returnsTo (fs : Frames) (id : FrameId) (next : Code) : FrameId × Code :=
  if next.isSucceed then
    match fs.get? id with
    | some frame =>
      match frame.caller with
      | some parent => (parent, frame.next)
      | none => (id, next)
    | none => (id, next)
  else (id, next)

/-- The query about to make a call: it is where the call returns to. -/
abbrev Query.calling (q : Query) (next : Code) (revision : Nat) : Query :=
  { q with ancestry := revision + 1, callee := (q.frames.returnsTo q.callee next).1 }

/-- What has become of a call: it has worked where it was made, or entered
its frame and worked there, or entered the frame of a guarded goal. -/
inductive Query.Invoked (strict : Bool) (q : Query) (site : CallSite) : Query → Code → Prop
  | stayed {q' : Query} {code : Code} (he : Act.Effect strict q q')
      (hc : code = site.next ∨ code = .fail) : Invoked strict q site q' code
  | entered {q' : Query} {code : Code} (locals : Nat) (base : Option FrameId)
      (hp : site.procedure ≠ .framed .guarded)
      (he : Act.Effect strict (q.entered site locals base) q') (hc : q'.Executes strict code) :
      Invoked strict q site q' code
  | guarded {goal catcher handler : Term} (hg : goal.Live (q.frames.world strict))
      (hc : catcher.Live (q.frames.world strict)) (hh : handler.Live (q.frames.world strict)) :
      Invoked strict q site (((q.holding site.next).guard catcher handler).holding q.next)
        (.run .call [goal] (.noop .succeed))

/-- Whatever has become of a call, the query has moved on. -/
theorem Query.Invoked.goes {strict : Bool} {q q' : Query} {site : CallSite} {code : Code}
    (h : q.Invoked strict site q' code) (hs : site.Suits strict q) (hq : q.Sound strict) :
    q.Goes strict site.next q' code := by
  cases h with
  | stayed he hc =>
    have hgoes := (Query.Goes.refl hq hs.next).effect he
    rcases hc with rfl | rfl
    · exact hgoes
    · exact hgoes.failing
  | entered locals base hp he hc => exact hs.enter_then hp he hc
  | guarded hg hc hh => exact hs.goes_guard hq hg hc hh

-- ================================================== acts that call

namespace Act

variable {α : Type} {μ : Rigor} {q : Query} {next : Code} {site : CallSite}

/-- The act makes the call; if it fails, the query is left to fail. -/
abbrev Invokes (μ : Rigor) (q : Query) (site : CallSite) (act : Act Code) : Prop :=
  Does μ q act (fun code q' => q.Invoked μ.strict site q' code)
    fun q' => q.Invoked μ.strict site q' .fail

/-- Nothing has become of the call. -/
theorem invoked_fail (hq : q.Sound μ.strict) : q.Invoked μ.strict site q .fail :=
  .stayed (.refl hq) (.inr rfl)

/-- Looking first. -/
theorem Invokes.read {act : Act α} {look : α → Prop} {rest : α → Act Code} (hq : q.Sound μ.strict)
    (h : Reads μ q act look) (hr : ∀ a, look a → Invokes μ q site (rest a)) :
    Invokes μ q site (act >>= rest) :=
  Does.read h (invoked_fail hq) hr

theorem Invokes.throw {e : Failure} (hq : q.Sound μ.strict) (he : e.Fits μ.tame) :
    Invokes μ q site (throw e) :=
  Does.throw he (invoked_fail hq)

/-- A test: the query goes on with the code, or fails. -/
theorem does_test {q' : Query} {code : Code} {act : Act Bool} {post : Bool → Query → Prop}
    (ht : Tries μ q' act post)
    (hi : ∀ q'', Effect μ.strict q' q'' →
      q.Invoked μ.strict site q'' code ∧ q.Invoked μ.strict site q'' .fail) :
    Does μ q' (do if ← act then return code else return .fail)
      (fun c q'' => q.Invoked μ.strict site q'' c) fun q'' => q.Invoked μ.strict site q'' .fail := by
  refine (ht.mono (fun _ _ hb => hb) fun q'' hf => (hi q'' hf.toEffect).2).bind
    fun ok q'' ⟨htouch, _⟩ => ?_
  obtain ⟨hgo, hfail⟩ := hi q'' htouch.toEffect
  cases ok with
  | true => exact .pure hgo
  | false => exact .pure hfail

theorem does_enter (q : Query) (site : CallSite) (locals : Nat) (base : Option FrameId)
    {fails : Query → Prop} :
    Does μ q (enter site locals base) (fun _ q' => q' = q.entered site locals base) fails := by
  refine .modifyQuery ?_
  cases base <;> rfl

theorem reads_boundArgs (q : Query) (site : CallSite) :
    Reads μ q site.boundArgs (· = site.args.map (Term.bindTo (q.frames.owner site.caller))) :=
  (reads_frames q).bind fun _ hfs => .pure (hfs ▸ rfl)

/-- A frame is entered for code that can run there. -/
theorem invokes_enter (hs : site.Suits μ.strict q) (hp : site.procedure ≠ .framed .guarded)
    (hq : q.Sound μ.strict) (locals : Nat)
    {base : Option FrameId} (hb : ∀ b ∈ base, (q.frames.world μ.strict).frame b) {code : Code}
    (hc : (q.entered site locals base).Executes μ.strict code) :
    Invokes μ q site (do enter site locals base; return code) :=
  (does_enter q site locals base).bind fun _ _ he =>
    .pure (he ▸ .entered locals base hp (.refl (hs.sound_entered hq hb)) hc)

/-- The code of a clause can run in a frame that has its slots. -/
theorem executes_entered {code : Code} {locals : Nat}
    (h : code.Fits (q.frames.world μ.strict) (· < locals)) :
    (q.entered site locals none).Executes μ.strict code :=
  h.mono Query.advances_entered.grows.world_le fun _ hi => Query.slotsOf_entered hi

/-- Running a goal. -/
theorem invokes_runGoal (hs : site.Suits μ.strict q) (hp : site.procedure ≠ .framed .guarded)
    (hq : q.Sound μ.strict) {goal : Term}
    (hg : goal.Live (q.frames.world μ.strict)) : Invokes μ q site (runGoal site goal) := by
  refine .read hq (reads_strip hq hg) fun r hr => ?_
  split
  · exact .throw hq fits_instantiation
  · exact .throw hq fits_instantiation
  · -- the code of a template runs on the slots of the closure's frame
    rename_i serial name args frame
    have hframe := (Term.fits_closure.1 hr).1
    refine .read hq (.store (Database.keeps_compileGoal_asIs hr.template (.inl rfl)))
      fun clause hclause => invokes_enter hs hp hq 0 (fun b hb => Option.some.inj hb ▸ hframe) ?_
    have hcode := hclause (q.frames.world μ.strict, (q.frames.world μ.strict).slotsOf frame)
      hr.template
    unfold Query.Executes
    rw [Query.owner_entered_some]
    exact hcode.mono Query.advances_entered.grows.world_le fun i hi =>
      Query.advances_entered.grows.world_le.cell _ (Frames.slotsOf_owner hframe hi)
  · refine .read hq (.store (Database.keeps_compileGoal (w := q.frames.world μ.strict)
      Term.fits_atom)) fun clause hclause => ?_
    exact invokes_enter hs hp hq _ (fun b hb => absurd hb (Option.not_mem_none b))
      (executes_entered hclause)
  · refine .read hq (.store (Database.keeps_compileGoal (hr.mono (.refl _)
      fun _ _ => trivial))) fun clause hclause => ?_
    exact invokes_enter hs hp hq _ (fun b hb => absurd hb (Option.not_mem_none b))
      (executes_entered hclause)
  · exact .throw hq (fits_type hr)

theorem reads_extendGoal (hq : q.Sound μ.strict) {goal : Term} {extra : List Term}
    (hg : goal.Live (q.frames.world μ.strict))
    (he : ∀ a ∈ extra, a.Live (q.frames.world μ.strict)) :
    Reads μ q (extendGoal goal extra) (·.Live (q.frames.world μ.strict)) := by
  refine (reads_strip hq hg).bind fun r hr => ?_
  have hall : ∀ a ∈ r.args ++ extra, a.Live (q.frames.world μ.strict) := fun a ha =>
    (List.mem_append.1 ha).elim (hr.args a) (he a)
  split
  · exact .throw fits_instantiation
  · exact .throw fits_instantiation
  · exact reads_term he
  · exact reads_term hall
  · exact reads_term hall
  · exact .throw (fits_type hr)

theorem invokes_callGoal (hs : site.Suits μ.strict q) (hp : site.procedure ≠ .framed .guarded)
    (hq : q.Sound μ.strict) : Invokes μ q site (callGoal site) := by
  refine .read hq (reads_boundArgs q site) fun args hargs => ?_
  have hlive := hargs ▸ hs.bound hq
  split
  · exact .throw hq (fits_fatal (by decide))
  · exact invokes_runGoal hs hp hq (hlive _ List.mem_cons_self)
  · exact .read hq (reads_extendGoal hq (hlive _ List.mem_cons_self)
      fun a ha => hlive a (List.mem_cons_of_mem _ ha)) fun goal hg => invokes_runGoal hs hp hq hg

/-- A copy of the template joins what was collected. -/
theorem runs_collect (hq : q.Sound μ.strict) {template : Term}
    (ht : template.Live (q.frames.world μ.strict)) (collector : Nat) :
    Runs μ q (Control.collect template collector) fun _ _ => True := by
  refine .read hq (reads_detach hq ht.wellMade) fun copy hcopy => .modifyQuery ⟨?_, trivial⟩
  refine runs_collectors hq fun l hl => ?_
  obtain ⟨i, hi⟩ := Array.mem_iff_getElem?.1 hl
  rw [Array.getElem?_modify] at hi
  split at hi
  · obtain ⟨l₀, hl₀, rfl⟩ := Option.map_eq_some_iff.1 hi
    intro t ht
    rcases List.mem_cons.1 ht with rfl | ht
    · exact hcopy
    · exact hq.collectors l₀ (Array.mem_of_getElem? hl₀) t ht
  · exact hq.collectors l (Array.mem_of_getElem? hi)

/-- In the frame just entered, the arguments mention what is older. -/
theorem reads_boundArgs_entered (hs : site.Suits μ.strict q) (hq : q.Sound μ.strict)
    {locals : Nat} :
    Reads μ (q.entered site locals none) site.boundArgs fun args => ∀ a ∈ args,
      a.Live ((q.entered site locals none).frames.reach μ.strict q.frames.size) := by
  have hg : q.frames.Grows (q.entered site locals none).frames := Query.advances_entered.grows
  refine (reads_boundArgs _ site).mono fun args hargs => ?_
  rw [hargs, hg.owner hs.caller]
  exact fun a ha => (hs.bound hq a ha).mono hg.reach_le fun _ hr => hr

theorem does_boundArgs (q : Query) (site : CallSite) {fails : Query → Prop} :
    Does μ q site.boundArgs
      (fun args q' => q' = q ∧ args = site.args.map (Term.bindTo (q.frames.owner site.caller)))
      fails :=
  .get_bind fun _ _ => .pure ⟨rfl, rfl⟩

theorem does_pushChoice (q : Query) (alternatives : Alternatives) {fails : Query → Prop} :
    Does μ q (pushChoice alternatives) (fun id q' => q' = { q with
      choices := q.choices.push q.callee q.ancestry q.frames.size none alternatives }
        ∧ id = q.choices.serial + 1) fails :=
  ⟨fun _ _ _ hdb => ⟨hdb, rfl, rfl⟩⟩

/-- Keeping a value in the running frame. -/
theorem does_keep (q : Query) (slot : Nat) (value : Term) {fails : Query → Prop} :
    Does μ q (Control.keep slot value)
      (fun _ q' => q' = { q with frames := q.frames.setValue q.callee slot value }) fails :=
  .modifyQuery rfl

theorem does_guarded (q : Query) (goal catcher handler : Term) {fails : Query → Prop} :
    Does μ q (Control.guarded goal catcher handler) (fun code q' =>
      code = .run .call [goal] (.noop .succeed) ∧ q' = { q with
        frames := ((q.frames.setValue q.callee Control.catcherSlot catcher).setValue q.callee
          Control.handlerSlot handler).setValue q.callee Control.barrierSlot
            (.ofNat (q.choices.serial + 1))
        choices := q.choices.push q.callee q.ancestry q.frames.size none .barrier }) fails := by
  refine (does_keep _ _ _).bind fun _ q₁ h₁ => (does_keep _ _ _).bind fun _ q₂ h₂ =>
    (does_pushChoice _ _).bind fun barrier q₃ ⟨h₃, hb⟩ => (does_keep _ _ _).bind fun _ q₄ h₄ =>
      .pure ⟨rfl, ?_⟩
  subst h₁ h₂ h₃ h₄ hb
  simp only [Frames.setValue, Frames.size_modifySlot]

/-- A guarded goal is called in a frame that holds its catcher, its handler
and the number of its barrier. -/
theorem invokes_guarded (hs : site.Suits μ.strict q) (hq : q.Sound μ.strict)
    (hp : site.procedure = .framed .guarded) :
    Invokes μ q site (do
      if !Framed.guarded.admits site.args.length then throw wrongArguments
      enter site Framed.guarded.locals none
      let args ← site.boundArgs
      Framed.guarded.run args) := by
  split
  · exact .throw_bind (fits_fatal (by decide)) (invoked_fail hq)
  · rename_i hadmits
    refine (does_enter q site Framed.guarded.locals none).bind fun _ q₁ he => ?_
    subst he
    obtain ⟨goal, catcher, handler, hargs⟩ : ∃ goal catcher handler,
        site.args.map (Term.bindTo (q.frames.owner site.caller)) = [goal, catcher, handler] := by
      have hlength : site.args.length = 3 := by simpa [Framed.admits] using hadmits
      exact List.length_eq_three.1 (by simpa using hlength)
    have hlive := hargs ▸ hs.bound hq
    simp only [List.forall_mem_cons] at hlive
    refine (does_boundArgs _ site).bind fun args q₂ ⟨hsame, he⟩ => ?_
    subst hsame
    have howner : (q.entered site Framed.guarded.locals none).frames.owner site.caller
        = q.frames.owner site.caller := Query.advances_entered.grows.owner hs.caller
    rw [he, howner, hargs]
    refine (does_guarded _ goal catcher handler).mono (fun code q' ⟨hcode, hq'⟩ => ?_) fun _ hf => hf
    have hguarded : q' = ((q.holding site.next).guard catcher handler).holding q.next := by
      rw [hq', Query.entered, hp, hs.ancestry, Frames.size_push]
      rfl
    rw [hcode, hguarded]
    exact .guarded hlive.1 hlive.2.1 hlive.2.2.1

/-- A call works where it is made, or in the one frame that it enters. -/
theorem invokes_invoke (hs : site.Suits μ.strict q) (hq : q.Sound μ.strict) :
    Invokes μ q site site.invoke := by
  have hproc := hs.procedure
  have hnone : ∀ b ∈ (none : Option FrameId), (q.frames.world μ.strict).frame b :=
    fun b hb => absurd hb (Option.not_mem_none b)
  have hsound : ∀ locals, (q.entered site locals none).Sound μ.strict :=
    fun _ => hs.sound_entered hq hnone
  unfold CallSite.invoke
  split
  · -- the head of the clause is read in its frame, the arguments in the caller's
    rename_i c hc
    have hp : site.procedure ≠ .framed .guarded := fun h => nomatch hc.symm.trans h
    rw [hc, Procedure.Fits, Clause.fits_iff] at hproc
    obtain ⟨-, -, hargs, hcode⟩ := hproc
    have hg : q.frames.Grows (q.entered site c.locals none).frames := Query.advances_entered.grows
    refine (does_enter q site c.locals none).bind fun _ q₁ he => ?_
    subst he
    refine .read (reads_callee _) (.entered _ _ hp (.refl (hsound _)) executes_fail)
      fun callee hcallee => ?_
    subst hcallee
    refine does_test (tries_unifyArgs (hsound _) (fun x hx => ?_) fun y hy => ?_) fun q' he =>
      ⟨.entered _ _ hp he (he.executes (hsound _) (executes_entered
        (hcode.mono (World.none_le _) fun _ hi => hi))), .entered _ _ hp he executes_fail⟩
    · refine .framed ?_ ((hsound _).frame_owner (hs.caller.trans_le hg.size))
      rw [hg.owner hs.caller]
      exact (hs.args x hx).mono hg.world_le fun i hi => hg.world_le.cell _ hi
    · refine .framed ?_ ((hsound _).frame_owner (hsound _).orderly.live)
      exact (hargs y hy).mono (World.none_le _) fun i hi => Query.slotsOf_entered hi
  · rename_i builtin hb
    rw [hb, Procedure.Fits] at hproc
    refine .read hq (reads_boundArgs q site) fun args hargs => ?_
    exact does_test (tries_direct hq hproc (hargs ▸ hs.bound hq)) fun q' he =>
      ⟨.stayed he (.inl rfl), .stayed he (.inr rfl)⟩
  · rename_i builtin hb
    rw [hb, Procedure.Fits] at hproc
    by_cases hg : builtin = .guarded
    · subst hg
      exact invokes_guarded hs hq hb
    · have hp : site.procedure ≠ .framed .guarded :=
        fun h => hg (Procedure.framed.inj (hb.symm.trans h))
      have hadmits : builtin.admits site.args.length = true := by
        cases builtin with
        | guarded => exact absurd rfl hg
        | _ => rfl
      simp only [hadmits]
      refine (does_enter q site builtin.locals none).bind fun _ q₁ he => ?_
      subst he
      have hlive := (hsound builtin.locals).orderly.live
      refine .read (reads_boundArgs_entered hs hq)
        (.entered _ _ hp (.refl (hsound _)) executes_fail) fun args hargs => ?_
      exact (runs_framed (hsound _) (Query.opened_entered hq) hproc hg fun a ha =>
        (hargs a ha).mono (Frames.reach_mono hlive.le) fun _ hr => hr).mono
          (fun code q' h => .entered _ _ hp h.1 h.2) fun q' h => .entered _ _ hp h executes_fail
  · rename_i hc
    exact invokes_callGoal hs (fun h => nomatch hc.symm.trans h) hq
  · rename_i template collector hb
    rw [hb, Procedure.Fits] at hproc
    exact (Does.mono (runs_collect hq hproc collector) (fun _ _ h => h)
      fun q' h => .stayed h (.inr rfl)).bind fun _ q' h => .pure (.stayed h.1 (.inr rfl))
  · rename_i target hb
    have hp : site.procedure ≠ .framed .guarded := fun h => nomatch hb.symm.trans h
    rw [hb, Procedure.Fits] at hproc
    refine (does_enter q site 0 none).bind fun _ q₁ he => ?_
    subst he
    refine .read (reads_boundArgs_entered hs hq)
      (.entered _ _ hp (.refl (hsound 0)) executes_fail) fun args hargs =>
        .pure (.entered _ _ hp (.refl (hsound 0)) (Code.fits_call.2 ⟨?_, fun a ha => ?_, ?_⟩))
    · rw [Target.Fits]
      exact hproc.mono Query.advances_entered.grows.world_le
    · have hlive : a.Live ((q.entered site 0 none).frames.world μ.strict) :=
        (hargs a ha).mono (Frames.reach_mono (hsound 0).orderly.live.le) fun _ hr => hr
      exact hlive.argument ((hsound 0).frame_owner (hsound 0).orderly.live)
    · exact Code.fits_noop.2 Code.fits_succeed

-- ================================================== last calls

/-- The code that a frame goes on with can run in its caller. -/
theorem goes_leave (hq : q.Sound μ.strict) {frame : Frame} {parent : FrameId}
    (hf : q.frames.get? q.callee = some frame) (hc : frame.caller = some parent) :
    Query.Goes μ.strict q .succeed { q with callee := parent } frame.next := by
  obtain ⟨hlt, hnext⟩ := hq.arena.next hf hc
  have hle : (q.frames.reach μ.strict q.callee).Le (q.frames.world μ.strict) :=
    Frames.reach_mono hq.orderly.live.le
  exact ⟨fun fl => .single (.leave rfl hf hc), ⟨.refl _, le_rfl, fun p hp _ => ⟨p, hp, .refl p⟩⟩,
    hq.goto (hlt.trans hq.orderly.live) q.next, hnext.mono hle fun i hi => hle.cell _ hi⟩

/-- The query is where the call returns to. -/
theorem goes_returnsTo (hq : q.Sound μ.strict) (hn : q.Executes μ.strict next) :
    Query.Goes μ.strict q next { q with callee := (q.frames.returnsTo q.callee next).1 }
      (q.frames.returnsTo q.callee next).2 := by
  have hstay := Query.Goes.refl hq hn
  unfold Frames.returnsTo
  split
  · rename_i hsucceed
    obtain rfl : next = .succeed := by cases next <;> simp_all [Code.isSucceed]
    split
    · rename_i frame hf
      split
      · rename_i parent hparent
        exact goes_leave hq hf hparent
      · exact hstay
    · exact hstay
  · exact hstay

section

variable {procedure : Procedure} {args : List Term} {caller : FrameId} {revision : Nat}

theorem callProcedure_apply (procedure : Procedure) (args : List Term) (caller : FrameId)
    (next : Code) (revision : Nat) (env : Env) (db : Database) (q : Query) :
    callProcedure procedure args caller next revision env ⟨db, q⟩
      = CallSite.invoke ⟨procedure, args, revision + 1, caller,
          (q.frames.returnsTo q.callee next).2⟩ env ⟨db, q.calling next revision⟩ := by
  unfold callProcedure Query.calling Frames.returnsTo
  rw [bind_apply, modifyGet_apply]
  dsimp only
  cases next.isSucceed with
  | false => rfl
  | true =>
    cases q.frames.get? q.callee with
    | none => rfl
    | some frame => cases hc : frame.caller <;> simp [hc]

/-- The call can be made where it returns to. -/
theorem suits_calling (hq : Query.Sound μ.strict { q with ancestry := revision + 1 })
    (hs : CallSite.Suits μ.strict { q with ancestry := revision + 1 }
      ⟨procedure, args, revision + 1, caller, next⟩) :
    CallSite.Suits μ.strict (q.calling next revision)
      ⟨procedure, args, revision + 1, caller, (q.frames.returnsTo q.callee next).2⟩ :=
  ⟨hs.procedure, hs.caller, hs.args, (goes_returnsTo hq hs.next).executes, hs.ancestry,
    ⟨hs.fresh.frames, hs.fresh.scopes⟩⟩

/-- A last call runs on behalf of the caller of the current frame. -/
theorem invokes_procedure (hq : Query.Sound μ.strict { q with ancestry := revision + 1 })
    (hs : CallSite.Suits μ.strict { q with ancestry := revision + 1 }
      ⟨procedure, args, revision + 1, caller, next⟩) :
    let site : CallSite := ⟨procedure, args, revision + 1, caller, (q.frames.returnsTo q.callee next).2⟩
    Does μ q (callProcedure procedure args caller next revision)
      (fun code q' => (q.calling next revision).Invoked μ.strict site q' code)
      fun q' => (q.calling next revision).Invoked μ.strict site q' .fail := by
  refine ⟨fun env db henv hdb => ?_⟩
  rw [callProcedure_apply]
  exact (invokes_invoke (suits_calling hq hs) (goes_returnsTo hq hs.next).sound).ends env db henv hdb

theorem calls_procedure (hq : Query.Sound μ.strict { q with ancestry := revision + 1 })
    (hs : CallSite.Suits μ.strict { q with ancestry := revision + 1 }
      ⟨procedure, args, revision + 1, caller, next⟩) :
    Does μ q (callProcedure procedure args caller next revision)
      (fun code q' => Query.Goes μ.strict { q with ancestry := revision + 1 } next q' code)
      fun q' => Query.Goes μ.strict { q with ancestry := revision + 1 } next q' .fail := by
  have hback := goes_returnsTo hq hs.next
  have hgoes : ∀ {q' : Query} {code : Code}, (q.calling next revision).Invoked μ.strict
      ⟨procedure, args, revision + 1, caller, (q.frames.returnsTo q.callee next).2⟩ q' code →
      Query.Goes μ.strict { q with ancestry := revision + 1 } next q' code :=
    fun h => hback.trans (h.goes (suits_calling hq hs) hback.sound)
  exact (invokes_procedure hq hs).mono (fun _ _ h => hgoes h) fun _ h => hgoes h

end

end Act

end LogicMachine
