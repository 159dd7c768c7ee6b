/-
Last calls.

A call that only success is to follow runs on behalf of the caller of its
frame. This leaves out one frame per call, the one that the call is made
in, so that loops that are made of last calls stay flat rests on an
invariant of the arena (`Frames.Levelled`): a frame that goes on with plain
success was called by the root. It is kept by every way of entering a
frame, whether the call is made for the first time or made anew for the
next row, because a call leads to a frame and code that it has taken from
another frame of the arena (`Frames.Levelled.returnsTo`). So a last call
enters a frame as deep as its own (`Query.Reached.depth_lastCall`), and so
does any number of them, one made in the frame that the other has entered
(`LastCalls`).

A query is followed here wherever it runs, in a session or for a thunk
(`Query.Reached`).
-/
import LogicMachine.Proofs.Entering
import LogicMachine.Proofs.Reaching

namespace LogicMachine

-- ================================================== runs of queries

namespace Query

/-- The query goes on to its next phase, whatever the database has become
meanwhile. -/
def Proceeds (x y : Query × Phase) : Prop :=
  ∃ (db db' : Database) (steps thunks : Nat), db.Sound ∧ 0 < steps
    ∧ Act.advance x.2 (Env.nested steps thunks) ⟨db, x.1⟩ = .ok y.2 ⟨db', y.1⟩

/-- What a query comes to from where it was prepared. -/
inductive Reached : Query × Phase → Prop
  | start {entry : Clause} (h : entry.Fits) : Reached (Query.start entry, .running)
  | step {x y : Query × Phase} (h : Reached x) (hp : Proceeds x y) : Reached y

variable {x y : Query × Phase}

theorem Proceeds.of_advance {db db' : Database} {q q' : Query} {phase phase' : Phase}
    {steps thunks : Nat} (hdb : db.Sound) (hsteps : 0 < steps)
    (h : Act.advance phase (Env.nested steps thunks) ⟨db, q⟩ = .ok phase' ⟨db', q'⟩) :
    Proceeds (q, phase) (q', phase') :=
  ⟨db, db', steps, thunks, hdb, hsteps, h⟩

/-- The query after so many phases on a database, if it runs code in all of
them and forces no thunk. -/
def after (db : Database) : Nat → Query → Option Query
  | 0, q => some q
  | n + 1, q => match Act.advance .running (Env.nested 2 0) ⟨db, q⟩ with
    | .ok .running m => after db n m.query
    | _ => none

theorem after_succ {db : Database} (hdb : db.Sound) {n : Nat} {q q' : Query}
    (h : q.after db (n + 1) = some q') :
    ∃ q₁, Proceeds (q, .running) (q₁, .running) ∧ q₁.after db n = some q' := by
  unfold after at h
  split at h
  · rename_i m hadvance
    exact ⟨m.query, .of_advance hdb Nat.two_pos hadvance, h⟩
  · cases h

theorem Reached.after {db : Database} (hdb : db.Sound) {n : Nat} {q q' : Query}
    (hq : Reached (q, .running)) (h : q.after db n = some q') : Reached (q', .running) := by
  induction n generalizing q with
  | zero =>
    cases h
    exact hq
  | succ n ih =>
    obtain ⟨q₁, hp, h₁⟩ := after_succ hdb h
    exact ih (hq.step hp) h₁

theorem Proceeds.holds (hp : Proceeds x y) {entry : Clause} (h : x.2.Holds false entry x.1) :
    y.2.Holds false entry y.1 := by
  obtain ⟨db, db', steps, thunks, hdb, hsteps, hadvance⟩ := hp
  have hsteps' : 0 < (Env.nested steps thunks).steps := by cases thunks <;> exact hsteps
  have hended := Act.ends_advance (μ := .loose) (Env.sound_nested steps thunks) hsteps' hdb h
    nofun nofun
  rw [hadvance] at hended
  exact hended.2

theorem Reached.holds (h : Reached x) : ∃ entry, x.2.Holds false entry x.1 := by
  induction h with
  | @start entry h => exact ⟨entry, holds_start h⟩
  | step _ hp ih =>
    obtain ⟨entry, hx⟩ := ih
    exact ⟨entry, hp.holds hx⟩

theorem Reached.extends (h : Reached x) (hp : Proceeds x y) : x.2.Extends x.1 y.1.frames := by
  obtain ⟨entry, hx⟩ := h.holds
  obtain ⟨db, db', steps, thunks, hdb, -, hadvance⟩ := hp
  have hended := hx.extends (Env.sound_nested steps thunks) hdb
  rw [hadvance] at hended
  exact hended

end Query

/-- The queries of a session are followed from phase to phase. -/
theorem Session.Reached.query {strict : Bool} {s : Session} (h : s.Reached strict) :
    ∀ e ∈ s.queries, Query.Reached e := by
  induction h with
  | start builtins capacity => exact fun e he => absurd he List.not_mem_nil
  | @step s s' hs hstep ih =>
    have hdb := hs.holds.db
    cases hstep with
    | request r hr => exact ih
    | @opened _ goal entry db hg hgoal =>
      have hentry := (Clause.keeps_ofGoal hg).ends s.db hdb
      rw [hgoal] at hentry
      intro e he
      rcases List.mem_cons.1 he with rfl | he
      · exact .start hentry.2
      · exact ih e he
    | refused hg hgoal => exact ih
    | @advanced db db' before after q q' phase phase' steps thunks hsteps hbare hserial hadvance =>
      intro e he
      rcases List.mem_append.1 he with he | he
      · exact ih e (List.mem_append_left _ he)
      · rcases List.mem_cons.1 he with rfl | he
        · exact (ih (q, phase) (by simp)).step (.of_advance hdb hsteps hadvance)
        · exact ih e (by simp [he])

-- ================================================== how deep frames are

namespace Frames

/-- A frame is deeper by one than its caller, which is older, and only the
root has no caller. A frame that goes on with plain success is the root or
was called by the root. -/
structure Levelled (fs : Frames) : Prop where
  caller : ∀ {i f c}, fs.get? i = some f → f.caller = some c → c < i ∧ f.depth = fs.depth c + 1
  root : ∀ {i f}, fs.get? i = some f → f.caller = none → i = Query.root ∧ f.depth = 0
  last : ∀ {i f}, fs.get? i = some f → f.next = .succeed →
    i = Query.root ∨ f.caller = some Query.root

variable {fs fs' : Frames} {back : FrameId × Code}

/-- A frame that has stayed is as deep as it was. -/
theorem Enters.depth (h : fs.Enters back fs') {c : FrameId} (hc : c < fs.size)
    (hc' : c < fs'.size) : fs'.depth c = fs.depth c := by
  obtain ⟨f', hf'⟩ := exists_get? hc'
  rcases h c f' hf' with ⟨f, hf, slots, rfl⟩ | ⟨rfl, -⟩
  · rw [depth_eq hf', depth_eq hf, Frame.depth_withSlots]
  · exact absurd hc (lt_irrefl _)

namespace Levelled

/-- The frame of a call joins those it returns to. -/
theorem enters (h : fs.Levelled) (hback : back.1 < fs.size)
    (hroot : back.2 = .succeed → back.1 = Query.root) (he : fs.Enters back fs') :
    fs'.Levelled := by
  have hold : ∀ {i f' c}, fs'.get? i = some f' → c < i → c < fs.size → fs'.depth c = fs.depth c :=
    fun hf' hci hc => he.depth hc (hci.trans (lt_size_of_get? hf'))
  refine ⟨fun {i f' c} hf' hcaller => ?_, fun {i f'} hf' hcaller => ?_, fun {i f'} hf' hnext => ?_⟩
  · rcases he i f' hf' with ⟨f, hf, slots, rfl⟩ | ⟨rfl, hcaller', -, hdepth⟩
    · obtain ⟨hci, hdepth⟩ := h.caller hf hcaller
      rw [hold hf' hci (hci.trans (lt_size_of_get? hf))]
      exact ⟨hci, hdepth⟩
    · obtain rfl : back.1 = c := Option.some.inj (hcaller'.symm.trans hcaller)
      rw [hold hf' hback hback]
      exact ⟨hback, hdepth⟩
  · rcases he i f' hf' with ⟨f, hf, slots, rfl⟩ | ⟨-, hcaller', -⟩
    · exact h.root (f := f) hf hcaller
    · exact nomatch hcaller'.symm.trans hcaller
  · rcases he i f' hf' with ⟨f, hf, slots, rfl⟩ | ⟨-, hcaller, hnext', -⟩
    · exact h.last (f := f) hf hnext
    · rw [hcaller, hroot (hnext'.symm.trans hnext)]
      exact .inr rfl

theorem heads (h : fs.Levelled) (hh : fs.Heads fs') : fs'.Levelled := by
  rcases Nat.eq_zero_or_pos fs.size with hzero | hpos
  · have hnone : ∀ {i f'}, fs'.get? i ≠ some f' := by
      intro i f' hf'
      obtain ⟨f, hf, -⟩ := hh i f' hf'
      exact absurd (lt_size_of_get? hf) (hzero ▸ Nat.not_lt_zero i)
    exact ⟨fun hf' => absurd hf' hnone, fun hf' => absurd hf' hnone, fun hf' => absurd hf' hnone⟩
  · have he : fs.Enters (Query.root, .fail) fs' := hh.enters
    exact h.enters hpos (fun hfail : Code.fail = .succeed => nomatch hfail) he

/-- A call returns to a frame that is there, and to plain success only in
the root. -/
theorem returnsTo (h : fs.Levelled) {id : FrameId} (hid : id < fs.size) (next : Code) :
    (fs.returnsTo id next).1 < fs.size
      ∧ ((fs.returnsTo id next).2 = .succeed → (fs.returnsTo id next).1 = Query.root) := by
  obtain ⟨f, hf⟩ := exists_get? hid
  unfold Frames.returnsTo
  rw [hf]
  dsimp only
  split
  · cases hcaller : f.caller with
    | none => exact ⟨hid, fun _ => (h.root hf hcaller).1⟩
    | some parent =>
      refine ⟨(h.caller hf hcaller).1.trans hid, fun hnext => ?_⟩
      rcases h.last hf hnext with rfl | hparent
      · exact absurd (h.caller hf hcaller).1 (Nat.not_lt_zero parent)
      · exact Option.some.inj (hcaller.symm.trans hparent)
  · rename_i hsucceed
    exact ⟨hid, fun hnext => absurd (congrArg Code.isSucceed hnext) hsucceed⟩

/-- What a last call returns to is less deep by one than its frame, unless
that is the root. -/
theorem depth_returnsTo (h : fs.Levelled) {id : FrameId} (hid : id < fs.size) :
    fs.depth (fs.returnsTo id .succeed).1 + 1 = max 1 (fs.depth id) := by
  obtain ⟨f, hf⟩ := exists_get? hid
  have hdepth := depth_eq hf
  unfold Frames.returnsTo
  simp only [Code.isSucceed, if_true, hf]
  cases hcaller : f.caller with
  | none =>
    have hzero := (h.root hf hcaller).2
    dsimp only
    omega
  | some parent =>
    have hsucc := (h.caller hf hcaller).2
    dsimp only
    omega

end Levelled

end Frames

theorem levelled_start (entry : Clause) : (Query.start entry).frames.Levelled := by
  have hget : ∀ {i f}, (Query.start entry).frames.get? i = some f →
      i = Query.root ∧ f.caller = none ∧ f.depth = 0 := by
    intro i f hf
    rw [get?_start] at hf
    split at hf
    · rename_i hi
      cases hf
      exact ⟨hi, rfl, rfl⟩
    · cases hf
  refine ⟨fun hf hcaller => ?_, fun hf _ => ?_, fun hf _ => ?_⟩
  · exact nomatch (hget hf).2.1.symm.trans hcaller
  · exact ⟨(hget hf).1, (hget hf).2.2⟩
  · exact .inl (hget hf).1

namespace Query

variable {x y : Query × Phase} {q : Query}

/-- The frame that a call is made in is there, in an arena that is
levelled. -/
theorem Reached.calls (h : Reached (q, .running)) (hq : q.frames.Levelled) {id : FrameId}
    {next : Code} {fs : Frames} (hcalls : q.Calls id next fs) : id < fs.size ∧ fs.Levelled := by
  obtain ⟨entry, hholds⟩ := h.holds
  exact ⟨hcalls.live hholds.sound, hq.heads hcalls.heads⟩

/-- Going on keeps the arena levelled. -/
theorem Reached.levelled_step (h : Reached x) (hx : x.1.frames.Levelled) (hp : Proceeds x y) :
    y.1.frames.Levelled := by
  obtain ⟨q, phase⟩ := x
  have hextends := h.extends hp
  cases phase with
  | running =>
    cases hextends with
    | calls hcalls he =>
      obtain ⟨hid, hfs⟩ := h.calls hx hcalls
      obtain ⟨hback, hroot⟩ := hfs.returnsTo hid _
      exact hfs.enters hback hroot he
    | stays _ hh => exact hx.heads hh
  | offering ball id => exact hx.heads hextends
  | ended => exact hx.heads hextends

theorem Reached.levelled (h : Reached x) : x.1.frames.Levelled := by
  induction h with
  | start h => exact levelled_start _
  | step h hp ih => exact h.levelled_step ih hp

/-- The frame that a last call enters is as deep as the one that the call
is made in; in the root it is one deeper. -/
theorem Reached.depth_lastCall (h : Reached (q, .running)) {id : FrameId} {fs : Frames}
    (hcalls : q.Calls id .succeed fs) (hp : Proceeds (q, .running) y)
    (hentered : fs.size < y.1.frames.size) :
    y.1.frames.depth fs.size = max 1 (q.frames.depth id) := by
  obtain ⟨hid, hfs⟩ := h.calls h.levelled hcalls
  have hextends : q.Extends y.1.frames := h.extends hp
  cases hextends with
  | calls hcalls' he =>
    obtain ⟨rfl, rfl, rfl⟩ := hcalls.unique hcalls'
    obtain ⟨f', hf'⟩ := Frames.exists_get? hentered
    obtain ⟨f, hf⟩ := Frames.exists_get? hid
    obtain ⟨f₀, hf₀, -⟩ := hcalls.heads id f hf
    have hstays : q.frames.Enters (id, .succeed) fs := hcalls.heads.enters
    have hsame : fs.depth id = q.frames.depth id := hstays.depth (Frames.lt_size_of_get? hf₀) hid
    rcases he _ f' hf' with ⟨f, hf, -⟩ | ⟨-, -, -, hdepth⟩
    · exact absurd (Frames.lt_size_of_get? hf) (lt_irrefl _)
    · rw [Frames.depth_eq hf', hdepth, hfs.depth_returnsTo hid, hsame]
  | stays hno _ => exact absurd hcalls (hno _ _ _)

end Query

-- ================================================== one last call after another

/-- What the frame `id` of the one query has come to: it has stayed, or a
last call has been made in it, for the first time or anew, and so on with
the frame that the call has entered. -/
inductive LastCalls : Query × Phase → FrameId → Query × Phase → FrameId → Prop
  | refl {x : Query × Phase} {id : FrameId} : LastCalls x id x id
  | stay {x y z : Query × Phase} {id id' : FrameId} {f : Frame} {slots : Array Slot}
      (h : LastCalls x id y id') (hp : Query.Proceeds y z) (hf : y.1.frames.get? id' = some f)
      (hf' : z.1.frames.get? id' = some (f.withSlots slots)) : LastCalls x id z id'
  | call {x z : Query × Phase} {q : Query} {id id' : FrameId} {fs : Frames}
      (h : LastCalls x id (q, .running) id') (hc : q.Calls id' .succeed fs)
      (hp : Query.Proceeds (q, .running) z) (hentered : fs.size < z.1.frames.size) :
      LastCalls x id z fs.size

namespace LastCalls

variable {x y : Query × Phase} {id id' : FrameId}

theorem reached (h : LastCalls x id y id') (hx : Query.Reached x) : Query.Reached y := by
  induction h with
  | refl => exact hx
  | stay _ hp _ _ ih => exact .step ih hp
  | call _ _ hp _ ih => exact .step ih hp

/-- However many last calls are made, they lead no deeper. -/
theorem depth_eq (h : LastCalls x id y id') (hx : Query.Reached x)
    (hdepth : 1 ≤ x.1.frames.depth id) : y.1.frames.depth id' = x.1.frames.depth id := by
  induction h with
  | refl => rfl
  | stay _ _ hf hf' ih =>
    rw [Frames.depth_eq hf', Frame.depth_withSlots, ← Frames.depth_eq hf]
    exact ih hdepth
  | call hbefore hc hp hentered ih =>
    rw [(hbefore.reached hx).depth_lastCall hc hp hentered, ih hdepth]
    exact max_eq_right hdepth

end LastCalls

namespace Query.Reached

/-- Last calls never deepen the chain of frames, in whatever state a query
is. Only the root and frames that it has called go on with plain success.
So the frame that a last call enters is as deep as the one it is made in,
and one deeper if that is the root; and however many last calls follow upon
each other, the last frame is as deep as the first. -/
theorem last_calls_never_deepen {x : Query × Phase} (h : Reached x) :
    (∀ i f, x.1.frames.get? i = some f → f.next = .succeed →
        i = root ∨ f.caller = some root)
      ∧ (∀ i f, x.1.frames.get? i = some f →
        f.depth = match f.caller with
          | some c => x.1.frames.depth c + 1
          | none => 0)
      ∧ (∀ id fs y, x.2 = .running → x.1.Calls id .succeed fs → Proceeds x y →
        fs.size < y.1.frames.size → y.1.frames.depth fs.size = max 1 (x.1.frames.depth id))
      ∧ ∀ id y id', 1 ≤ x.1.frames.depth id → LastCalls x id y id' →
        y.1.frames.depth id' = x.1.frames.depth id := by
  have hlevelled := h.levelled
  refine ⟨fun i f hf hnext => hlevelled.last hf hnext, fun i f hf => ?_, ?_, ?_⟩
  · cases hcaller : f.caller with
    | none => exact (hlevelled.root hf hcaller).2
    | some c => exact (hlevelled.caller hf hcaller).2
  · obtain ⟨q, phase⟩ := x
    rintro id fs y rfl hcalls hp hentered
    exact h.depth_lastCall hcalls hp hentered
  · exact fun id y id' hdepth hlast => hlast.depth_eq h hdepth

/-- After `p(a). p(b) :- p(b).` the goal `p(b)` runs forever. Each of its
calls is made for the first row, which fails, and anew for the second. -/
theorem last_calls_never_deepen_anew : ∃ q fs y, Reached (q, .running) ∧ q.Calls 1 .succeed fs
    ∧ fs.size < q.frames.size ∧ q.frames.depth 1 = 1 ∧ LastCalls (q, .running) 1 y 2
    ∧ y.1.frames.depth 2 = 1 := by
  obtain ⟨db₀, hdb₀, hrun⟩ : ∃ db₀, Session.Reached true ⟨db₀, []⟩
      ∧ (Session.opening? (.compound .plain "p" [.atom "b"]) db₀).any (fun o =>
        (o.2.after o.1 3).any fun q => q.frames.depth 1 == 1 && q.frames.size == 3
          && q.nextCall?.any (fun c => c.1 == 1 && c.2.1.isSucceed && c.2.2.size == 2)
          && (q.after o.1 1).any fun q' => q'.frames.size == 3) = true :=
    ⟨_, .step (.step (.start false 1)
        (.request (.assert (.compound .plain "p" [.atom "a"]) .back)
          (by simp [Request.Detached, Term.fits_compound, Term.isPlain])))
      (.request (.assert (.compound .plain ":-" [.compound .plain "p" [.atom "b"],
          .compound .plain "p" [.atom "b"]]) .back)
        (by simp [Request.Detached, Term.fits_compound, Term.isPlain])), by cbv⟩
  simp only [Option.any_eq_true, Bool.and_eq_true, beq_iff_eq] at hrun
  obtain ⟨⟨db, q₀⟩, hopen, q, hq, ⟨⟨hdepth, hsize⟩, ⟨id, next, fs⟩, hcall, ⟨rfl, hnext⟩, hold⟩,
    q', hq', hnew⟩ := hrun
  have hopened := hdb₀.opening (by simp [Term.fits_compound, Term.isPlain]) hopen
  have hdb := hopened.holds.db
  have hreached : Reached (q, .running) := (hopened.query _ List.mem_cons_self).after hdb hq
  obtain ⟨q₁, hp, hq₁⟩ := after_succ hdb hq'
  cases hq₁
  obtain rfl : next = .succeed := by cases next <;> simp_all [Code.isSucceed]
  have hcalls : q.Calls 1 .succeed fs := calls_iff.2 hcall
  have hlast : LastCalls (q, .running) 1 (q', .running) fs.size :=
    .call .refl hcalls hp (by rw [hold, hnew]; decide)
  rw [hold] at hlast
  refine ⟨q, fs, (q', .running), hreached, hcalls, ?_, hdepth, hlast, ?_⟩
  · rw [hold, hsize]
    decide
  · exact (hreached.last_calls_never_deepen.2.2.2 1 _ 2 hdepth.ge hlast).trans hdepth

end Query.Reached

end LogicMachine
