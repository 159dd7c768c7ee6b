/-
Searching for solutions.

A query that has just been prepared is sound, so all that a search does
leaves the database sound, and what it tells of a solution depends on no
frame. This is what makes forcing a thunk harmless, however deep thunks are
nested (`Env.sound_nested`): a thunk runs a query of its own. Nothing is
taken for granted here of the flags that are read.
-/
import LogicMachine.Proofs.Phases

namespace LogicMachine

-- ================================================== the start

section

variable {strict : Bool} {entry : Clause}

theorem get?_start (entry : Clause) (i : FrameId) :
    (Query.start entry).frames.get? i
      = if i = 0 then
          some ⟨1, 1, none, .succeed, some (.clause entry), 0, 0, blanks entry.locals⟩
        else none := by
  simp only [Query.start, Frames.push, Frames.get?, Frames.size, Array.getElem?_push]
  simp

theorem slot?_start {c : Cell} {s : Slot} (h : (Query.start entry).frames.slot? c = some s) :
    s = {} := by
  rw [Frames.slot?_eq, get?_start] at h
  split at h
  · obtain ⟨-, rfl⟩ := Array.getElem?_eq_some_iff.1 h
    simp
  · cases h

theorem within_start (entry : Clause) : (Query.start entry).frames.Within := by
  simp [Query.start, Frames.push, Frames.Within, Frames.total]

theorem sound_start (entry : Clause) : (Query.start entry).Sound strict := by
  refine ⟨orderly_start entry, ⟨fun hf hc => ?_, fun hs hv => ?_, fun hs hv => ?_,
    fun {i f} hf => ?_⟩, within_start entry, fun hs => ?_, rfl,
    fun l hl => ?_, ⟨trivial, fun p hp => absurd hp List.not_mem_nil⟩⟩
  · rw [get?_start] at hf
    split at hf <;> cases hf
    cases hc
  · rw [slot?_start hs] at hv
    simp at hv
  · rw [slot?_start hs] at hv
    simp at hv
  · rw [get?_start] at hf
    split at hf <;> cases hf
    rename_i hi
    subst hi
    exact ⟨le_rfl, fun _ => rfl, _, rfl, rfl, rfl, rfl⟩
  · rw [slot?_start hs]
  · exact absurd hl (Array.not_mem_empty l)

/-- A query that was prepared is about to take a step. -/
theorem holds_start (h : entry.Fits) :
    Phase.Holds strict entry (Query.start entry) .running := by
  have hsound : (Query.start entry).Sound strict := sound_start entry
  refine ⟨.refl, hsound, ?_⟩
  refine (Clause.fits_iff.1 h).2.2.2.mono (World.none_le _) fun i hi => ?_
  exact ⟨hsound.frame_owner hsound.orderly.live, fun _ => rooted_start entry i hi⟩

end

-- ================================================== answers

namespace Act

variable {env : Env} {entry : Clause}

theorem ends_search (henv : env.Sound false) (hsteps : 0 < env.steps) (steps : Nat) {q : Query}
    (h : Phase.Holds false entry q .running) {db : Database} (hdb : db.Sound) :
    Left false (fun found _ => ∀ s, found = some s → s.Detached) (fun _ => True)
      (search steps env ⟨db, q⟩) := by
  induction steps generalizing q db with
  | zero => exact ⟨hdb, trivial, fits_unfinished⟩
  | succ steps ih =>
    have hroot := h.moves.rooted (rooted_start entry)
    have hstep := ends_step (μ := .loose) henv hsteps (orderly_start entry) hdb h (fun _ => hroot)
      fun hs => nomatch hs
    simp only [search, bind_apply, attempt_apply]
    cases hended : step env ⟨db, q⟩ with
    | ok progress m =>
      rw [hended] at hstep
      obtain ⟨hdb', hleft⟩ := hstep
      cases progress with
      | running => exact ih hleft hdb'
      | found s => exact ⟨hdb', fun s' hs' => Option.some.inj hs' ▸ hleft.2⟩
      | exhausted =>
        refine ⟨hdb', fun s' hs' => ?_⟩
        cases hs'
    | error e m =>
      rw [hended] at hstep
      obtain ⟨hdb', hgot, he⟩ := hstep
      have hrecover := (does_recover (μ := .loose) (orderly_start entry) (fun _ => pledged_start entry)
        hgot (fun hs => nomatch hs) he).ends env m.db henv hdb'
      dsimp only
      rw [bind_apply]
      cases hcaught : recover e env ⟨m.db, m.query⟩ with
      | ok _ m' =>
        rw [hcaught] at hrecover
        exact ih hrecover.2 hrecover.1
      | error e' m' =>
        rw [hcaught] at hrecover
        exact ⟨hrecover.1, trivial, hrecover.2.2⟩

theorem answer_eq (env : Env) (m : Machine) :
    answer env m = if m.query.done = true then .ok none m else search env.steps env m := by
  simp only [answer, bind_apply, get_apply]
  cases m.query.done <;> rfl

theorem ends_answer (henv : env.Sound false) {q : Query} (h : Phase.Holds false entry q .running)
    {db : Database} (hdb : db.Sound) :
    Left false (fun found _ => ∀ s, found = some s → s.Detached) (fun _ => True)
      (answer env ⟨db, q⟩) := by
  rw [answer_eq]
  split
  · exact ⟨hdb, fun s hs => nomatch hs⟩
  · rcases Nat.eq_zero_or_pos env.steps with hzero | hpos
    · rw [hzero]
      exact ⟨hdb, trivial, fits_unfinished⟩
    · exact ends_search henv hpos _ h hdb

end Act

-- ================================================== thunks

section

variable {env : Env} {m : Machine}

/-- How work may end that leaves the query alone: the database is sound and
the answer as said. -/
abbrev Apart {α : Type} (m : Machine) (post : α → Prop) (r : EStateM.Result Failure Machine α) :
    Prop :=
  Act.Looked false m.query post r

theorem apart_solveApart (henv : env.Sound false) (hdb : m.db.Sound) {goal : Term}
    (hg : goal.Fits .none anyVars) :
    Apart m (fun found => ∀ s, found = some s → s.Detached) (solveApart env goal m) := by
  have hentry := (Clause.keeps_ofGoal hg).ends m.db hdb
  unfold solveApart
  dsimp only
  cases hcompiled : Clause.ofGoal goal false m.db with
  | error e db =>
    rw [hcompiled] at hentry
    exact ⟨rfl, hentry.1, hentry.2.weaken⟩
  | ok entry db =>
    rw [hcompiled] at hentry
    have hanswer := Act.ends_answer henv (holds_start hentry.2) hentry.1
    dsimp only
    cases hended : answer env ⟨db, Query.start entry⟩ with
    | ok found m' =>
      rw [hended] at hanswer
      exact ⟨rfl, hanswer.1, hanswer.2⟩
    | error e m' =>
      rw [hended] at hanswer
      exact ⟨rfl, hanswer.1, hanswer.2.2⟩

/-- The value of a deferred goal mentions nothing. -/
theorem fits_resultOf {found : Option Solution} (h : ∀ s, found = some s → s.Detached) :
    (Control.resultOf found).Fits .none noVars := by
  unfold Control.resultOf
  split
  · exact Term.fits_atom
  · rename_i s
    split
    · rename_i value hvalue
      obtain ⟨v, hv, hvalue'⟩ := Option.bind_eq_some_iff.1 hvalue
      obtain rfl : v = some value := hvalue'
      obtain ⟨before, after, hsplit, -⟩ := List.lookup_eq_some_iff.1 hv
      have hmem : (Control.resultName, some value) ∈ s.values := hsplit ▸ by simp
      exact (h s rfl _ hmem value rfl).anonymize
    · exact Term.fits_wildcard

theorem apart_produce (henv : env.Sound false) (hdb : m.db.Sound) {producer : Producer}
    (hp : producer.Sound) : Apart m (·.Fits .none noVars) (produce env producer m) := by
  cases producer with
  | given value =>
    have hnote := (Database.keeps_note (.text "force")).ends m.db hdb
    exact ⟨rfl, hnote.1, hp⟩
  | failing failure => exact ⟨rfl, hdb, hp⟩
  | solving goal =>
    have hsolved := apart_solveApart henv hdb hp
    show Apart m _ (EStateM.bind (solveApart env goal) (fun found => pure (Control.resultOf found)) m)
    unfold EStateM.bind
    split
    · rename_i found m' hended
      rw [hended] at hsolved
      exact ⟨hsolved.1, hsolved.2.1, fits_resultOf hsolved.2.2⟩
    · rename_i hended
      rw [hended] at hsolved
      exact hsolved

theorem forceThunk_eq (env : Env) (id : Nat) (m : Machine) :
    forceThunk env id m = match m.db.thunks[id]? with
      | none => .error (.fatal "no such thunk") m
      | some thunk => match thunk.value with
        | some value => .ok value m
        | none => match produce env thunk.producer m with
          | .ok value m' => Act.store (Database.settleThunk id value) env m'
          | .error e m' => .error e m' := by
  unfold forceThunk
  show (match m.db.thunks[id]? with
    | none => _
    | some thunk => _ : EStateM Failure Machine Term) m = _
  cases m.db.thunks[id]? with
  | none => rfl
  | some thunk =>
    dsimp only
    cases thunk.value with
    | some value => rfl
    | none =>
      show EStateM.bind (produce env thunk.producer) _ m = _
      unfold EStateM.bind
      cases produce env thunk.producer m <;> rfl

theorem apart_forceThunk (henv : env.Sound false) (hdb : m.db.Sound) (id : Nat) :
    Apart m (·.Fits .none noVars) (forceThunk env id m) := by
  rw [forceThunk_eq]
  split
  · exact ⟨rfl, hdb, fun hs => nomatch hs⟩
  · rename_i thunk hthunk
    obtain ⟨hproducer, hkept⟩ := hdb.thunks thunk (Array.mem_of_getElem? hthunk)
    split
    · rename_i value hvalue
      exact ⟨rfl, hdb, hkept value hvalue⟩
    · have hproduced := apart_produce henv hdb hproducer
      split
      · rename_i value m' hended
        rw [hended] at hproduced
        obtain ⟨hq, hdb', hvalue⟩ := hproduced
        have hkeep : Act.Reads .loose m'.query (Act.store (Database.settleThunk id value))
          (·.Fits .none noVars) := .store (Database.keeps_settleThunk hvalue)
        unfold Apart
        rw [← hq]
        exact hkeep.ends env m'.db henv hdb'
      · rename_i hended
        rw [hended] at hproduced
        exact hproduced

end

/-- However deep thunks may be nested, forcing one is harmless. -/
theorem Env.sound_nested (steps thunks : Nat) : (Env.nested steps thunks).Sound false := by
  induction thunks with
  | zero =>
    refine ⟨fun {id m m' t} hdb hended => ?_, fun {id m m' e} hdb hended => ?_⟩
    · exact nomatch (hended : EStateM.Result.error Failure.unfinished m = .ok t m')
    · cases (hended : EStateM.Result.error Failure.unfinished m = .error e m')
      exact ⟨rfl, hdb, trivial⟩
  | succ thunks ih =>
    refine ⟨fun {id m m' t} hdb hended => ?_, fun {id m m' e} hdb hended => ?_⟩
    · have hforced := apart_forceThunk ih hdb id
      rw [show forceThunk (Env.nested steps thunks) id m = .ok t m' from hended] at hforced
      exact hforced
    · have hforced := apart_forceThunk ih hdb id
      rw [show forceThunk (Env.nested steps thunks) id m = .error e m' from hended] at hforced
      exact hforced

end LogicMachine
