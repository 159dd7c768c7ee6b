/-
Going through rows.

Some goals have rows of constants to unify a pattern with, one after the other:
`between/3` the numbers of a range, `sub_atom/5` the parts of a text,
`atom_concat/3` the ways to divide one. The rows are not made beforehand. The
alternatives of the choice point are a cursor, and what it has still to come to is a
list of rows (`Alternatives.Lists`).

When the query comes back to such a goal, rows that the pattern cannot be are passed
over, and the next one that it can be is a solution (`Machine.Keeps.redo`). A cursor
that does not pass over anything itself makes the query fail into the point again,
with the same effect. What the query does between two solutions does not matter
(`Machine.Keeps.answers`): as often as it comes back, the rows that have been gone
through and those that are left are the rows of the goal, in order and each once. If
it comes back at once each time, all of them are gone through
(`Machine.Keeps.exists_answers`), and with the last one the point is gone.
-/
import LogicMachine.Proofs.Returning

namespace LogicMachine

-- ================================================== cursors

/-- The pattern is to be unified with these rows, one after the other. -/
inductive Alternatives.Lists (ts : List Term) : Alternatives → List (List Term) → Prop
  | nil {a : Alternatives} (hleaf : a.IsLeaf) (hmore : a.hasNext = false) (hnext : a.next? = none) :
    Lists ts a []
  | cons {a rest : Alternatives} {trial : Trial} {target item : Term} {us : List Term}
      {rows : List (List Term)} (hleaf : a.IsLeaf) (hmore : a.hasNext = true)
      (hnext : a.next? = some (trial, rest))
      (htrial : trial = .candidate target item ∨ trial = .unify target item)
      (hfaces : Act.Faces target item ts us) (hus : ∀ u ∈ us, u.isAtomic = true)
      (hrest : Lists ts rest rows) : Lists ts a (us :: rows)

namespace Alternatives.Lists

variable {ts : List Term} {a rest : Alternatives} {rows : List (List Term)}

theorem isLeaf (h : a.Lists ts rows) : a.IsLeaf := by
  cases h with
  | nil hleaf => exact hleaf
  | cons hleaf => exact hleaf

theorem hasNext_iff (h : a.Lists ts rows) : a.hasNext = true ↔ rows ≠ [] := by
  cases h with
  | nil _ hmore => simp [hmore]
  | cons _ hmore => simp [hmore]

theorem ne_branches (h : a.Lists ts rows) (codes : List Code) : a ≠ .branches codes := by
  rintro rfl
  exact h.isLeaf

end Alternatives.Lists

theorem Term.isPlain_of_isAtomic {u : Term} (h : u.isAtomic = true) : u.isPlain = true := by
  cases u with
  | atom | number | host => rfl
  | _ => cases h

theorem Term.fits_of_isAtomic {w : World} {vars : Nat → Prop} {u : Term} (h : u.isAtomic = true) :
    u.Fits w vars := by
  cases u with
  | atom | number | host => trivial
  | _ => cases h

/-- A compound of constants mentions nothing. -/
theorem Term.fits_row {w : World} {vars : Nat → Prop} {us : List Term}
    (hus : ∀ u ∈ us, u.isAtomic = true) (name : String) :
    (Term.compound .plain name us).Fits w vars :=
  Term.fits_compound.2 ⟨fun _ => List.all_eq_true.2 fun u hu => isPlain_of_isAtomic (hus u hu),
    fun u hu => fits_of_isAtomic (hus u hu)⟩

/-- What is unified with constants has no variable of its own. -/
theorem Act.Faces.fits {target item : Term} {ts us : List Term} (h : Act.Faces target item ts us)
    (hus : ∀ u ∈ us, u.isAtomic = true) : item.Fits .all noVars := by
  cases h with
  | compound _ => exact Term.fits_row hus _
  | single => exact Term.fits_of_isAtomic (hus item (List.mem_singleton_self _))

/-- Constants have no bare variable. -/
theorem Alternatives.Lists.not_takesBare {ts : List Term} {a rest : Alternatives}
    {rows : List (List Term)} (h : a.Lists ts rows) : ¬ a.TakesBare rest := by
  rintro ⟨earlier, item, later, target, rfl, -, hitem⟩
  induction earlier generalizing rows with
  | nil =>
    cases h with
    | nil _ _ hnext => cases hnext
    | cons _ _ hnext htrial hfaces hus _ =>
      cases hnext
      rcases htrial with htrial | htrial
      · cases htrial
        exact hitem (hfaces.fits hus)
      · cases htrial
  | cons first earlier ih =>
    cases h with
    | nil _ _ hnext => cases hnext
    | cons _ _ hnext _ _ _ hrest =>
      cases hnext
      exact ih hrest

-- ================================================== trying rows

/-- Rows are tried from the first on: one that the pattern can be is taken, or
those tried were all passed over. The last rows are left. -/
inductive Act.Took (m : Machine) (ts : List Term) :
    List (List Term) → Code → Query → List (List Term) → Prop
  | none : Took m ts [] .fail m.query []
  | found {us : List Term} {left : List (List Term)} {q' : Query} (h : Fitted m ts us q') :
    Took m ts (us :: left) .succeed q' left
  | missed {us : List Term} {left : List (List Term)} (h : ¬ m.CanBe ts us) :
    Took m ts (us :: left) .fail m.query left
  | passed {us : List Term} {rows left : List (List Term)} {code : Code} {q' : Query}
      (h : ¬ m.CanBe ts us) (ht : Took m ts rows code q' left) :
    Took m ts (us :: rows) code q' left

theorem Act.Took.exists_bound {m : Machine} {ts : List Term} {rows left : List (List Term)}
    {code : Code} {q' : Query} (h : Act.Took m ts rows code q' left) :
    ∃ cells, m.query.Bound cells q' := by
  have hsame : m.query.Bound [] m.query :=
    ⟨m.query.frames, ⟨rfl, .refl _, fun _ hc => absurd hc List.not_mem_nil, fun _ => rfl⟩,
      fun _ hc => absurd hc List.not_mem_nil, rfl⟩
  induction h with
  | none | missed => exact ⟨[], hsame⟩
  | found h =>
    obtain ⟨cells, hbound, -⟩ := h.binds
    exact ⟨cells, hbound⟩
  | passed _ _ ih => exact ih

/-- Whatever is left, it is less than there was. -/
theorem Act.Took.length_lt {m : Machine} {ts : List Term} {rows left : List (List Term)} {code : Code}
    {q' : Query} (h : Act.Took m ts rows code q' left) (hne : rows ≠ []) :
    left.length < rows.length := by
  induction h with
  | none => exact absurd rfl hne
  | found | missed => exact Nat.lt_succ_self _
  | passed _ ht ih =>
    cases ht with
    | none => exact Nat.lt_succ_self _
    | _ => exact (ih (List.cons_ne_nil _ _)).trans (Nat.lt_succ_self _)

section

variable {env : Env} {m m' : Machine} {target item : Term}

theorem Trial.run_unify {ok : Bool} (h : Act.unify target item env m = .ok ok m') :
    (Trial.unify target item).run env m = .ok (some (.ofBool ok)) m' := by
  show (Act.unify target item >>= fun ok => pure (some (Code.ofBool ok))) env m = _
  rw [Act.bind_apply, h]
  rfl

theorem Trial.run_candidate {ok : Bool} (h : Act.unify target item env m = .ok ok m') :
    (Trial.candidate target item).run env m = .ok (if ok then some .succeed else none) m' := by
  show (Act.unify target item >>= fun ok => if ok then pure (some Code.succeed) else pure none) env m
    = _
  rw [Act.bind_apply, h]
  cases ok <;> rfl

end

/-- What trying the rows of a cursor comes to. -/
theorem Alternatives.Lists.start {q : Query} {db : Database} (hq : q.Sound true) (hdb : db.Sound)
    {ts : List Term} {enough : Nat} (hts : Act.Ready ⟨db, q⟩ enough ts) {a : Alternatives}
    {rows : List (List Term)} (h : a.Lists ts rows) {env : Env} (henv : env.Recalls)
    (henough : enough + 1 ≤ env.steps) {steps : Nat} (hsteps : rows.length < steps) :
    ∃ code rest q' left, a.start steps env ⟨db, q⟩ = .ok (.ok code, rest) ⟨db, q'⟩
      ∧ rest.Lists ts left ∧ Act.Took ⟨db, q⟩ ts rows code q' left := by
  induction h generalizing steps with
  | @nil a hleaf hmore hnext =>
    obtain ⟨steps, rfl⟩ := Nat.exists_eq_add_of_le' (Nat.one_le_of_lt hsteps)
    refine ⟨.fail, a, q, [], ?_, .nil hleaf hmore hnext, .none⟩
    rw [start_succ, hnext]
  | @cons a rest trial target item us rows _ _ hnext htrial hfaces hus hrest ih =>
    obtain ⟨steps, rfl⟩ := Nat.exists_eq_add_of_le' (Nat.one_le_of_lt hsteps)
    rw [start_succ, hnext]
    dsimp only
    rcases Act.unify_constants hq hdb hts hfaces hus with ⟨q', hfitted, hunify⟩ | ⟨hnone, hunify⟩
    · have hunify := hunify env henv henough
      refine ⟨.succeed, rest, q', rows, ?_, hrest, .found hfitted⟩
      rcases htrial with rfl | rfl
      · rw [Trial.run_candidate hunify]
        rfl
      · rw [Trial.run_unify hunify]
        rfl
    · have hunify := hunify env henv henough
      rcases htrial with rfl | rfl
      · obtain ⟨code, rest', q', left, hstart, hlists, htook⟩ := ih (Nat.lt_of_succ_lt_succ hsteps)
        refine ⟨code, rest', q', left, ?_, hlists, .passed hnone htook⟩
        rw [Trial.run_candidate hunify]
        exact hstart
      · refine ⟨.fail, rest, q, rows, ?_, hrest, .missed hnone⟩
        rw [Trial.run_unify hunify]
        rfl

-- ================================================== settling

namespace Query

variable {q : Query} {p : ChoicePoint} {below : List ChoicePoint} {id : Nat} {rest : Alternatives}

/-- What is left is put back into the topmost point. -/
theorem points_settle_top (hpts : q.choices.points = p :: below) (hid : p.id = id)
    (hmore : rest.hasNext = true) :
    (q.settle id rest).choices.points = { p with alternatives := some rest } :: below := by
  simp [settle, hmore, ChoiceStack.restore, hpts, ChoiceStack.restore.go, hid]

/-- With nothing left the point is gone. -/
theorem ne_of_settle (ho : q.choices.Ordered) (hpts : q.choices.points = p :: below)
    (hid : p.id = id) (hmore : rest.hasNext = false) :
    ∀ p' ∈ (q.settle id rest).choices.points, p'.id ≠ id := by
  have hfalling := ho.falling
  rw [hpts, List.map_cons, List.pairwise_cons] at hfalling
  have hdrop : (q.settle id rest).choices
      = ChoiceStack.recordAll q.frames p.trail { q.choices with points := below } := by
    simp [settle, hmore, ChoiceStack.restore, hpts, ChoiceStack.restore.go, hid,
      ChoiceStack.dropTop]
  rw [hdrop]
  intro p' hp'
  obtain ⟨b, hb, hsame⟩ := exists_left_of_forall₂ (ChoiceStack.samePoints_recordAll ..) p' hp'
  rw [hsame.same.id, ← hid]
  exact Nat.ne_of_lt (hfalling.1 _ (List.mem_map_of_mem hb))

theorem backTo_top {a : Alternatives} (hpts : q.choices.points = p :: below) (hid : p.id = id)
    (ha : p.alternatives = some a) (hmore : a.hasNext = true) : q.BackTo id := by
  refine ⟨⟨p.id, a⟩, ?_, hid⟩
  simp [retreat, hpts, retreat.go, ha, hmore]

/-- The point that the query has gone back to is on top. -/
theorem exists_top {q' : Query} {r : Resumption} (hr : q.retreat = (some r, q')) :
    ∃ p below, q'.choices.points = p :: below ∧ p.id = r.id := by
  obtain ⟨_, p, below, -, hid, -, -, -, rfl⟩ := Query.retreat_split hr
  exact ⟨_, below, rfl, hid⟩

/-- It still is when cells were bound. -/
theorem Bound.top {q' : Query} {cells : List Cell} (h : q.Bound cells q')
    (hpts : q.choices.points = p :: below) :
    ∃ p', q'.choices.points = p' :: below ∧ p'.id = p.id := by
  obtain ⟨fs, -, -, rfl⟩ := h
  refine ⟨p.trailing fs cells, ?_, rfl⟩
  show (q.choices.recordAll fs cells).points = _
  rw [ChoiceStack.points_recordAll, hpts]

theorem Bound.ordered {q' : Query} {cells : List Cell} (h : q.Bound cells q')
    (ho : q.choices.Ordered) : q'.choices.Ordered := by
  obtain ⟨fs, -, -, rfl⟩ := h
  exact ho.recordAll fs cells

theorem Bound.callee {q' : Query} {cells : List Cell} (h : q.Bound cells q') :
    q'.callee = q.callee := by
  obtain ⟨_, -, -, rfl⟩ := h
  rfl

end Query

-- ================================================== solutions

/-- What a term can be depends on the arena and on the values of thunks. -/
theorem Machine.Denotes.congr {m m' : Machine} {σ : Cell → Term} {t u : Term} (h : m.Denotes σ t u)
    (hframes : m'.query.frames = m.query.frames) (hdb : m'.db = m.db) : m'.Denotes σ t u := by
  induction h with
  | any => exact .any
  | cell h => exact .cell (hframes ▸ h)
  | same h hu => exact .same (hframes ▸ h) hu
  | forced h hvalue _ ih => exact .forced (hframes ▸ h) (hdb ▸ hvalue) ih

/-- A solution of a goal that was called in `m₀`: the pattern is the row, where
the goal was called, with cells of the pattern bound and every other cell as it was
then. -/
structure Machine.Solved (m₀ : Machine) (ts us : List Term) (m : Machine) : Prop where
  possible : m₀.CanBe ts us
  denotes : ∀ σ, List.Forall₂ (m.Denotes σ) ts us
  next : m.query.next = .succeed
  callee : m.query.callee = m₀.query.callee
  binds : ∃ cells fs, m₀.query.frames.Restores fs ∧ Frames.Binds cells fs m.query.frames
    ∧ fs.Unbound cells ∧ ∀ c ∈ cells, ∃ t ∈ ts, ∃ name, m₀.query.frames.resolve t = .ref c name

/-- Of the rows, those that the pattern can be were solutions in turn, until the
last ones were left. With the last row of all the point of the goal is gone. -/
inductive Machine.Answers (m₀ : Machine) (ts : List Term) :
    List (List Term) → List Machine → List (List Term) → Prop
  | nil {left : List (List Term)} : Answers m₀ ts left [] left
  | passed {us : List Term} {rows left : List (List Term)} {ms : List Machine}
      (h : ¬ m₀.CanBe ts us) (ha : Answers m₀ ts rows ms left) : Answers m₀ ts (us :: rows) ms left
  | solved {us : List Term} {rows left : List (List Term)} {m : Machine} {ms : List Machine}
      (h : m₀.Solved ts us m)
      (hlast : rows = [] → ∀ p ∈ m.query.choices.points, p.id ≠ m₀.query.nextPoint)
      (ha : Answers m₀ ts rows ms left) : Answers m₀ ts (us :: rows) (m :: ms) left

namespace Machine.Answers

variable {m₀ : Machine} {ts : List Term} {rows left left' : List (List Term)} {ms ms' : List Machine}

theorem trans (h : m₀.Answers ts rows ms left) (h' : m₀.Answers ts left ms' left') :
    m₀.Answers ts rows (ms ++ ms') left' := by
  induction h with
  | nil => exact h'
  | passed h _ ih => exact .passed h (ih h')
  | solved h hlast _ ih => exact .solved h hlast (ih h')

open Classical in
/-- With nothing left, the solutions are the rows that the pattern can be. -/
theorem forall₂_filter (h : m₀.Answers ts rows ms left) (hleft : left = []) :
    List.Forall₂ (m₀.Solved ts) (rows.filter fun us => decide (m₀.CanBe ts us)) ms := by
  induction h with
  | nil =>
    subst hleft
    exact .nil
  | passed h _ ih =>
    rw [List.filter_cons_of_neg (by simpa using h)]
    exact ih hleft
  | solved h _ _ ih =>
    rw [List.filter_cons_of_pos (by simpa using h.possible)]
    exact .cons h (ih hleft)

/-- If the pattern can be every row, the solutions are the first rows. -/
theorem forall₂_take (h : m₀.Answers ts rows ms left) (hall : ∀ us ∈ rows, m₀.CanBe ts us) :
    List.Forall₂ (m₀.Solved ts) (rows.take ms.length) ms ∧ left = rows.drop ms.length := by
  induction h with
  | nil => exact ⟨.nil, rfl⟩
  | passed h => exact absurd (hall _ List.mem_cons_self) h
  | solved h _ _ ih =>
    obtain ⟨htake, hdrop⟩ := ih fun us hus => hall us (List.mem_cons_of_mem _ hus)
    exact ⟨.cons h htake, hdrop⟩

/-- Then the point is gone with the last solution. -/
theorem ne_of_getLast? (h : m₀.Answers ts rows ms left) (hall : ∀ us ∈ rows, m₀.CanBe ts us)
    (hleft : left = []) {m : Machine} (hm : m ∈ ms.getLast?) :
    ∀ p ∈ m.query.choices.points, p.id ≠ m₀.query.nextPoint := by
  induction h with
  | nil => cases hm
  | passed h => exact absurd (hall _ List.mem_cons_self) h
  | @solved us rows _ m₁ ms _ hlast ha ih =>
    cases ms with
    | nil =>
      cases hm
      refine hlast ?_
      cases ha with
      | nil => exact hleft
      | passed h => exact absurd (hall _ (List.mem_cons_of_mem _ List.mem_cons_self)) h
    | cons m₂ ms =>
      rw [List.getLast?_cons_cons] at hm
      exact ih (fun us hus => hall us (List.mem_cons_of_mem _ hus)) hleft hm

/-- To leave out rows that the pattern cannot be changes nothing. -/
theorem of_filter {α : Type} {row : α → List Term} {p : α → Bool} {l : List α}
    (h : m₀.Answers ts ((l.filter p).map row) ms left)
    (hnot : ∀ a ∈ l, p a = false → ¬ m₀.CanBe ts (row a)) :
    ∃ l' : List α, m₀.Answers ts (l.map row) ms (l'.map row) ∧ (l'.filter p).map row = left := by
  induction l generalizing ms with
  | nil =>
    cases h
    exact ⟨[], .nil, rfl⟩
  | cons a l ih =>
    have hnot' : ∀ b ∈ l, p b = false → ¬ m₀.CanBe ts (row b) := fun b hb =>
      hnot b (List.mem_cons_of_mem _ hb)
    cases ha : p a with
    | true =>
      rw [List.filter_cons_of_pos ha, List.map_cons] at h
      cases h with
      | nil => exact ⟨a :: l, .nil, by rw [List.filter_cons_of_pos ha, List.map_cons]⟩
      | passed hus h =>
        obtain ⟨l', hanswers, hleft⟩ := ih h hnot'
        exact ⟨l', .passed hus hanswers, hleft⟩
      | solved hus hlast h =>
        obtain ⟨l', hanswers, hleft⟩ := ih h hnot'
        refine ⟨l', .solved hus (fun hnil => hlast ?_) hanswers, hleft⟩
        rw [List.map_eq_nil_iff.1 hnil]
        rfl
    | false =>
      rw [List.filter_cons_of_neg (by rw [ha]; exact Bool.false_ne_true)] at h
      obtain ⟨l', hanswers, hleft⟩ := ih h hnot'
      exact ⟨l', .passed (hnot a List.mem_cons_self ha) hanswers, hleft⟩

end Machine.Answers

-- ================================================== coming back once

/-- The goal that was called in `m₀` has so many rows left. -/
structure Machine.Keeps (m₀ : Machine) (ts : List Term) (left : List (List Term)) (m : Machine) :
    Prop where
  db : m.db.Sound
  evolves : m₀.db.Evolves m.db
  query : ∃ a : Alternatives, a.Lists ts left ∧ m₀.query.Keeps a m.query

/-- The pattern of a goal that is called. -/
structure Machine.Poses (m₀ : Machine) (enough : Nat) (ts : List Term) : Prop where
  query : m₀.query.Sound true
  db : m₀.db.Sound
  ready : Act.Ready m₀ enough ts

/-- No bare variable is read. -/
def Rigor.exacting : Rigor := ⟨true, false, fun h => nomatch h⟩

/-- The environment is one that the goal can be gone back to in. -/
structure Env.Suffices (env : Env) (enough rows : Nat) : Prop where
  sound : env.Sound false
  recalls : env.Recalls
  enough : enough + 1 ≤ env.steps
  rows : rows < env.steps

theorem Env.Suffices.mono {env : Env} {enough rows rows' : Nat} (h : env.Suffices enough rows)
    (hle : rows' ≤ rows) : env.Suffices enough rows' :=
  ⟨h.sound, h.recalls, h.enough, hle.trans_lt h.rows⟩

section

variable {m₀ m m' : Machine} {ts : List Term} {rows left : List (List Term)} {enough : Nat}
  {env : Env}

/-- A row that is taken where the query has come back is a solution. -/
theorem Machine.solved_of_fitted (h₀ : m₀.Poses enough ts) {q q' : Query} {db : Database}
    (he : m₀.db.Evolves db) (hq : m₀.query.Returns q) {us : List Term}
    (hf : Act.Fitted ⟨db, q⟩ ts us q') (hm : m'.query.frames = q'.frames) (hdb : m'.db = db)
    (hcallee : m'.query.callee = q'.callee) (hnext : m'.query.next = .succeed) :
    m₀.Solved ts us m' := by
  have hres : m₀.Restores ⟨db, q⟩ := ⟨he, hq.frames, hq.sound.within⟩
  obtain ⟨cells, hbound, hcells⟩ := hf.binds
  refine ⟨(hres.canBe h₀.query h₀.db h₀.ready).1 hf.possible,
    fun σ => (hf.denotes σ).imp fun _ _ hd => hd.congr hm hdb, hnext,
    hcallee.trans (hbound.callee.trans hq.callee), ?_⟩
  obtain ⟨fs, hbinds, hunbound, rfl⟩ := hbound
  refine ⟨cells, q.frames, hq.frames, hm ▸ hbinds, hunbound, fun c hc => ?_⟩
  obtain ⟨t, ht, name, hresolve⟩ := hcells c hc
  exact ⟨t, ht, name, (hres.resolve h₀.query (h₀.ready.mem ht).1).symm.trans hresolve⟩

/-- How the query goes on when it has come back: with a solution, or failing. -/
inductive Machine.Redone (m₀ : Machine) (ts : List Term) (rows left : List (List Term)) (m : Machine) :
    Prop
  | solved (h : m.query.next = .succeed) (ha : m₀.Answers ts rows [m] left)
  | failed (h : m.query.next = .fail) (ha : m₀.Answers ts rows [] left)

theorem Machine.redone_of_took (h₀ : m₀.Poses enough ts) {q q' : Query} {db : Database}
    (he : m₀.db.Evolves db) (hq : m₀.query.Returns q) {code : Code}
    (ht : Act.Took ⟨db, q⟩ ts rows code q' left) (hm : m'.query.frames = q'.frames) (hdb : m'.db = db)
    (hcallee : m'.query.callee = q'.callee) (hnext : m'.query.next = code)
    (hlast : left = [] → ∀ p ∈ m'.query.choices.points, p.id ≠ m₀.query.nextPoint) :
    m₀.Redone ts rows left m' := by
  have hres : m₀.Restores ⟨db, q⟩ := ⟨he, hq.frames, hq.sound.within⟩
  have hnot : ∀ {us}, ¬ Machine.CanBe ⟨db, q⟩ ts us → ¬ m₀.CanBe ts us := fun h hc =>
    h ((hres.canBe h₀.query h₀.db h₀.ready).2 hc)
  induction ht with
  | none => exact .failed hnext .nil
  | found hf => exact .solved hnext (.solved (solved_of_fitted h₀ he hq hf hm hdb hcallee hnext) hlast .nil)
  | missed h => exact .failed hnext (.passed (hnot h) .nil)
  | passed h _ ih =>
    cases ih hm hcallee hnext hlast with
    | solved hnext ha => exact .solved hnext (.passed (hnot h) ha)
    | failed hnext ha => exact .failed hnext (.passed (hnot h) ha)

/-- Going back keeps the query sound, and is a sequence of moves: a row has no bare
variable that could be read. -/
theorem Machine.Keeps.got (h : m₀.Keeps ts rows m) (henv : env.Suffices enough rows.length)
    (hfail : m.query.next = .fail) (h₀ : m₀.Poses enough ts) {q q' : Query} {db : Database}
    {code : Code} (hbacktrack : backtrack env m = .ok true ⟨db, q'.holding code⟩)
    {a : Alternatives} {id : Nat} (hr : m.query.retreat = (some ⟨id, a⟩, q))
    (hlists : a.Lists ts rows) :
    (∃ a₀ : Alternatives, a₀.IsLeaf ∧ Moves true ⟨m₀.query.leaving a₀, none⟩ ⟨q'.holding code, none⟩)
      ∧ (q'.holding code).Sound true := by
  obtain ⟨_, -, hkeeps⟩ := h.query
  obtain ⟨a₀, ha₀, hmoves⟩ := hkeeps.moves
  have hbare : ¬ Machine.ReadsBare env m := by
    rintro ⟨-, r, q₁, ended, rest', m₁, hr', -, -, hbare⟩
    cases hr.symm.trans hr'
    exact hlists.not_takesBare hbare
  have hends := ends_backtrack (μ := .exacting) henv.sound (Nat.zero_lt_of_lt henv.rows)
    (h₀.query.orderly_leaving ha₀) h.db hkeeps.sound hfail hmoves fun _ => hbare
  rw [hbacktrack] at hends
  have hgot : (q'.holding code).Got true ⟨m₀.query.leaving a₀, none⟩ (q'.holding code).next := hends.2
  exact ⟨⟨a₀, ha₀, hgot.moves⟩, hgot.sound⟩

/-- Coming back to a goal is to come to its next solution, or to fail over rows that
the pattern cannot be. -/
theorem Machine.Keeps.redo (h₀ : m₀.Poses enough ts) (h : m₀.Keeps ts rows m)
    (henv : env.Suffices enough rows.length) (hfail : m.query.next = .fail)
    (hback : m.query.BackTo m₀.query.nextPoint) :
    ∃ m' left, backtrack env m = .ok true m' ∧ m₀.Keeps ts left m' ∧ m₀.Redone ts rows left m'
      ∧ left.length < rows.length ∧ (left ≠ [] → m'.query.BackTo m₀.query.nextPoint) := by
  obtain ⟨a, hlists, hkeeps⟩ := h.query
  obtain ⟨q, hr, hreturns⟩ := hkeeps.returns h₀.query hback
  have hready : Act.Ready ⟨m.db, q⟩ enough ts :=
    Restores.ready ⟨h.evolves, hreturns.frames, hreturns.sound.within⟩ h₀.query h₀.db h₀.ready
  obtain ⟨code, rest, q', left, hstart, hlists', htook⟩ :=
    hlists.start hreturns.sound h.db hready henv.recalls henv.enough henv.rows
  have hbacktrack : backtrack env m
      = .ok true ⟨m.db, (q'.settle m₀.query.nextPoint rest).holding code⟩ := by
    rw [backtrack_eq, hr]
    simp only [hstart]
  obtain ⟨hmoves, hsound⟩ := h.got henv hfail h₀ hbacktrack hr hlists
  obtain ⟨cells, hbound⟩ := htook.exists_bound
  obtain ⟨p, below, hpts, hid⟩ := Query.exists_top hr
  obtain ⟨p', hpts', hid'⟩ := hbound.top hpts
  have hid' : p'.id = m₀.query.nextPoint := hid'.trans hid
  have hordered : q'.choices.Ordered := hbound.ordered hreturns.sound.orderly.ordered
  refine ⟨_, left, hbacktrack, ⟨h.db, h.evolves, rest, hlists', hmoves, hsound, ?_⟩,
    redone_of_took h₀ h.evolves hreturns htook rfl rfl rfl rfl ?_, htook.length_lt ?_, ?_⟩
  · intro b hb hbid
    rcases ChoiceStack.Ordered.mem_settle hordered hb with ⟨-, hb⟩ | ⟨hne, -⟩
    · exact hb
    · exact absurd hbid hne
  · intro hleft
    refine Query.ne_of_settle hordered hpts' hid' (Bool.eq_false_iff.2 fun hmore => ?_)
    exact hlists'.hasNext_iff.1 hmore hleft
  · obtain ⟨-, -, -, -, -, -, hmore, -, -⟩ := Query.retreat_split hr
    exact hlists.hasNext_iff.1 hmore
  · intro hleft
    have hmore := hlists'.hasNext_iff.2 hleft
    exact (Query.backTo_top (Query.points_settle_top hpts' hid' hmore) hid' rfl hmore).holding code

end

-- ================================================== coming back again and again

/-- What a query may have done when it fails next, other than to come back to the
point. -/
structure Machine.Away (id : Nat) (m m' : Machine) : Prop where
  moves : Relation.ReflTransGen (Moment.Elsewhere id) ⟨m.query, none⟩ ⟨m'.query, none⟩
  sound : m'.query.Sound true
  db : m'.db.Sound
  evolves : m.db.Evolves m'.db
  next : m'.query.next = .fail

/-- The query comes back to the point again and again, and these are the machines
that it goes on from; between two of them it does what `between` says. -/
inductive Machine.Redoes (env : Env) (id : Nat) (between : Machine → Machine → Prop) :
    Machine → List Machine → Machine → Prop
  | stop {m : Machine} : Redoes env id between m [] m
  | failed {m m₁ m' : Machine} {ms : List Machine} (hback : m.query.BackTo id)
      (h : backtrack env m = .ok true m₁) (hnext : m₁.query.next = .fail)
      (hrest : Redoes env id between m₁ ms m') : Redoes env id between m ms m'
  | solved {m m₁ m₂ m' : Machine} {ms : List Machine} (hback : m.query.BackTo id)
      (h : backtrack env m = .ok true m₁) (hnext : m₁.query.next = .succeed)
      (hbetween : between m₁ m₂) (hrest : Redoes env id between m₂ ms m') :
    Redoes env id between m (m₁ :: ms) m'

section

variable {m₀ m m' : Machine} {ts : List Term} {rows left : List (List Term)} {enough : Nat}
  {env : Env} {ms : List Machine}

theorem Machine.Keeps.away (h : m₀.Keeps ts left m) (ha : Away m₀.query.nextPoint m m') :
    m₀.Keeps ts left m' := by
  obtain ⟨a, hlists, hkeeps⟩ := h.query
  exact ⟨ha.db, h.evolves.trans ha.evolves, a, hlists,
    hkeeps.elsewhere hlists.ne_branches ha.moves ha.sound⟩

/-- To fail at once is to do nothing elsewhere. -/
theorem Machine.Keeps.away_failing (h : m₀.Keeps ts left m) (id : Nat) :
    Away id m ⟨m.db, m.query.holding .fail⟩ := by
  obtain ⟨_, -, hkeeps⟩ := h.query
  have hsound := hkeeps.sound
  exact ⟨.single ⟨.fail, (fun _ hr => nomatch hr), fun _ hr => nomatch hr⟩,
    hsound.goto hsound.orderly.live .fail, h.db, .refl _, rfl⟩

/-- However often the query comes back to a goal, and whatever it does in between: the
rows gone through and those left are the rows of the goal, and the solutions are
those gone through that the pattern can be, in order and each once. -/
theorem Machine.Keeps.answers (h₀ : m₀.Poses enough ts) (h : m₀.Keeps ts rows m)
    (henv : env.Suffices enough rows.length) (hfail : m.query.next = .fail)
    (hrun : Redoes env m₀.query.nextPoint (Away m₀.query.nextPoint) m ms m') :
    ∃ left, m₀.Keeps ts left m' ∧ m₀.Answers ts rows ms left := by
  induction hrun generalizing rows with
  | stop => exact ⟨rows, h, .nil⟩
  | failed hback hstep hnext _ ih =>
    obtain ⟨m₁, left, hstep', hkeeps, hredone, hlt, -⟩ := h.redo h₀ henv hfail hback
    cases hstep.symm.trans hstep'
    obtain ⟨left', hkeeps', hanswers⟩ := ih hkeeps (henv.mono hlt.le) hnext
    cases hredone with
    | solved hsucceed => cases hnext.symm.trans hsucceed
    | failed _ ha => exact ⟨left', hkeeps', ha.trans hanswers⟩
  | solved hback hstep hnext hbetween _ ih =>
    obtain ⟨m₁, left, hstep', hkeeps, hredone, hlt, -⟩ := h.redo h₀ henv hfail hback
    cases hstep.symm.trans hstep'
    obtain ⟨left', hkeeps', hanswers⟩ := ih (hkeeps.away hbetween) (henv.mono hlt.le) hbetween.next
    cases hredone with
    | solved _ ha => exact ⟨left', hkeeps', ha.trans hanswers⟩
    | failed hfails => cases hnext.symm.trans hfails

/-- If the query fails at once after each solution, it comes to all of them, and then
the goal has no point any more to come back to. -/
theorem Machine.Keeps.exists_answers (h₀ : m₀.Poses enough ts) (h : m₀.Keeps ts rows m)
    (henv : env.Suffices enough rows.length) (hfail : m.query.next = .fail)
    (hback : rows ≠ [] → m.query.BackTo m₀.query.nextPoint) :
    ∃ ms m', Redoes env m₀.query.nextPoint (fun m m' => m' = ⟨m.db, m.query.holding .fail⟩) m ms m'
      ∧ m₀.Answers ts rows ms [] ∧ ¬ m'.query.BackTo m₀.query.nextPoint := by
  induction hn : rows.length using Nat.strong_induction_on generalizing rows m with
  | _ n ih =>
    by_cases hrows : rows = []
    · subst hrows
      refine ⟨[], m, .stop, .nil, Query.not_backTo fun p hp hid => ?_⟩
      obtain ⟨a, hlists, hkeeps⟩ := h.query
      rw [ChoicePoint.hasNext, hkeeps.remains p hp hid]
      exact Bool.eq_false_iff.2 fun hmore => hlists.hasNext_iff.1 hmore rfl
    · obtain ⟨m₁, left, hstep, hkeeps, hredone, hlt, hback₁⟩ := h.redo h₀ henv hfail (hback hrows)
      cases hredone with
      | solved hnext ha =>
        have haway := hkeeps.away_failing m₀.query.nextPoint
        obtain ⟨ms, m', hrun, hanswers, hover⟩ := ih left.length (hn ▸ hlt) (hkeeps.away haway)
          (henv.mono hlt.le) rfl (fun hleft => (hback₁ hleft).holding .fail) rfl
        exact ⟨_, m', .solved (hback hrows) hstep hnext rfl hrun, ha.trans hanswers, hover⟩
      | failed hnext ha =>
        obtain ⟨ms, m', hrun, hanswers, hover⟩ := ih left.length (hn ▸ hlt) hkeeps
          (henv.mono hlt.le) hnext hback₁ rfl
        exact ⟨_, m', .failed (hback hrows) hstep hnext hrun, ha.trans hanswers, hover⟩

end

-- ================================================== calling the goal

/-- A goal with these rows has been called, and has left its point. -/
structure Machine.Opens (m₀ : Machine) (enough : Nat) (ts : List Term) (rows : List (List Term))
    (m : Machine) : Prop where
  poses : m₀.Poses enough ts
  point : ∃ a : Alternatives, a.Lists ts rows
    ∧ a.Fits (m₀.query.frames.world true)
      ((m₀.query.frames.world true).slotsOf (m₀.query.frames.owner m₀.query.callee))
    ∧ m = ⟨m₀.db, m₀.query.leaving a⟩

section

variable {m₀ m m' : Machine} {ts : List Term} {rows : List (List Term)} {enough : Nat} {env : Env}
  {ms : List Machine}

theorem Machine.Opens.keeps (h : m₀.Opens enough ts rows m) :
    m₀.Keeps ts rows ⟨m.db, m.query.holding .fail⟩ := by
  obtain ⟨a, hlists, hfits, rfl⟩ := h.point
  have hkeeps : m₀.Keeps ts rows ⟨m₀.db, m₀.query.leaving a⟩ :=
    ⟨h.poses.db, .refl _, a, hlists, h.poses.query.keeps hlists.isLeaf hfits⟩
  exact hkeeps.away (hkeeps.away_failing _)

/-- The first row is come to by failing. -/
theorem Machine.Opens.backTo (h : m₀.Opens enough ts rows m) (hrows : rows ≠ []) :
    (m.query.holding .fail).BackTo m₀.query.nextPoint := by
  obtain ⟨a, hlists, -, rfl⟩ := h.point
  have hpoints : (m₀.query.leaving a).choices.points
      = ⟨m₀.query.nextPoint, m₀.query.callee, m₀.query.ancestry, none, m₀.query.frames.size, some a,
        []⟩ :: m₀.query.choices.points := rfl
  exact (Query.backTo_top hpoints rfl rfl (hlists.hasNext_iff.2 hrows)).holding .fail

theorem Machine.Opens.answers (h : m₀.Opens enough ts rows m) (henv : env.Suffices enough rows.length)
    (hrun : Redoes env m₀.query.nextPoint (Away m₀.query.nextPoint)
      ⟨m.db, m.query.holding .fail⟩ ms m') : ∃ left, m₀.Answers ts rows ms left := by
  obtain ⟨left, -, hanswers⟩ := h.keeps.answers h.poses henv rfl hrun
  exact ⟨left, hanswers⟩

theorem Machine.Opens.exists_answers (h : m₀.Opens enough ts rows m)
    (henv : env.Suffices enough rows.length) :
    ∃ ms m', Redoes env m₀.query.nextPoint (fun m m' => m' = ⟨m.db, m.query.holding .fail⟩)
        ⟨m.db, m.query.holding .fail⟩ ms m'
      ∧ m₀.Answers ts rows ms [] ∧ ¬ m'.query.BackTo m₀.query.nextPoint :=
  h.keeps.exists_answers h.poses henv rfl h.backTo

open Classical in
/-- The solutions of the goal, if the query fails each time, are the rows that the pattern
can be. -/
theorem Machine.Opens.exists_solutions (h : m₀.Opens enough ts rows m)
    (henv : env.Suffices enough rows.length) :
    ∃ ms m', Redoes env m₀.query.nextPoint (fun m m' => m' = ⟨m.db, m.query.holding .fail⟩)
        ⟨m.db, m.query.holding .fail⟩ ms m'
      ∧ List.Forall₂ (m₀.Solved ts) (rows.filter fun us => decide (m₀.CanBe ts us)) ms
      ∧ ¬ m'.query.BackTo m₀.query.nextPoint := by
  obtain ⟨ms, m', hrun, hanswers, hover⟩ := h.exists_answers henv
  exact ⟨ms, m', hrun, hanswers.forall₂_filter rfl, hover⟩

end

-- ================================================== items tried in turn

/-- A list of items is a cursor over itself. -/
theorem Alternatives.lists_candidates {ts : List Term} {rows : List (List Term)} (form : Form)
    (name : String) (hlength : ∀ us ∈ rows, us.length = ts.length)
    (hus : ∀ us ∈ rows, ∀ u ∈ us, u.isAtomic = true) :
    Lists ts (.candidates (rows.map (Term.compound .plain name)) (.compound form name ts)) rows := by
  induction rows with
  | nil => exact .nil trivial rfl rfl
  | cons us rows ih =>
    exact .cons trivial rfl rfl (.inl rfl) (.compound (hlength us List.mem_cons_self))
      (hus us List.mem_cons_self) (ih (fun us h => hlength us (List.mem_cons_of_mem _ h))
        fun us h => hus us (List.mem_cons_of_mem _ h))

theorem Act.enumerate_apply {items : List Term} (h : items ≠ []) (target : Term) (env : Env)
    (m : Machine) : enumerate items target env m
      = .ok .fail ⟨m.db, m.query.leaving (.candidates items target)⟩ := by
  rw [enumerate, if_pos (by simpa using h)]
  rfl

theorem Machine.Poses.opens_candidates {m : Machine} {enough : Nat} {ts : List Term}
    (h : m.Poses enough ts) {form : Form} (name : String)
    (hform : form = .plain → ts.all Term.isPlain = true) {rows : List (List Term)}
    (hlength : ∀ us ∈ rows, us.length = ts.length)
    (hus : ∀ us ∈ rows, ∀ u ∈ us, u.isAtomic = true) :
    m.Opens enough ts rows ⟨m.db, m.query.leaving
      (.candidates (rows.map (Term.compound .plain name)) (.compound form name ts))⟩ := by
  have hitems : ∀ item ∈ rows.map (Term.compound .plain name),
      item.Fits (m.query.frames.world true) anyVars := by
    intro item hitem
    obtain ⟨us, hrow, rfl⟩ := List.mem_map.1 hitem
    exact Term.fits_row (hus us hrow) name
  have htarget : (Term.compound form name ts).Live (m.query.frames.world true) :=
    Term.fits_compound.2 ⟨hform, fun t ht => (h.ready.mem ht).1⟩
  refine ⟨h, _, Alternatives.lists_candidates form name hlength hus, ?_, rfl⟩
  exact ⟨hitems, htarget⟩

end LogicMachine
