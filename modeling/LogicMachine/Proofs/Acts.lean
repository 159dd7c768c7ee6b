/-
What acts do to a machine.

Most acts of the library look at the query and leave it alone; what they
change is the database, and that stays sound (`Act.Reads`). The others do
some work on the query, in the sense of `Works`, and leave it sound
(`Act.Runs`). Both are told of how an act ends, with an answer or with a
failure, and compose along the binds of an act.
-/
import LogicMachine.Proofs.Compiling

namespace LogicMachine

/-- How much is taken for granted of a run. A `strict` one reads no bare
template variable; in a `tame` one, moreover, no thunk fails by saying that
a binding was lost. -/
structure Rigor where
  strict : Bool
  tame : Bool
  strict_of_tame : tame = true → strict = true

namespace Rigor

/-- Nothing is taken for granted. -/
def loose : Rigor := ⟨false, false, id⟩

/-- No bare variable is read, and no thunk fails by losing a binding. -/
def full : Rigor := ⟨true, true, id⟩

end Rigor

/-- Forcing a thunk leaves the query alone, keeps the database sound and
answers a term that mentions nothing. -/
structure Env.Sound (tame : Bool) (env : Env) : Prop where
  ok : ∀ {id : Nat} {m m' : Machine} {t : Term}, m.db.Sound → env.force id m = .ok t m' →
    m'.query = m.query ∧ m'.db.Sound ∧ t.Fits .none noVars
  error : ∀ {id : Nat} {m m' : Machine} {e : Failure}, m.db.Sound → env.force id m = .error e m' →
    m'.query = m.query ∧ m'.db.Sound ∧ e.Fits tame

namespace Act

variable {α β : Type} {μ : Rigor}

-- ================================================== running an act

section

variable (env : Env) (m : Machine)

theorem bind_apply (act : Act α) (next : α → Act β) :
    (act >>= next) env m = match act env m with
      | .ok a m' => next a env m'
      | .error e m' => .error e m' := by
  show EStateM.bind (act env) (fun a => next a env) m = _
  unfold EStateM.bind
  cases act env m <;> rfl

variable {env m} in
/-- An act that does one thing and then another has done both. -/
theorem bind_ok {act : Act α} {next : α → Act β} {m' : Machine} {b : β}
    (h : (act >>= next) env m = .ok b m') :
    ∃ a m₁, act env m = .ok a m₁ ∧ next a env m₁ = .ok b m' := by
  rw [bind_apply] at h
  cases hact : act env m with
  | ok a m₁ => exact ⟨a, m₁, rfl, by rwa [hact] at h⟩
  | error e m₁ =>
    rw [hact] at h
    cases h

theorem get_apply : (get : Act Machine) env m = .ok m m := rfl

theorem modifyGet_apply (f : Machine → α × Machine) :
    (modifyGet f : Act α) env m = .ok (f m).1 (f m).2 := rfl

theorem modifyQuery_apply (change : Query → Query) :
    modifyQuery change env m = .ok ⟨⟩ ⟨m.db, change m.query⟩ := rfl

theorem frames_apply : frames env m = .ok m.query.frames m := rfl

theorem steps_apply : steps env m = .ok env.steps m := rfl

variable {env m} in
/-- A term that no thunk stands in the place of is stripped by following its
bindings. -/
theorem strip_apply_of_ne_thunk {t : Term} (ht : ∀ id, m.query.frames.resolve t ≠ .thunk id)
    (hsteps : 0 < env.steps) : strip t env m = .ok (m.query.frames.resolve t) m := by
  obtain ⟨k, hk⟩ := Nat.exists_eq_succ_of_ne_zero hsteps.ne'
  simp only [strip, resolve, bind_apply, steps_apply, frames_apply, hk]
  show stripWithin (k + 1) (m.query.frames.resolve t) env m = _
  cases hr : m.query.frames.resolve t with
  | thunk id => exact absurd hr (ht id)
  | _ => rfl

theorem attempt_apply (act : Act α) :
    attempt act env m = match act env m with
      | .ok a m' => .ok (.ok a) m'
      | .error e m' => .ok (.error e) m' := by
  unfold attempt
  cases act env m <;> rfl

end

-- ================================================== acts that look

/-- How an act may end that leaves the query alone. -/
def Looked (tame : Bool) (q : Query) (post : α → Prop) : EStateM.Result Failure Machine α → Prop
  | .ok a m => m.query = q ∧ m.db.Sound ∧ post a
  | .error e m => m.query = q ∧ m.db.Sound ∧ e.Fits tame

/-- The act leaves the query alone, and what it answers is as said. -/
structure Reads (μ : Rigor) (q : Query) (act : Act α) (post : α → Prop) : Prop where
  ends : ∀ (env : Env) (db : Database), env.Sound μ.tame → db.Sound →
    Looked μ.tame q post (act env ⟨db, q⟩)

namespace Reads

variable {q : Query} {act : Act α} {post : α → Prop} {post' : β → Prop}

theorem pure {a : α} (h : post a) : Reads μ q (pure a : Act α) post :=
  ⟨fun _ _ _ hdb => ⟨rfl, hdb, h⟩⟩

theorem throw {e : Failure} (h : e.Fits μ.tame) : Reads μ q (throw e : Act α) post :=
  ⟨fun _ _ _ hdb => ⟨rfl, hdb, h⟩⟩

theorem bind {next : α → Act β} (h : Reads μ q act post)
    (hn : ∀ a, post a → Reads μ q (next a) post') : Reads μ q (act >>= next) post' := by
  refine ⟨fun env db henv hdb => ?_⟩
  have hw := h.ends env db henv hdb
  show Looked μ.tame q post' (EStateM.bind (act env) (fun a => next a env) ⟨db, q⟩)
  unfold EStateM.bind
  split
  · rename_i a m hok
    rw [hok] at hw
    obtain ⟨hq, hdb', ha⟩ := hw
    obtain ⟨db', q'⟩ := m
    cases hq
    exact (hn a ha).ends env db' henv hdb'
  · rename_i herr
    rw [herr] at hw
    exact hw

/-- Nothing comes after a failure. -/
theorem throw_bind {e : Failure} {next : α → Act β} (h : e.Fits μ.tame) :
    Reads μ q (MonadExcept.throw e >>= next) post' := by
  have hthrow : Reads μ q (MonadExcept.throw e : Act α) fun _ => False := .throw h
  exact hthrow.bind fun _ hf => hf.elim

theorem mono {post' : α → Prop} (h : Reads μ q act post) (hp : ∀ a, post a → post' a) :
    Reads μ q act post' := by
  refine ⟨fun env db henv hdb => ?_⟩
  have hw := h.ends env db henv hdb
  cases hr : act env ⟨db, q⟩ with
  | ok a m =>
    rw [hr] at hw
    exact ⟨hw.1, hw.2.1, hp a hw.2.2⟩
  | error e m =>
    rw [hr] at hw
    exact hw

theorem get_bind {next : Machine → Act β}
    (hn : ∀ db : Database, db.Sound → Reads μ q (next ⟨db, q⟩) post') :
    Reads μ q (get >>= next) post' :=
  ⟨fun env db henv hdb => (hn db hdb).ends env db henv hdb⟩

theorem read_bind {next : Env → Act β}
    (hn : ∀ env : Env, env.Sound μ.tame → Reads μ q (next env) post') :
    Reads μ q (read >>= next) post' :=
  ⟨fun env db henv hdb => (hn env henv).ends env db henv hdb⟩

theorem store {work : Store α} (h : work.Keeps post) : Reads μ q (Act.store work) post := by
  refine ⟨fun env db _ hdb => ?_⟩
  have hw := h.ends db hdb
  unfold Act.store
  dsimp only
  cases hr : work db with
  | ok a db' =>
    rw [hr] at hw
    exact ⟨rfl, hw.1, hw.2⟩
  | error e db' =>
    rw [hr] at hw
    exact ⟨rfl, hw.1, hw.2.weaken⟩

theorem force {env : Env} (henv : env.Sound μ.tame) (id : Nat) :
    Reads μ q (liftM (env.force id) : Act Term) (·.Fits .none noVars) := by
  refine ⟨fun _ db _ hdb => ?_⟩
  show Looked μ.tame q _ (env.force id ⟨db, q⟩)
  cases hr : env.force id ⟨db, q⟩ with
  | ok t m => exact henv.ok hdb hr
  | error e m => exact henv.error hdb hr

theorem checked {r : Except Failure α} (ha : ∀ a, r = .ok a → post a)
    (he : ∀ e, r = .error e → e.Fits μ.tame) : Reads μ q (Act.checked r) post := by
  cases r with
  | ok a => exact .pure (ha a rfl)
  | error e => exact .throw (he e rfl)

theorem attempt (h : Reads μ q act post) :
    Reads μ q (Act.attempt act)
      fun r => (∀ a, r = .ok a → post a) ∧ ∀ e, r = .error e → e.Fits μ.tame := by
  refine ⟨fun env db henv hdb => ?_⟩
  have hw := h.ends env db henv hdb
  unfold Act.attempt
  cases hr : act env ⟨db, q⟩ with
  | ok a m =>
    rw [hr] at hw
    exact ⟨hw.1, hw.2.1, fun b hb => by cases hb; exact hw.2.2, fun e he => (nomatch he)⟩
  | error e m =>
    rw [hr] at hw
    exact ⟨hw.1, hw.2.1, fun b hb => (nomatch hb), fun e' he => by cases he; exact hw.2.2⟩

theorem mapM {γ : Type} {f : γ → Act α} {items : List γ}
    (h : ∀ i ∈ items, Reads μ q (f i) post) :
    Reads μ q (items.mapM f) fun as => ∀ a ∈ as, post a := by
  induction items with
  | nil => exact .pure fun _ ha => absurd ha List.not_mem_nil
  | cons i items ih =>
    rw [List.mapM_cons]
    refine (h i List.mem_cons_self).bind fun a ha =>
      (ih fun j hj => h j (List.mem_cons_of_mem _ hj)).bind fun as has => .pure fun b hb => ?_
    rcases List.mem_cons.1 hb with rfl | hb
    · exact ha
    · exact has b hb

end Reads

theorem reads_frames (q : Query) : Reads μ q frames (· = q.frames) :=
  .get_bind fun _ _ => .pure rfl

theorem reads_callee (q : Query) : Reads μ q callee (· = q.callee) :=
  .get_bind fun _ _ => .pure rfl

theorem reads_steps (q : Query) : Reads μ q steps fun _ => True :=
  .read_bind fun _ _ => .pure trivial

theorem reads_lens (q : Query) : Reads μ q lens fun _ => True :=
  .get_bind fun _ _ => .pure trivial

-- ================================================== reading terms

section

variable {μ : Rigor} {q : Query}

theorem reads_resolve (hq : q.Sound μ.strict) {t : Term} (ht : t.Live (q.frames.world μ.strict)) :
    Reads μ q (resolve t) (·.Live (q.frames.world μ.strict)) :=
  (reads_frames q).bind fun _ hfs => .pure (hfs ▸ hq.arena.resolve_live ht)

/-- The value of a thunk mentions nothing, so it can be read anywhere. -/
theorem live_of_detached {w : World} {t : Term} (h : t.Fits .none noVars) : t.Live w :=
  h.of_none fun _ hi => hi.elim

theorem reads_stripWithin (hq : q.Sound μ.strict) (steps : Nat) {t : Term}
    (ht : t.Live (q.frames.world μ.strict)) :
    Reads μ q (stripWithin steps t) (·.Live (q.frames.world μ.strict)) := by
  induction steps generalizing t with
  | zero => exact .throw fits_unfinished
  | succ steps ih =>
    unfold stripWithin
    split
    · exact .read_bind fun env henv => (Reads.force henv _).bind fun value hv =>
        (reads_resolve hq (live_of_detached hv)).bind fun _ hr => ih hr
    · exact .pure ht

theorem reads_strip (hq : q.Sound μ.strict) {t : Term} (ht : t.Live (q.frames.world μ.strict)) :
    Reads μ q (strip t) (·.Live (q.frames.world μ.strict)) :=
  (reads_steps q).bind fun _ _ => (reads_resolve hq ht).bind fun _ hr =>
    reads_stripWithin hq _ hr

theorem reads_listItemsWithin (hq : q.Sound μ.strict) {list : Term} {w : World} {vars : Nat → Prop}
    (hl : list.Fits w vars) (steps : Nat) {rest : Term} {items : List Term}
    (hr : rest.Live (q.frames.world μ.strict))
    (hi : ∀ i ∈ items, i.Live (q.frames.world μ.strict)) :
    Reads μ q (listItemsWithin list steps rest items)
      fun is => ∀ i ∈ is, i.Live (q.frames.world μ.strict) := by
  induction steps generalizing rest items with
  | zero => exact .throw fits_unfinished
  | succ steps ih =>
    unfold listItemsWithin
    split
    · split
      · exact .pure fun i hmem => hi i (List.mem_reverse.1 hmem)
      · exact .throw (fits_type hl)
    · exact .throw fits_instantiation
    · exact .throw fits_instantiation
    · split
      · rename_i hs
        obtain ⟨hh, ht⟩ := hr.split hs
        refine (reads_strip hq ht).bind fun _ ht' => ih ht' fun i hmem => ?_
        rcases List.mem_cons.1 hmem with rfl | hmem
        · exact hh
        · exact hi i hmem
      · exact .throw (fits_type hl)

/-- The items of a list can be read where the list can. -/
theorem reads_listItems (hq : q.Sound μ.strict) {list : Term}
    (hl : list.Live (q.frames.world μ.strict)) :
    Reads μ q (listItems list) fun is => ∀ i ∈ is, i.Live (q.frames.world μ.strict) :=
  (reads_steps q).bind fun _ _ => (reads_strip hq hl).bind fun _ hr =>
    reads_listItemsWithin hq hl _ hr fun _ hi => absurd hi List.not_mem_nil

theorem compareTops_live (fs : Frames) {w : World} {x y : Term} (hx : x.Live w) (hy : y.Live w) :
    ∀ e ∈ (compareTops fs x y).2, e.1.Live w ∧ e.2.Live w := by
  intro e he
  unfold compareTops at he
  repeat' split at he
  all_goals first
    | exact absurd he List.not_mem_nil
    | exact ⟨hx.args _ (List.of_mem_zip he).1, hy.args _ (List.of_mem_zip he).2⟩

theorem reads_compareWithin (hq : q.Sound μ.strict) (steps : Nat) {pairs : List (Term × Term)}
    (hp : ∀ e ∈ pairs, e.1.Live (q.frames.world μ.strict) ∧ e.2.Live (q.frames.world μ.strict)) :
    Reads μ q (compareWithin steps pairs) fun _ => True := by
  induction steps generalizing pairs with
  | zero => exact .throw fits_unfinished
  | succ steps ih =>
    cases pairs with
    | nil => exact .pure trivial
    | cons e rest =>
      obtain ⟨a, b⟩ := e
      obtain ⟨ha, hb⟩ := hp _ List.mem_cons_self
      refine (reads_strip hq ha).bind fun x hx => (reads_strip hq hb).bind fun y hy =>
        (reads_frames q).bind fun fs _ => ?_
      split
      · rename_i arguments heq
        refine ih fun e he => ?_
        rcases List.mem_append.1 he with he | he
        · have hlive := compareTops_live fs hx hy e
          rw [heq] at hlive
          exact hlive he
        · exact hp e (List.mem_cons_of_mem _ he)
      · exact .pure trivial

theorem reads_compareTerms (hq : q.Sound μ.strict) {a b : Term}
    (ha : a.Live (q.frames.world μ.strict)) (hb : b.Live (q.frames.world μ.strict)) :
    Reads μ q (compareTerms a b) fun _ => True :=
  (reads_steps q).bind fun _ _ => reads_compareWithin hq _ fun e he => by
    rw [List.mem_singleton.1 he]
    exact ⟨ha, hb⟩

-- ================================================== making terms

theorem reads_list {w : World} {vars : Nat → Prop} {items : List Term}
    (h : ∀ i ∈ items, i.Fits w vars) : Reads μ q (list items) (·.Fits w vars) :=
  .store (Database.keeps_listOf h Term.fits_atom)

theorem reads_term {w : World} {vars : Nat → Prop} {name : String} {args : List Term}
    (h : ∀ a ∈ args, a.Fits w vars) :
    Reads μ q (Database.term name args : Act Term) (·.Fits w vars) :=
  .store (Database.keeps_term h)

theorem reads_detachAll (hq : q.Sound μ.strict) {ts : List Term}
    (hts : ∀ t ∈ ts, t.Fits .all anyVars) :
    Reads μ q (detachAll ts) fun cs => ∀ c ∈ cs, c.Fits .none anyVars := by
  refine ⟨fun env db _ hdb => ?_⟩
  have hcopy := hq.arena.copyAll hq.within hts (Frames.fits_start 0 db.nextTerm)
  exact ⟨rfl, { hdb with }, fun c hc =>
    (hcopy.copies c hc).mono (.refl _) fun _ _ => trivial⟩

end

-- ================================================== acts that work

/-- How an act may end: the query is as said, and the database sound. -/
def Left (tame : Bool) (post : α → Query → Prop) (fails : Query → Prop) :
    EStateM.Result Failure Machine α → Prop
  | .ok a m => m.db.Sound ∧ post a m.query
  | .error e m => m.db.Sound ∧ fails m.query ∧ e.Fits tame

/-- What is said of the query after the act, with an answer or without. -/
structure Does (μ : Rigor) (q : Query) (act : Act α) (post : α → Query → Prop)
    (fails : Query → Prop) : Prop where
  ends : ∀ (env : Env) (db : Database), env.Sound μ.tame → db.Sound →
    Left μ.tame post fails (act env ⟨db, q⟩)

namespace Does

variable {q : Query} {act : Act α} {post : α → Query → Prop} {post' : β → Query → Prop}
  {fails : Query → Prop}

theorem pure {a : α} (h : post a q) : Does μ q (pure a : Act α) post fails :=
  ⟨fun _ _ _ hdb => ⟨hdb, h⟩⟩

theorem throw {e : Failure} (he : e.Fits μ.tame) (h : fails q) :
    Does μ q (throw e : Act α) post fails :=
  ⟨fun _ _ _ hdb => ⟨hdb, h, he⟩⟩

theorem bind {next : α → Act β} (h : Does μ q act post fails)
    (hn : ∀ a q', post a q' → Does μ q' (next a) post' fails) :
    Does μ q (act >>= next) post' fails := by
  refine ⟨fun env db henv hdb => ?_⟩
  have hw := h.ends env db henv hdb
  show Left μ.tame post' fails (EStateM.bind (act env) (fun a => next a env) ⟨db, q⟩)
  unfold EStateM.bind
  split
  · rename_i a m hok
    rw [hok] at hw
    exact (hn a m.query hw.2).ends env m.db henv hw.1
  · rename_i herr
    rw [herr] at hw
    exact hw

theorem mono {post' : α → Query → Prop} {fails' : Query → Prop} (h : Does μ q act post fails)
    (hp : ∀ a q', post a q' → post' a q') (hf : ∀ q', fails q' → fails' q') :
    Does μ q act post' fails' := by
  refine ⟨fun env db henv hdb => ?_⟩
  have hw := h.ends env db henv hdb
  cases hr : act env ⟨db, q⟩ with
  | ok a m =>
    rw [hr] at hw
    exact ⟨hw.1, hp a _ hw.2⟩
  | error e m =>
    rw [hr] at hw
    exact ⟨hw.1, hf _ hw.2.1, hw.2.2⟩

theorem get_bind {next : Machine → Act β}
    (hn : ∀ db : Database, db.Sound → Does μ q (next ⟨db, q⟩) post' fails) :
    Does μ q (get >>= next) post' fails :=
  ⟨fun env db henv hdb => (hn db hdb).ends env db henv hdb⟩

theorem read_bind {next : Env → Act β}
    (hn : ∀ env : Env, env.Sound μ.tame → Does μ q (next env) post' fails) :
    Does μ q (read >>= next) post' fails :=
  ⟨fun env db henv hdb => (hn env henv).ends env db henv hdb⟩

/-- Nothing comes after a failure. -/
theorem throw_bind {e : Failure} {next : α → Act β} (he : e.Fits μ.tame) (h : fails q) :
    Does μ q (MonadExcept.throw e >>= next) post' fails := by
  have hthrow : Does μ q (MonadExcept.throw e : Act α) (fun _ _ => False) fails := .throw he h
  exact hthrow.bind fun _ _ hf => hf.elim

theorem modifyQuery {change : Query → Query} {post : Unit → Query → Prop}
    (h : post () (change q)) : Does μ q (Act.modifyQuery change) post fails :=
  ⟨fun _ _ _ hdb => ⟨hdb, h⟩⟩

theorem modifyQuery_bind {change : Query → Query} {next : Unit → Act β}
    (h : Does μ (change q) (next ⟨⟩) post' fails) :
    Does μ q (Act.modifyQuery change >>= next) post' fails :=
  ⟨fun env db henv hdb => h.ends env db henv hdb⟩

theorem attempt (h : Does μ q act post fails) :
    Does μ q (Act.attempt act) (fun r q' => (∀ a, r = .ok a → post a q')
      ∧ ∀ e, r = .error e → fails q' ∧ e.Fits μ.tame) fun _ => False := by
  refine ⟨fun env db henv hdb => ?_⟩
  have hw := h.ends env db henv hdb
  unfold Act.attempt
  cases hr : act env ⟨db, q⟩ with
  | ok a m =>
    rw [hr] at hw
    exact ⟨hw.1, fun b hb => by cases hb; exact hw.2, fun e he => (nomatch he)⟩
  | error e m =>
    rw [hr] at hw
    exact ⟨hw.1, fun b hb => (nomatch hb), fun e' he => by cases he; exact hw.2⟩

/-- An act that looks, then one that works. -/
theorem read {next : α → Act β} {look : α → Prop} (h : Reads μ q act look)
    (hf : fails q) (hn : ∀ a, look a → Does μ q (next a) post' fails) :
    Does μ q (act >>= next) post' fails := by
  refine ⟨fun env db henv hdb => ?_⟩
  have hw := h.ends env db henv hdb
  show Left μ.tame post' fails (EStateM.bind (act env) (fun a => next a env) ⟨db, q⟩)
  unfold EStateM.bind
  split
  · rename_i a m hok
    rw [hok] at hw
    obtain ⟨hq, hdb', ha⟩ := hw
    obtain ⟨db', q'⟩ := m
    cases hq
    exact (hn a ha).ends env db' henv hdb'
  · rename_i e m herr
    rw [herr] at hw
    exact ⟨hw.2.1, hw.1.symm ▸ hf, hw.2.2⟩

end Does

theorem Reads.does {q : Query} {act : Act α} {post : α → Prop} (h : Reads μ q act post) :
    Does μ q act (fun a q' => q' = q ∧ post a) (· = q) := by
  refine ⟨fun env db henv hdb => ?_⟩
  have hw := h.ends env db henv hdb
  cases hr : act env ⟨db, q⟩ with
  | ok a m =>
    rw [hr] at hw
    exact ⟨hw.2.1, hw.1, hw.2.2⟩
  | error e m =>
    rw [hr] at hw
    exact ⟨hw.2.1, hw.1, hw.2.2⟩

/-- An act that leaves the query as it was has only looked. -/
theorem Reads.of_does {q : Query} {act : Act α} {post : α → Prop}
    (h : Does μ q act (fun a q' => q' = q ∧ post a) (· = q)) : Reads μ q act post := by
  refine ⟨fun env db henv hdb => ?_⟩
  have hw := h.ends env db henv hdb
  cases hr : act env ⟨db, q⟩ with
  | ok a m =>
    rw [hr] at hw
    exact ⟨hw.2.1, hw.1, hw.2.2⟩
  | error e m =>
    rw [hr] at hw
    exact ⟨hw.2.1, hw.1, hw.2.2⟩

section

variable {q : Query} {t : Term}

/-- A copy mentions nothing but variables. -/
theorem does_detach (hq : q.Sound μ.strict) (ht : t.Fits .all anyVars) {fails : Query → Prop} :
    Does μ q (detach t) (fun copy q' => q' = q ∧ copy.Fits .none anyVars) fails := by
  refine ⟨fun env db _ hdb => ?_⟩
  have hcopy := hq.arena.copy hq.within ht (Frames.fits_start 0 db.nextTerm)
  exact ⟨{ hdb with }, rfl, hcopy.copy.mono (.refl _) fun _ _ => trivial⟩

theorem reads_detach (hq : q.Sound μ.strict) (ht : t.Fits .all anyVars) :
    Reads μ q (detach t) (·.Fits .none anyVars) :=
  .of_does (does_detach hq ht)

end

-- ================================================== work on a query

/-- The query after some work, sound as before. -/
structure Effect (strict : Bool) (q q' : Query) : Prop where
  works : Works strict q q'
  sound : q'.Sound strict

/-- Work that leaves no choice point. -/
structure Touches (strict : Bool) (q q' : Query) : Prop extends Effect strict q q' where
  points : SamePoints q.choices.points q'.choices.points
  serial : q'.choices.serial = q.choices.serial

section

variable {strict : Bool} {q q' q'' : Query}

theorem Effect.refl (h : q.Sound strict) : Effect strict q q := ⟨.refl, h⟩

theorem Effect.trans (h : Effect strict q q') (h' : Effect strict q' q'') : Effect strict q q'' :=
  ⟨h.works.trans h'.works, h'.sound⟩

theorem Effect.world_le (h : Effect strict q q') :
    (q.frames.world strict).Le (q'.frames.world strict) :=
  h.works.steady.1.world_le

theorem Effect.live (h : Effect strict q q') {t : Term} (ht : t.Live (q.frames.world strict)) :
    t.Live (q'.frames.world strict) :=
  ht.mono h.world_le fun _ hr => hr

theorem Touches.refl (h : q.Sound strict) : Touches strict q q := ⟨.refl h, .refl _, rfl⟩

theorem Touches.of_eq (h : q.Sound strict) (he : q' = q) : Touches strict q q' := by
  subst he
  exact .refl h

theorem Touches.trans (h : Touches strict q q') (h' : Touches strict q' q'') :
    Touches strict q q'' :=
  ⟨h.toEffect.trans h'.toEffect, h.points.trans h'.points, h'.serial.trans h.serial⟩

/-- Bindings that are in order touch the query. -/
theorem touches_bind (h : q.Sound strict) {cells : List Cell} {fs : Frames}
    (hb : Frames.Binds cells q.frames fs) (hu : strict = true → q.frames.Unbound cells)
    (hs : fs.Sound strict) (hblank : fs.Blank) :
    Touches strict q { q with frames := fs, choices := q.choices.recordAll fs cells } :=
  ⟨⟨.single (.bind cells hb hu), h.bind hb hu hs hblank⟩, ChoiceStack.samePoints_recordAll ..,
    ChoiceStack.serial_recordAll ..⟩

theorem touches_grow (h : q.Sound strict) (id : FrameId) (count : Nat) :
    Touches strict q { q with frames := (q.frames.expand id count).1 } :=
  ⟨⟨.single (.grow id count), h.grow id count⟩, .refl _, rfl⟩

end

/-- The act touches the query, and what it answers is as said. -/
abbrev Tries (μ : Rigor) (q : Query) (act : Act α) (post : α → Query → Prop) : Prop :=
  Does μ q act (fun a q' => Touches μ.strict q q' ∧ post a q') (Touches μ.strict q)

namespace Tries

variable {μ : Rigor} {q : Query} {act : Act α} {post : α → Query → Prop}
  {post' : β → Query → Prop}

theorem bind {next : α → Act β} (h : Tries μ q act post)
    (hn : ∀ a q', Touches μ.strict q q' → post a q' → Tries μ q' (next a) post') :
    Tries μ q (act >>= next) post' :=
  Does.bind h fun a q' ⟨ht, ha⟩ => (hn a q' ht ha).mono
    (fun _ _ hb => ⟨ht.trans hb.1, hb.2⟩) fun _ hf => ht.trans hf

theorem of_reads {look : α → Prop} (hq : q.Sound μ.strict) (h : Reads μ q act look)
    (hp : ∀ a, look a → post a q) : Tries μ q act post := by
  refine h.does.mono (fun a q' hr => ?_) fun q' hf => ?_
  · obtain ⟨rfl, ha⟩ := hr
    exact ⟨.refl hq, hp a ha⟩
  · obtain rfl := hf
    exact .refl hq

/-- Looking first. -/
theorem read {next : α → Act β} {look : α → Prop} (hq : q.Sound μ.strict) (h : Reads μ q act look)
    (hn : ∀ a, look a → Tries μ q (next a) post') : Tries μ q (act >>= next) post' :=
  Does.read h (.refl hq) hn

theorem pure {a : α} (hq : q.Sound μ.strict) (h : post a q) : Tries μ q (pure a : Act α) post :=
  Does.pure ⟨.refl hq, h⟩

theorem throw {e : Failure} (hq : q.Sound μ.strict) (he : e.Fits μ.tame) :
    Tries μ q (throw e : Act α) post :=
  Does.throw he (.refl hq)

/-- Nothing comes after a failure. -/
theorem throw_bind {e : Failure} {next : α → Act β} (hq : q.Sound μ.strict) (he : e.Fits μ.tame) :
    Tries μ q (MonadExcept.throw e >>= next) post' :=
  Does.throw_bind he (.refl hq)

end Tries

/-- The act works on the query, and what it answers is as said. -/
abbrev Runs (μ : Rigor) (q : Query) (act : Act α) (post : α → Query → Prop) : Prop :=
  Does μ q act (fun a q' => Effect μ.strict q q' ∧ post a q') (Effect μ.strict q)

namespace Runs

variable {μ : Rigor} {q : Query} {act : Act α} {post : α → Query → Prop}
  {post' : β → Query → Prop}

theorem bind {next : α → Act β} (h : Runs μ q act post)
    (hn : ∀ a q', Effect μ.strict q q' → post a q' → Runs μ q' (next a) post') :
    Runs μ q (act >>= next) post' :=
  Does.bind h fun a q' ⟨he, ha⟩ => (hn a q' he ha).mono
    (fun _ _ hb => ⟨he.trans hb.1, hb.2⟩) fun _ hf => he.trans hf

theorem of_tries (h : Tries μ q act post) : Runs μ q act post :=
  h.mono (fun _ _ hb => ⟨hb.1.toEffect, hb.2⟩) fun _ hf => hf.toEffect

/-- Looking first. -/
theorem read {next : α → Act β} {look : α → Prop} (hq : q.Sound μ.strict) (h : Reads μ q act look)
    (hn : ∀ a, look a → Runs μ q (next a) post') : Runs μ q (act >>= next) post' :=
  Does.read h (.refl hq) hn

theorem pure {a : α} (hq : q.Sound μ.strict) (h : post a q) : Runs μ q (pure a : Act α) post :=
  Does.pure ⟨.refl hq, h⟩

theorem throw {e : Failure} (hq : q.Sound μ.strict) (he : e.Fits μ.tame) :
    Runs μ q (throw e : Act α) post :=
  Does.throw he (.refl hq)

end Runs

end Act

end LogicMachine
