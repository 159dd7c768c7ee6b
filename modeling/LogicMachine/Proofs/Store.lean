/-
Sound databases.

Whatever a database holds outlives every query, so it is free of frames:
clauses mention nothing but their own variables, flags and the goals of
thunks nothing but variables, and the values of thunks not even these. The
exception is the cache. A cached goal may mention the cells of the query
that it was compiled for; what can be said of its code is that it mentions
what its goal mentions, wherever that may be read.
-/
import LogicMachine.Proofs.Standing
import LogicMachine.Session

namespace LogicMachine

/-- No template variable is allowed. -/
def noVars : Nat → Prop := fun _ => False

/-- The ball of a failure is put together as terms are. A `tame` failure
does not say that a binding was lost. -/
def Failure.Fits (tame : Bool) : Failure → Prop
  | .thrown ball => ball.Fits .all anyVars
  | .fatal reason => tame = true → ∀ cell name, Failure.fatal reason ≠ Frames.lostCell cell name
  | .unfinished => True

/-- What a producer holds is free of frames. A thunk counts as an instance: a
compound with a thunk in it is read without a frame. So a value that is given
has to be an instance itself, without template variables, since there would be
no frame to read them in. A goal to be solved may have some; it gets a query of
its own, and its result is copied out of that. -/
def Producer.Sound : Producer → Prop
  | .given value => value.Fits .none noVars
  | .failing failure => failure.Fits false
  | .solving goal => goal.Fits .none anyVars

/-- What holds of a database at all times. -/
structure Database.Sound (db : Database) : Prop where
  rows : ∀ t ∈ db.tables, ∀ row ∈ t.rows, row.procedure.Fits .none
  cache : ∀ e ∈ db.cache, e.1.Fits .all anyVars
    ∧ ∀ w vars, e.1.Fits w vars → e.2.code.Fits w vars
  flags : ∀ e ∈ db.flags, e.2.Fits .none anyVars
  thunks : ∀ t ∈ db.thunks, t.producer.Sound ∧ ∀ v, t.value = some v → v.Fits .none noVars

-- ================================================== failures that fit

section

variable {w : World} {vars : Nat → Prop} {name : String} {args : List Term} {t : Term}
  {tame : Bool}

theorem fits_ball (h : ∀ a ∈ args, a.Fits .all anyVars) : (Failure.ball name args).Fits tame :=
  Term.fits_build h

theorem fits_failure_of_term (h : t.Fits w vars) {kind : String} :
    (Failure.ball kind [.atom name, t]).Fits tame := by
  refine fits_ball fun a ha => ?_
  simp only [List.mem_cons, List.not_mem_nil, or_false] at ha
  rcases ha with rfl | rfl
  · exact Term.fits_atom
  · exact h.wellMade

@[simp] theorem fits_instantiation : Failure.instantiation.Fits tame :=
  fits_ball fun _ ha => absurd ha List.not_mem_nil

theorem fits_type (h : t.Fits w vars) : (Failure.type name t).Fits tame :=
  fits_failure_of_term h

theorem fits_domain (h : t.Fits w vars) : (Failure.domain name t).Fits tame :=
  fits_failure_of_term h

theorem fits_existence (h : t.Fits w vars) : (Failure.existence name t).Fits tame :=
  fits_failure_of_term h

theorem fits_io {stream : String} : (Failure.io name (.atom stream)).Fits tame :=
  fits_ball (by simp)

@[simp] theorem fits_atomBall {kind : String} : (Failure.ball kind [.atom name]).Fits tame :=
  fits_ball (by simp)

@[simp] theorem fits_permission {action kind : String} :
    (Failure.permission action kind (.atom name)).Fits tame :=
  fits_ball (by simp)

/-- That a binding was lost begins with the word "binding". -/
theorem fits_fatal {reason : String} (h : reason.toList.head? ≠ some 'b') :
    (Failure.fatal reason).Fits tame := by
  rintro - cell name he
  cases he
  simp [String.toList_append] at h

@[simp] theorem fits_unfinished : Failure.unfinished.Fits tame := trivial

/-- A failure that is tame fits in any case. -/
theorem Failure.Fits.weaken {e : Failure} (h : e.Fits true) : e.Fits tame := by
  cases e with
  | fatal reason => exact fun _ => h rfl
  | _ => exact h

theorem Failure.Fits.relax {e : Failure} (h : e.Fits tame) : e.Fits false := by
  cases e with
  | fatal reason => exact fun hf => nomatch hf
  | _ => exact h

end

-- ================================================== store computations

/-- How a computation may end that keeps a database sound. -/
def Database.Ends {α : Type} (post : α → Prop) : EStateM.Result Failure Database α → Prop
  | .ok a db => db.Sound ∧ post a
  | .error e db => db.Sound ∧ e.Fits true

/-- From a sound database the computation leads to a sound one, and what
it answers is as said. -/
structure Store.Keeps {α : Type} (work : Store α) (post : α → Prop) : Prop where
  ends : ∀ db : Database, db.Sound → Database.Ends post (work db)

namespace Store.Keeps

variable {α β : Type} {work : Store α} {post : α → Prop}

theorem pure {a : α} (h : post a) : Store.Keeps (pure a : Store α) post := ⟨fun _ hdb => ⟨hdb, h⟩⟩

theorem throw {e : Failure} (h : e.Fits true) : Store.Keeps (throw e : Store α) post :=
  ⟨fun _ hdb => ⟨hdb, h⟩⟩

theorem bind {next : α → Store β} {post' : β → Prop} (h : work.Keeps post)
    (hn : ∀ a, post a → Store.Keeps (next a) post') : Store.Keeps (work >>= next) post' := by
  refine ⟨fun db hdb => ?_⟩
  have hw := h.ends db hdb
  show Database.Ends post' (EStateM.bind work next db)
  unfold EStateM.bind
  split
  · rename_i hok
    rw [hok] at hw
    exact (hn _ hw.2).ends _ hw.1
  · rename_i herr
    rw [herr] at hw
    exact hw

/-- What the first answers does not matter. -/
theorem seq {next : α → Store β} {post' : β → Prop} (h : work.Keeps fun _ => True)
    (hn : ∀ a, Store.Keeps (next a) post') : Store.Keeps (work >>= next) post' :=
  h.bind fun a _ => hn a

theorem mono {post' : α → Prop} (h : work.Keeps post) (hp : ∀ a, post a → post' a) :
    work.Keeps post' := by
  refine ⟨fun db hdb => ?_⟩
  have hw := h.ends db hdb
  cases hr : work db with
  | ok a db' =>
    rw [hr] at hw
    exact ⟨hw.1, hp a hw.2⟩
  | error e db' =>
    rw [hr] at hw
    exact hw

/-- What a computation answers in any case, and under each of some
conditions. -/
theorem all {ι : Type} {cond : ι → Prop} {posts : ι → α → Prop} (h : work.Keeps post)
    (hs : ∀ i, cond i → work.Keeps (posts i)) :
    work.Keeps fun a => ∀ i, cond i → posts i a := by
  refine ⟨fun db hdb => ?_⟩
  have hw := h.ends db hdb
  cases hr : work db with
  | ok a db' =>
    rw [hr] at hw
    refine ⟨hw.1, fun i hi => ?_⟩
    have hi := (hs i hi).ends db hdb
    rw [hr] at hi
    exact hi.2
  | error e db' =>
    rw [hr] at hw
    exact hw

theorem get_bind {next : Database → Store β} {post' : β → Prop}
    (hn : ∀ db : Database, db.Sound → Store.Keeps (next db) post') :
    Store.Keeps (get >>= next) post' := ⟨fun db hdb => (hn db hdb).ends db hdb⟩

theorem modifyGet {f : Database → α × Database}
    (h : ∀ db : Database, db.Sound → (f db).2.Sound ∧ post (f db).1) :
    Store.Keeps (modifyGet f : Store α) post := ⟨fun db hdb => h db hdb⟩

theorem modify {f : Database → Database} {post : PUnit → Prop} (hp : post ⟨⟩)
    (h : ∀ db : Database, db.Sound → (f db).Sound) : Store.Keeps (modify f : Store PUnit) post :=
  ⟨fun db hdb => ⟨h db hdb, hp⟩⟩

end Store.Keeps

namespace Database

-- ================================================== what changes nothing of this

theorem keeps_freshTerm : Store.Keeps freshTerm fun _ => True :=
  .modifyGet fun _ hdb => ⟨{ hdb with }, trivial⟩

theorem keeps_freshClause : Store.Keeps freshClause fun _ => True :=
  .modifyGet fun _ hdb => ⟨{ hdb with }, trivial⟩

theorem keeps_freshRow : Store.Keeps freshRow fun _ => True :=
  .modifyGet fun _ hdb => ⟨{ hdb with }, trivial⟩

theorem keeps_note (n : Note) : Store.Keeps (note n) fun _ => True :=
  .modify trivial fun _ hdb => { hdb with }

theorem keeps_notify (change : Change) : Store.Keeps (notify change) fun _ => True :=
  .modify trivial fun _ hdb => { hdb with }

theorem keeps_random : Store.Keeps random fun _ => True :=
  .seq (.modifyGet fun _ hdb => ⟨{ hdb with }, trivial⟩) fun _ => .pure trivial

theorem keeps_write (text : String) : Store.Keeps (write text) fun _ => True := by
  refine .get_bind fun db _ => ?_
  split
  · exact .seq (.throw fits_io) fun _ => .modify trivial fun _ hdb => { hdb with }
  · exact .modify trivial fun _ hdb => { hdb with }

theorem fits_of_define_error {ops : Operators} {priority : Int64} {kind : OperatorType} {name : String}
    {e : Failure} (h : ops.define priority kind name = .error e) : e.Fits true := by
  unfold Operators.define at h
  split at h
  · cases h
    exact fits_domain (w := .all) (Term.fits_int : Term.Fits .all anyVars _)
  · split at h
    · cases h
      exact fits_permission
    · dsimp only at h
      split at h
      · cases h
        exact fits_permission
      · cases h

theorem keeps_defineOperator (priority : Int64) (kind : OperatorType) (name : String) :
    Store.Keeps (defineOperator priority kind name) fun _ => True := by
  refine .get_bind fun db _ => ?_
  split
  · exact .modify trivial fun _ hdb => { hdb with }
  · rename_i he
    exact .throw (fits_of_define_error he)

-- ================================================== making terms

section

variable {w : World} {vars : Nat → Prop}

theorem keeps_term {name : String} {args : List Term} (h : ∀ a ∈ args, a.Fits w vars) :
    Store.Keeps (term name args) (·.Fits w vars) :=
  .bind keeps_freshTerm fun _ _ => .pure (Term.fits_build h)

theorem keeps_listOf {items : List Term} {tail : Term} (h : ∀ i ∈ items, i.Fits w vars)
    (ht : tail.Fits w vars) : Store.Keeps (listOf items tail) (·.Fits w vars) := by
  refine .modifyGet fun db hdb => ⟨{ hdb with }, ?_⟩
  show Term.Fits w vars (items.foldr (fun item (r : Term × Nat) =>
    (Term.build r.2 Term.dot [item, r.1], r.2 + 1)) (tail, db.nextTerm)).1
  induction items with
  | nil => exact ht
  | cons i items ih =>
    rw [List.foldr_cons]
    dsimp only
    refine Term.fits_build fun a ha => ?_
    simp only [List.mem_cons, List.not_mem_nil, or_false] at ha
    rcases ha with rfl | rfl
    · exact h _ List.mem_cons_self
    · exact ih fun j hj => h j (List.mem_cons_of_mem _ hj)

end

-- ================================================== thunks

theorem keeps_newThunk {producer : Producer} (h : producer.Sound) :
    Store.Keeps (newThunk producer) (·.Fits .none noVars) := by
  refine .modifyGet fun db hdb => ⟨{ hdb with thunks := fun t ht => ?_ }, Term.fits_thunk⟩
  rcases Array.mem_push.1 ht with ht | rfl
  · exact hdb.thunks t ht
  · exact ⟨h, fun v hv => (nomatch hv)⟩

theorem Sound.forced {db : Database} (h : db.Sound) {id : Nat} {v : Term}
    (hv : db.forced id = some v) : v.Fits .none noVars := by
  unfold Database.forced at hv
  split at hv
  · rename_i t ht
    exact (h.thunks t (Array.mem_of_getElem? ht)).2 v hv
  · cases hv

theorem keeps_settleThunk {id : Nat} {value : Term} (h : value.Fits .none noVars) :
    Store.Keeps (settleThunk id value) (·.Fits .none noVars) := by
  refine .modifyGet fun db hdb => ?_
  split
  · rename_i hkept
    exact ⟨hdb, hdb.forced hkept⟩
  · refine ⟨{ hdb with thunks := fun t ht => ?_ }, h⟩
    obtain ⟨i, hi⟩ := Array.mem_iff_getElem?.1 ht
    rw [Array.getElem?_modify] at hi
    split at hi
    · obtain ⟨t₀, ht₀, rfl⟩ := Option.map_eq_some_iff.1 hi
      refine ⟨(hdb.thunks t₀ (Array.mem_of_getElem? ht₀)).1, fun v hv => ?_⟩
      cases hv
      exact h
    · exact hdb.thunks t (Array.mem_of_getElem? hi)

-- ================================================== tables

/-- A change of one table that brings in no row that does not fit. -/
theorem Sound.modifyTable {db : Database} (h : db.Sound) (index : Nat) {change : Table → Table}
    (hc : ∀ t, (∀ row ∈ t.rows, row.procedure.Fits .none) →
      ∀ row ∈ (change t).rows, row.procedure.Fits .none) :
    Sound { db with tables := db.tables.modify index change } := by
  refine { h with rows := fun t ht => ?_ }
  obtain ⟨i, hi⟩ := Array.mem_iff_getElem?.1 ht
  rw [Array.getElem?_modify] at hi
  split at hi
  · obtain ⟨t₀, ht₀, rfl⟩ := Option.map_eq_some_iff.1 hi
    exact hc t₀ (h.rows t₀ (Array.mem_of_getElem? ht₀))
  · exact h.rows t (Array.mem_of_getElem? hi)

theorem keeps_tableFor (p : Predicate) : Store.Keeps (tableFor p) fun _ => True := by
  refine .get_bind fun db _ => ?_
  split
  · exact .pure trivial
  · refine .seq (.modifyGet fun db hdb => ⟨?_, trivial⟩) fun _ =>
      .seq (keeps_notify _) fun _ => .pure trivial
    refine { hdb with rows := fun t ht => ?_ }
    rcases Array.mem_push.1 ht with ht | rfl
    · exact hdb.rows t ht
    · exact fun row hrow => absurd hrow (Array.not_mem_empty row)

theorem keeps_insert (p : Predicate) {procedure : Procedure} (h : procedure.Fits .none)
    (position : Position) : Store.Keeps (insert p procedure position) fun _ => True := by
  refine .seq (keeps_tableFor p) fun index => .seq keeps_freshRow fun id =>
    .seq (.modify trivial fun db hdb => hdb.modifyTable index ?_) fun _ => keeps_notify _
  intro t ht row hrow
  cases position with
  | front =>
    rcases Array.mem_append.1 hrow with hrow | hrow
    · rw [Array.mem_singleton.1 hrow]
      exact h
    · exact ht row hrow
  | back =>
    rcases Array.mem_push.1 hrow with hrow | rfl
    · exact ht row hrow
    · exact h

theorem keeps_register (p : Option Predicate) {procedure : Procedure} (h : procedure.Fits .none) :
    Store.Keeps (register p procedure) fun _ => True := by
  cases p with
  | none => exact .throw (fits_fatal (by decide))
  | some p => exact keeps_insert p h .back

theorem keeps_remove (p : Predicate) (row : Nat) : Store.Keeps (remove p row) fun _ => True := by
  refine .get_bind fun db _ => ?_
  split
  · exact .pure trivial
  · rename_i index _
    split
    · exact .pure trivial
    · refine .seq (.modify trivial fun db hdb => hdb.modifyTable index ?_) fun _ =>
        .seq (keeps_notify _) fun _ => .pure trivial
      intro t ht row hrow
      rw [← Array.mem_toList_iff, Array.toList_eraseIdxIfInBounds] at hrow
      exact ht row (Array.mem_toList_iff.1 (List.mem_of_mem_eraseIdx hrow))

theorem keeps_abolish (p : Predicate) : Store.Keeps (abolish p) fun _ => True := by
  refine .get_bind fun db _ => ?_
  split
  · exact .pure trivial
  · rename_i index _
    refine .seq (.modify trivial fun db hdb => ?_) fun _ =>
      .seq (keeps_notify _) fun _ => .pure trivial
    have h : Sound { db with tables := db.tables.modify index fun t => { t with rows := #[] } } :=
      hdb.modifyTable index fun _ _ row hrow => absurd hrow (Array.not_mem_empty row)
    exact { h with cache := fun e he => absurd he List.not_mem_nil }

theorem Sound.rowsAt {db : Database} (h : db.Sound) {index : Nat} :
    ∀ row ∈ db.rowsAt index, row.procedure.Fits .none := by
  unfold Database.rowsAt
  split
  · rename_i t ht
    exact h.rows t (Array.mem_of_getElem? ht)
  · exact fun row hrow => absurd hrow (Array.not_mem_empty row)

theorem Sound.table? {db : Database} (h : db.Sound) {p : Predicate} {t : Table}
    (ht : db.table? p = some t) : ∀ row ∈ t.rows, row.procedure.Fits .none := by
  obtain ⟨i, -, hi⟩ := Option.bind_eq_some_iff.1 ht
  exact h.rows t (Array.mem_of_getElem? hi)

-- ================================================== flags

theorem keeps_setFlag {name : String} {value : Term} (h : value.Fits .none anyVars) :
    Store.Keeps (setFlag name value) fun _ => True := by
  unfold setFlag
  split
  · exact .bind (.throw fits_permission) fun _ (hf : False) => hf.elim
  · refine .modify trivial fun db hdb => { hdb with flags := fun e he => ?_ }
    dsimp only at he
    split at he
    · obtain ⟨⟨n, v⟩, hmem, rfl⟩ := List.mem_map.1 he
      dsimp only
      split
      · exact h
      · exact hdb.flags _ hmem
    · rcases List.mem_append.1 he with he | he
      · exact hdb.flags e he
      · rw [List.mem_singleton.1 he]
        exact h

end Database

end LogicMachine
