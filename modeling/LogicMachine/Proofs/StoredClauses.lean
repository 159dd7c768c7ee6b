/-
Stored clauses are faithful and independent copies.

What `assertz/1` and `asserta/1` add is a row whose clause stores the head and the
body that the term shows at that moment (`Clauses.addsWritten_of_assert`): the term
is copied out of its frames, and the copy is given slots. When `clause/2` or
`retract/1` come to the row they unify their pattern, which is what their arguments
have asked for (`Asked`), with a variant of these whose variables are slots made for
it (`Trial.exists_retold`). The row itself never changes: a number is given to one
row only, and whatever is seen of a row after a turn, in the tables or in what a goal
has on offer, was seen before or has a new number (`Turn.sees`).
-/
import LogicMachine.Proofs.Indexing
import LogicMachine.Proofs.UpdateView

namespace LogicMachine

-- ================================================== adding a row

namespace Database

/-- Tables are made, but no row joins or leaves one. -/
structure Opens (db db' : Database) : Prop where
  numbered : db'.Numbered
  rows : ∀ p, db'.rowsOf p = db.rowsOf p
  nextRow : db'.nextRow = db.nextRow

/-- A row with the next number joins the rows of the predicate at one end, and
nothing else joins or leaves a table. -/
structure Adds (db : Database) (position : Position) (p : Predicate) (row : Row)
    (db' : Database) : Prop where
  numbered : db'.Numbered
  id : row.id = db.nextRow
  rows : db'.rowsOf p = (Table.adding row position ⟨p, db.rowsOf p⟩).rows
  others : ∀ p', p' ≠ p → db'.rowsOf p' = db.rowsOf p'

variable {db db' db'' : Database} {p : Predicate} {procedure : Procedure} {position : Position}

theorem Opens.trans (h : db.Opens db') (h' : db'.Opens db'') : db.Opens db'' :=
  ⟨h'.numbered, fun p => (h'.rows p).trans (h.rows p), h'.nextRow.trans h.nextRow⟩

theorem Opens.adds {row : Row} (h : db.Opens db') (ha : db'.Adds position p row db'') :
    db.Adds position p row db'' := by
  refine ⟨ha.numbered, ha.id.trans h.nextRow, ?_, fun p' hp => (ha.others p' hp).trans (h.rows p')⟩
  rw [ha.rows, h.rows]

theorem Adds.mem {row : Row} (h : db.Adds position p row db') : row ∈ db'.rowsOf p := by
  rw [h.rows]
  cases position <;> simp [Table.adding]

/-- A table that is made has no rows. -/
theorem rowsOf_open (hn : db.Numbered) (h : db.find? p = none) (changes : Array Change)
    (p' : Predicate) : rowsOf { db with
      tables := db.tables.push { predicate := p }
      index := db.index.insert p db.tables.size
      changes := changes } p' = db.rowsOf p' := by
  have hfind : (db.index.insert p db.tables.size)[p']?
      = if p = p' then some db.tables.size else db.find? p' := by
    simp [find?, Std.HashMap.getElem?_insert]
  unfold rowsOf table?
  show ((((db.index.insert p db.tables.size)[p']?).bind
    fun j => (db.tables.push { predicate := p })[j]?).elim _ _) = _
  rw [hfind]
  split
  · rename_i hp
    subst hp
    rw [h, Option.bind_some, Array.getElem?_push_size]
    rfl
  · cases hj : db.find? p' with
    | none => rfl
    | some j =>
      obtain ⟨t, ht, -⟩ := (hn.place p' j).1 hj
      obtain ⟨hlt, rfl⟩ := Array.getElem?_eq_some_iff.1 ht
      rw [Option.bind_some, Option.bind_some, Array.getElem?_push_lt hlt, ht]

theorem tableFor_of_some {i : Nat} (h : db.find? p = some i) : tableFor p db = .ok i db := by
  simp only [tableFor, get, getThe, MonadStateOf.get, bind, EStateM.bind, EStateM.get, h]
  rfl

theorem tableFor_of_none (h : db.find? p = none) :
    tableFor p db = .ok db.tables.size { db with
      tables := db.tables.push { predicate := p }
      index := db.index.insert p db.tables.size
      changes := db.changes ++ Array.replicate db.listeners (.created p) } := by
  simp only [tableFor, get, getThe, MonadStateOf.get, bind, EStateM.bind, EStateM.get, h]
  rfl

theorem tableFor_ok (hn : db.Numbered) (p : Predicate) :
    ∃ i db', tableFor p db = .ok i db' ∧ db'.find? p = some i ∧ db.Opens db' := by
  have hnumbered := (evolves_tableFor p).ends db
  unfold Store.after at hnumbered
  cases hfind : db.find? p with
  | some i => exact ⟨i, db, tableFor_of_some hfind, hfind, hn, fun _ => rfl, rfl⟩
  | none =>
    rw [tableFor_of_none hfind] at hnumbered
    refine ⟨_, _, tableFor_of_none hfind, ?_, hnumbered.numbered hn, rowsOf_open hn hfind _, rfl⟩
    simp [find?]

/-- Compiling makes tables, and no rows. -/
theorem compilation_opens : Compilation fun db db' => db.Numbered → db.Opens db' where
  refl db hn := ⟨hn, fun _ => rfl, rfl⟩
  trans h h' hn := (h hn).trans (h' (h hn).numbered)
  table p db hn := by
    obtain ⟨i, db', hrun, -, hopens⟩ := tableFor_ok hn p
    unfold Store.after
    rw [hrun]
    exact hopens
  index t db hn := ⟨((evolves_indexTerm t).ends db).numbered hn, fun _ => rfl, rfl⟩
  clause db hn := ⟨(evolves_freshClause.ends db).numbered hn, fun _ => rfl, rfl⟩

/-- A table gets a row more. -/
theorem adds_adding (hn : db.Numbered) {i : Nat} (hi : db.find? p = some i) (procedure : Procedure)
    (position : Position) (changes : Array Change) :
    db.Adds position p ⟨db.nextRow, procedure⟩ { db with
      tables := db.tables.modify i (Table.adding ⟨db.nextRow, procedure⟩ position)
      nextRow := db.nextRow + 1
      changes := changes } := by
  have hnumbered := (evolves_adding db i procedure position).numbered hn
  have hothers : ∀ p', p' ≠ p → rowsOf { db with
      tables := db.tables.modify i (Table.adding ⟨db.nextRow, procedure⟩ position)
      changes := changes } p' = db.rowsOf p' := fun p' hp => rowsOf_modify hn hi _ hp
  obtain ⟨t, ht, rfl⟩ := (hn.place p i).1 hi
  refine ⟨⟨hnumbered.place, hnumbered.below, hnumbered.distinct⟩, rfl, ?_, hothers⟩
  have hat : (db.tables.modify i (Table.adding ⟨db.nextRow, procedure⟩ position))[i]?
      = some (Table.adding ⟨db.nextRow, procedure⟩ position t) := by
    rw [Array.getElem?_modify, if_pos rfl, ht]
    rfl
  rw [rowsOf_eq hi ht]
  exact rowsOf_eq hi hat

theorem adds_insert (hn : db.Numbered) {u : Unit} (h : insert p procedure position db = .ok u db') :
    db.Adds position p ⟨db.nextRow, procedure⟩ db' := by
  obtain ⟨i, db₁, htable, hi, hopens⟩ := tableFor_ok hn p
  obtain ⟨i', db₁', htable', h⟩ := Store.bind_ok h
  cases htable.symm.trans htable'
  cases h
  rw [← hopens.nextRow]
  exact hopens.adds (adds_adding hopens.numbered hi procedure position _)

/-- A clause that is added is compiled from the term and has a predicate. -/
theorem adds_addClause (hn : db.Numbered) {t : Term} {c : Clause}
    (h : addClause t position db = .ok c db') :
    (∃ db₁, Clause.compile t db = .ok c db₁) ∧ ∃ p, c.predicate = some p
      ∧ db.Adds position p ⟨db.nextRow, .clause c⟩ db' := by
  obtain ⟨c', db₁, hcompile, h⟩ := Store.bind_ok h
  have hopens := compilation_opens.compile t db hn
  unfold Store.after at hopens
  rw [hcompile] at hopens
  cases hp : c'.predicate with
  | none =>
    simp only [hp] at h
    cases h
  | some p =>
    simp only [hp] at h
    obtain ⟨u, db₂, hinsert, h⟩ := Store.bind_ok h
    cases h
    have hadds := adds_insert hopens.numbered hinsert
    rw [hopens.nextRow] at hadds
    exact ⟨⟨db₁, hcompile⟩, p, hp, hopens.adds hadds⟩

/-- A row is added whose clause stores the head and the body that the term
shows. -/
def AddsWritten (fs : Frames) (c : Term) (position : Position) (db db' : Database) : Prop :=
  ∃ s p clause ρ, fs.Shows c s ∧ db.Adds position p ⟨db.nextRow, .clause clause⟩ db'
    ∧ Predicate.ofTerm clause.head = .ok p ∧ clause.Stores s.parts.1 s.parts.2 ρ

end Database

-- ================================================== what is written is what is added

namespace Frames

variable {fs : Frames} {strict : Bool} {t : Term}

/-- What a term stands for has the shape of the term. -/
theorem Ends.resolve_shows (he : fs.Ends t) (hw : fs.Within) :
    fs.Ends (fs.resolve t) ∧ ∀ s, fs.Shows t s ↔ fs.Shows (fs.resolve t) s := by
  cases t with
  | ref c name =>
    obtain ⟨hreaches, hshows⟩ := he.resolve hw
    refine ⟨?_, hshows⟩
    generalize fs.resolve (.ref c name) = r at hreaches
    cases hreaches with
    | @cell d m hu =>
      refine ⟨_, fun u hl => ?_⟩
      cases hu.symm.trans (leads_ref.1 hl)
    | value _ hbelow _ => exact he.of_transGen hbelow
  | _ => exact ⟨he, fun _ => .rfl⟩

theorem Sound.resolve_wellMade (h : fs.Sound strict) (ht : t.Fits .all anyVars) :
    (fs.resolve t).Fits .all anyVars := by
  cases t with
  | ref c name =>
    obtain ⟨d, m, he⟩ | hheld := fs.follow_cases (fs.made + 1) c name
    · rw [Frames.resolve, he]
      exact Term.fits_ref.2 trivial
    · exact h.held hheld
  | _ => exact ht

end Frames

/-- A query is still running after a turn only if its step did not fail. -/
theorem Act.ok_of_advance_running {env : Env} {m m' : Machine}
    (h : advance .running env m = .ok .running m') : ∃ progress, step env m = .ok progress m' := by
  rw [advance_running] at h
  cases hstep : step env m with
  | ok progress m₁ =>
    rw [hstep] at h
    cases progress <;> cases h <;> exact ⟨_, rfl⟩
  | error e m₁ =>
    rw [hstep] at h
    cases e with
    | thrown raw =>
      dsimp only at h
      cases hraw : detach raw env m₁ with
      | ok ball m₂ =>
        rw [hraw] at h
        cases h
      | error e m₂ =>
        rw [hraw] at h
        cases h
    | _ => cases h

namespace Clauses

variable {env : Env} {m m' : Machine} {position : Position} {c : Term}

/-- `assertz/1` and `asserta/1` add a copy of what the term stands for. -/
theorem assert_ok (hthunk : ∀ id, m.query.frames.resolve c ≠ .thunk id) {b : Bool}
    (h : assert position c env m = .ok b m') : ∃ copy copier clause,
    m.query.frames.copy (m.query.frames.resolve c) (.start 0 m.db.nextTerm) = (copy, copier)
      ∧ Database.addClause copy position { m.db with nextTerm := copier.serial }
        = .ok clause m'.db := by
  have hsteps : 0 < env.steps := by
    refine Nat.pos_of_ne_zero fun hzero => ?_
    rw [assert, Act.bind_apply, Act.strip, Act.bind_apply, Act.steps_apply, hzero] at h
    cases h
  rw [assert, Act.bind_apply, Act.strip_apply_of_ne_thunk hthunk hsteps] at h
  dsimp only at h
  split at h
  · cases h
  · generalize hcopy : m.query.frames.copy (m.query.frames.resolve c) (.start 0 m.db.nextTerm) = r
    obtain ⟨copy, copier⟩ := r
    have hdetach : Act.detach (m.query.frames.resolve c) env m
        = .ok copy ⟨{ m.db with nextTerm := copier.serial }, m.query⟩ := by
      rw [Act.detach, Act.modifyGet_apply]
      simp only [hcopy]
    rw [Act.bind_apply, hdetach] at h
    dsimp only at h
    have hstore : (liftM (Database.addClause copy position) : Act Clause)
      = Act.store (Database.addClause copy position) := rfl
    rw [Act.bind_apply, hstore, Act.store_apply] at h
    dsimp only at h
    cases hadd : Database.addClause copy position { m.db with nextTerm := copier.serial } with
    | error e db =>
      rw [hadd] at h
      cases h
    | ok clause db =>
      rw [hadd] at h
      cases h
      exact ⟨copy, copier, clause, rfl, hadd⟩

/-- What `assertz/1` or `asserta/1` adds is what the term shows. -/
theorem addsWritten_of_assert {strict : Bool} (hsound : m.query.frames.Sound strict)
    (hw : m.query.frames.Within) (hn : m.db.Numbered) (hc : c.Fits .all anyVars)
    (hacyclic : m.query.frames.AcyclicFrom c)
    (hthunk : ∀ id, m.query.frames.resolve c ≠ .thunk id) {b : Bool}
    (h : assert position c env m = .ok b m') :
    Database.AddsWritten m.query.frames c position m.db m'.db := by
  obtain ⟨s, hs⟩ := hacyclic.ends.shows
  obtain ⟨hends, hshows⟩ := hacyclic.ends.resolve_shows hw
  have hwell := hsound.resolve_wellMade hc
  obtain ⟨copy, copier, clause, hcopy, hadd⟩ := assert_ok hthunk h
  have hcopied := (hsound.copy hw hwell (Frames.fits_start 0 m.db.nextTerm)).copy
  have hexact := (hsound.copy_exact hw hwell hends ((hshows s).1 hs)
    (Frames.faithful_start m.query.frames 0 m.db.nextTerm)).copy
  rw [hcopy] at hcopied hexact
  have hn' : Database.Numbered { m.db with nextTerm := copier.serial } :=
    ⟨hn.place, hn.below, hn.distinct⟩
  obtain ⟨⟨db₁, hcompile⟩, p, hp, hadds⟩ := Database.adds_addClause hn' hadd
  have hρ : Set.InjOn (numbering 0 (note [] s.vars)) {v | v ∈ s.vars} :=
    (numbering_injOn 0 _).mono fun v hv => mem_note.2 (.inr hv)
  obtain ⟨hpredicate, ρ, hstores⟩ := Clause.compile_stores
    (hcopied.mono (.refl _) fun _ _ => trivial) hexact.shows hρ hcompile hp
  exact ⟨s, p, clause, ρ, hs, ⟨hadds.numbered, hadds.id, hadds.rows, hadds.others⟩, hpredicate,
    hstores⟩

/-- The same of a call of the built-in, its argument being read in the frame of the
caller. -/
theorem addsWritten_of_call {strict : Bool} (hsound : m.query.frames.Sound strict)
    (hw : m.query.frames.Within) (hn : m.db.Numbered) {a : Term} {caller : FrameId}
    (ha : a.Fits .all anyVars)
    (hacyclic : m.query.frames.AcyclicFrom (a.bindTo (m.query.frames.owner caller)))
    (hthunk : ∀ id, m.query.frames.resolve (a.bindTo (m.query.frames.owner caller)) ≠ .thunk id)
    {next code : Code} {revision : Nat}
    (h : callProcedure (.direct (.assert position)) [a] caller next revision env m = .ok code m') :
    Database.AddsWritten m.query.frames (a.bindTo (m.query.frames.owner caller)) position m.db
      m'.db := by
  obtain ⟨db, q⟩ := m
  rw [Act.callProcedure_apply] at h
  have hrun : CallSite.invoke ⟨.direct (.assert position), [a], revision + 1, caller,
      (q.frames.returnsTo q.callee next).2⟩ env ⟨db, q.calling next revision⟩
    = (do if ← assert position (a.bindTo (q.frames.owner caller)) then
            return (q.frames.returnsTo q.callee next).2
          else return .fail : Act Code) env ⟨db, q.calling next revision⟩ := rfl
  rw [hrun, Act.bind_apply] at h
  cases hassert : assert position (a.bindTo (q.frames.owner caller)) env
      ⟨db, q.calling next revision⟩ with
  | error e m₁ =>
    rw [hassert] at h
    cases h
  | ok b m₁ =>
    rw [hassert] at h
    obtain rfl : m₁ = m' := by cases b <;> cases h <;> rfl
    exact addsWritten_of_assert (m := ⟨db, q.calling next revision⟩) hsound hw hn
      (ha.bindTo trivial fun _ _ => trivial) hacyclic hthunk hassert

/-- The same of a turn in which a query calls the built-in by its table. -/
theorem addsWritten_of_turn {strict : Bool} {entry : Clause}
    (hq : Phase.Holds strict entry m.query .running) (hn : m.db.Numbered) {table : Nat}
    {predicate : Predicate} {a : Term} {next : Code} {first : Row}
    (hcode : m.query.next = .call (.table table predicate) [a] next)
    (hfirst : (m.db.rowsAt table)[0]? = some first)
    (hproc : first.procedure = .direct (.assert position))
    (hacyclic : m.query.frames.AcyclicFrom (a.bindTo (m.query.frames.owner m.query.callee)))
    (hthunk : ∀ id, m.query.frames.resolve (a.bindTo (m.query.frames.owner m.query.callee))
      ≠ .thunk id)
    (h : Act.advance .running env m = .ok .running m') :
    Database.AddsWritten m.query.frames (a.bindTo (m.query.frames.owner m.query.callee)) position
      m.db m'.db := by
  obtain ⟨-, hsound, hexecutes⟩ := hq
  have ha : a.Fits .all anyVars := by
    rw [hcode] at hexecutes
    exact ((Code.fits_call.1 hexecutes).2.1 a List.mem_cons_self).wellMade
  have hframes : (Query.offeringRest { m.query with next := .fail } (m.db.rowsAt table) [a]
      next).frames = m.query.frames := by
    unfold Query.offeringRest
    split <;> rfl
  obtain ⟨progress, hstep⟩ := Act.ok_of_advance_running h
  rw [Act.step_table hcode hfirst, hproc] at hstep
  generalize Query.offeringRest { m.query with next := .fail } (m.db.rowsAt table) [a] next = q
    at hframes hstep
  rw [← hframes] at hacyclic hthunk ⊢
  cases hcall : callProcedure (.direct (.assert position)) [a] m.query.callee next
      m.query.ancestry env ⟨m.db, q⟩ with
  | ok code m₁ =>
    rw [hcall] at hstep
    cases hstep
    have hadds := addsWritten_of_call (m := ⟨m.db, q⟩) (hframes.symm ▸ hsound.arena)
      (hframes.symm ▸ hsound.within) hn ha hacyclic hthunk hcall
    exact hadds
  | error e m₁ =>
    rw [hcall] at hstep
    cases hstep

end Clauses

-- ================================================== reading a clause

namespace Frames

/-- A term without frames leads to no cell. -/
theorem acyclicFrom_of_detached {fs : Frames} {t : Term} (ht : t.Fits .none anyVars) :
    fs.AcyclicFrom t := by
  intro c name m hdown
  have hdetached : ∀ {u}, Relation.ReflTransGen fs.Leads t u → u.Fits .none anyVars := by
    intro u hu
    induction hu with
    | refl => exact ht
    | @tail u v _ hl ih =>
      cases hl with
      | value => exact (Term.fits_ref.1 ih).elim
      | @arg _ name args home a hcompound ha =>
        cases u with
        | compound form _ _ =>
          cases hcompound
          exact (Term.fits_compound.1 ih).2 a ha
        | closure serial _ _ _ => exact (Term.fits_closure.1 ih).1.elim
        | _ => cases hcompound
  exact (Term.fits_ref.1 (hdetached hdown)).elim

/-- A head and a body as they are told again in a frame: each variable is a slot of
the frame that was made for it and that nothing has bound. -/
structure Retells (fs : Frames) (owner : FrameId) (head body : Shape) (stored : Term)
    (fs' : Frames) (ρ : Variable → Variable) : Prop where
  injective : Set.InjOn ρ {v | v ∈ head.vars ++ body.vars}
  new : ∀ v ∈ head.vars ++ body.vars, ∃ i, ρ v = .cell ⟨owner, i⟩
    ∧ fs.slot? ⟨owner, i⟩ = none ∧ fs'.slot? ⟨owner, i⟩ = some {}
  others : ∀ c, (fs.slot? c).isSome → fs'.slot? c = fs.slot? c
  shows : fs'.Shows stored (.node ":-" [head.rename ρ, body.rename ρ])

variable {fs fs' : Frames} {owner : FrameId} {head body : Shape} {t stored : Term}
  {ρ : Variable → Variable} {base serial count : Nat}

/-- A copy with fresh slots of a variant is a variant. -/
theorem CopiesInto.retells (h : fs.CopiesInto t owner base serial stored count fs')
    (hacyclic : fs.AcyclicFrom t) (hinjective : Set.InjOn ρ {v | v ∈ head.vars ++ body.vars})
    (ht : fs.Shows t (.node ":-" [head.rename ρ, body.rename ρ])) :
    ∃ ρ', fs.Retells owner head body stored fs' ρ' := by
  obtain ⟨s, ρ', hrenames, hshows, -⟩ := h.exact hacyclic
  obtain _ | ⟨hs, _ | _⟩ := hrenames.shapes
  obtain rfl := hs.unique ht
  have hvars : (Shape.node ":-" [head.rename ρ, body.rename ρ]).vars
      = (head.vars ++ body.vars).map ρ := by
    simp [Shape.vars_rename]
  have hapart := hrenames.injective
  have hnames := hrenames.inOrder
  rw [List.flatMap_singleton, hvars] at hapart hnames
  refine ⟨ρ' ∘ ρ, hapart.comp hinjective fun v hv => List.mem_map_of_mem hv, fun v hv => ?_,
    fun c hc => ?_, ?_⟩
  · have hmem : ρ' (ρ v) ∈ ((head.vars ++ body.vars).map ρ).eraseDups.map ρ' :=
      List.mem_map_of_mem (List.mem_eraseDups.2 (List.mem_map_of_mem hv))
    rw [hnames, List.mem_map] at hmem
    obtain ⟨i, hi, he⟩ := hmem
    obtain ⟨hlow, hhigh⟩ := List.mem_range'_1.1 hi
    exact ⟨i, he.symm, h.new i hlow, by rw [h.slots, if_pos ⟨rfl, hlow, hhigh⟩]⟩
  · rw [h.slots, if_neg]
    rintro ⟨rfl, hlow, -⟩
    rw [h.new c.slot hlow] at hc
    cases hc
  · rw [Shape.rename_node, List.map_cons, List.map_cons, List.map_nil, Shape.rename_rename,
      Shape.rename_rename] at hshows
    exact hshows

end Frames

namespace Trial

variable {env : Env} {p : Predicate} {pattern : Term} {remove : Bool} {row : Row} {m m' : Machine}
  {rows : Array Row} {c : Clause} {head body : Shape} {ρ : Variable → Variable}

/-- The clause of a row is told again with variables of its own. -/
theorem retells_of_renamed {strict : Bool} (hq : m.query.Sound strict)
    (hrow : row.procedure.Fits .none) (hc : row.procedure.clause? = some c)
    (h : c.Stores head body ρ) {stored : Term} (hstored : renamed c env m = .ok stored m') :
    ∃ ρ', m.query.frames.Retells (m.query.frames.owner m.query.callee) head body stored
      m'.query.frames ρ' := by
  have hrun : renamed c env m = Act.rebind (.build m.db.nextTerm ":-" [c.head, c.body]) env
      ⟨{ m.db with nextTerm := m.db.nextTerm + 1 }, m.query⟩ := rfl
  rw [hrun, rebind_apply] at hstored
  cases hstored
  have hwhole : (Term.build m.db.nextTerm ":-" [c.head, c.body]).Fits .none anyVars :=
    Term.fits_build (Act.fits_parts hrow hc)
  obtain ⟨count, hcopies⟩ := hq.arena.copiesInto hq.within
    (hwhole.mono (World.none_le _) fun _ h => h) hq.orderly.live (m.db.nextTerm + 1)
  exact hcopies.retells (Frames.acyclicFrom_of_detached hwhole) h.injective
    (.build (.cons (h.head _) (.cons (h.body _) .nil)) _)

/-- Trying a row is unifying the pattern with a variant, made for it, of what its
clause stores. -/
structure Retold (env : Env) (p : Predicate) (pattern : Term) (remove : Bool) (row : Row)
    (c : Clause) (head body : Shape) (m : Machine) (stored : Term) (m₀ : Machine)
    (ρ : Variable → Variable) : Prop where
  made : renamed c env m = .ok stored m₀
  variant : m.query.frames.Retells (m.query.frames.owner m.query.callee) head body stored
    m₀.query.frames ρ
  meets : Meets env p pattern remove row stored m₀ (runClause p row pattern remove env m)

/-- Every row on offer that is a clause is tried so. -/
theorem exists_retold (henv : env.Proper) (hoffers : m.Offers rows pattern) (hrow : row ∈ rows)
    (hc : row.procedure.clause? = some c) (h : c.Stores head body ρ) :
    ∃ stored m₀ ρ', Retold env p pattern remove row c head body m stored m₀ ρ' := by
  have hfares : Fares env p pattern remove row m (runClause p row pattern remove env m) :=
    fares_runClause henv hoffers hrow
  generalize hrun : runClause p row pattern remove env m = r at hfares
  cases hfares with
  | native hno => cases hno.symm.trans hc
  | clause hc' hstored hmeets =>
    cases hc.symm.trans hc'
    obtain ⟨ρ', hretells⟩ := retells_of_renamed hoffers.query (hoffers.fits row hrow) hc h hstored
    exact ⟨_, _, ρ', hstored, hretells, hrun ▸ hmeets⟩

end Trial

/-- Trying alternatives one after the other comes to this one, in this machine:
those before it were tried and gave nothing. -/
inductive Alternatives.Tries (env : Env) (trial : Trial) (m' : Machine) :
    Machine → Alternatives → Prop
  | next {a rest : Alternatives} (h : a.next? = some (trial, rest)) : Tries env trial m' m' a
  | later {m m₁ : Machine} {a rest : Alternatives} {passed : Trial}
      (h : a.next? = some (passed, rest)) (hr : passed.run env m = .ok none m₁)
      (ht : Tries env trial m' m₁ rest) : Tries env trial m' m a

/-- What is tried of clauses on offer is a row, where the rows are on offer. -/
theorem Alternatives.tries_matching {env : Env} (henv : env.Proper) {p : Predicate}
    {pattern : Term} {remove : Bool} {rows : Array Row} {i : Nat} {m m' : Machine} {trial : Trial}
    (h : Tries env trial m' m (.matching p rows i pattern remove))
    (hoffers : m.Offers rows pattern) :
    ∃ row ∈ rows, trial = .clause p row pattern remove ∧ m'.Offers rows pattern := by
  have hnext : ∀ {passed : Trial} {rest : Alternatives} {i : Nat},
      (matching p rows i pattern remove).next? = some (passed, rest) →
      ∃ row ∈ rows, passed = .clause p row pattern remove
        ∧ rest = .matching p rows (i + 1) pattern remove := by
    intro passed rest i hnext
    simp only [next?] at hnext
    split at hnext
    · rename_i row hrow
      cases hnext
      exact ⟨row, Array.mem_of_getElem? hrow, rfl, rfl⟩
    · cases hnext
  generalize ha : matching p rows i pattern remove = a at h
  induction h generalizing i with
  | next h =>
    subst ha
    obtain ⟨row, hrow, rfl, -⟩ := hnext h
    exact ⟨row, hrow, rfl, hoffers⟩
  | later h hr _ ih =>
    subst ha
    obtain ⟨row, hrow, rfl, rfl⟩ := hnext h
    exact ih (Trial.offers_skipped henv hoffers hrow hr) rfl

-- ================================================== sessions

/-- The row is in a table, or among those that a goal of some query goes through. -/
def Session.Sees (s : Session) (row : Row) : Prop :=
  row ∈ s.db.allRows ∨ ∃ e ∈ s.queries, Machine.Sees ⟨s.db, e.1⟩ row

namespace Session

variable {s s' t : Session} {row row' : Row}

theorem Reached.steps (h : s.Reached false) (ht : Relation.ReflTransGen (Step false) s t) :
    t.Reached false := by
  induction ht with
  | refl => exact h
  | tail _ hstep ih => exact ih.step hstep

theorem Reached.knows (h : s.Reached false) (hrow : s.Sees row) : s.db.Knows row := by
  rcases hrow with hmem | ⟨e, he, hsees⟩
  · exact h.numbered.knows hmem
  · exact (h.course e he).knows hsees

/-- What is seen of a row after something has happened in a session was seen
before, or the row has a new number. -/
theorem Reached.sees_of_step (h : s.Reached false) (hstep : Step false s s')
    (hrow : s'.Sees row) : s.Sees row ∨ s.db.nextRow ≤ row.id := by
  have hmem : row ∈ s'.db.allRows → s.Sees row ∨ s.db.nextRow ≤ row.id := fun hmem => by
    rcases Nat.lt_or_ge row.id s.db.nextRow with hlt | hge
    · exact .inl (.inl (hstep.evolves.rows row hmem hlt))
    · exact .inr hge
  rcases hrow with hrow | ⟨e', he', hsees⟩
  · exact hmem hrow
  · rcases hstep.turns h.holds e' he' with ⟨e, he, hturn⟩ | ⟨entry, -, rfl⟩
    · rcases hturn.sees (h.course e he) hsees with hsees | ⟨hnew, -⟩
      · exact .inl (.inr ⟨e, he, hsees⟩)
      · exact .inr hnew
    · rcases hsees with hrow | ⟨p, hp, -⟩
      · exact hmem hrow
      · exact absurd hp List.not_mem_nil

/-- Whatever is seen of a row later on, it is as it was. -/
theorem Reached.eq_of_sees (h : s.Reached false) (hrow : row ∈ s.db.allRows)
    (ht : Relation.ReflTransGen (Step false) s t) (hrow' : t.Sees row') (hid : row'.id = row.id) :
    row' = row := by
  have hold : row'.id < s.db.nextRow := hid ▸ h.numbered.below row hrow
  have hsees : s.Sees row' := by
    induction ht with
    | refl => exact hrow'
    | tail hsteps hstep ih =>
      rcases (h.steps hsteps).sees_of_step hstep hrow' with hsees | hnew
      · exact ih hsees
      · exact absurd (hold.trans_le (evolves_of_steps hsteps).nextRow) hnew.not_gt
  exact ((h.knows hsees).2 row hrow hid.symm).symm

/-- Stored clauses are faithful and independent copies, as far as a session has
got. -/
structure FaithfulClauses (s : Session) : Prop where
  /-- If a turn in which a query calls `assertz/1` or `asserta/1` goes well, the
  head and the body that the argument shows have been stored. -/
  writes : ∀ q table predicate a next first position steps thunks m', (q, .running) ∈ s.queries →
    q.next = .call (.table table predicate) [a] next → (s.db.rowsAt table)[0]? = some first →
      first.procedure = .direct (.assert position) →
        q.frames.AcyclicFrom (a.bindTo (q.frames.owner q.callee)) →
          (∀ id, q.frames.resolve (a.bindTo (q.frames.owner q.callee)) ≠ .thunk id) →
            Act.advance .running (Env.nested steps thunks) ⟨s.db, q⟩ = .ok .running m' →
              Database.AddsWritten q.frames (a.bindTo (q.frames.owner q.callee)) position s.db m'.db
  /-- Whenever `clause/2` or `retract/1` come to the row of a clause, in whatever
  query, the pattern, which is what their arguments have asked for, is unified with a
  variant of what the clause stores, whose variables are new. -/
  reads : ∀ row c head body ρ, row ∈ s.db.allRows → row.procedure = .clause c →
    c.Stores head body ρ → ∀ t, Relation.ReflTransGen (Step false) s t →
      ∀ q steps thunks id p snapshot i pattern remove q₁ ended rest m₁ row' m,
        (q, .running) ∈ t.queries →
          Machine.Resumes (Env.nested steps thunks) ⟨t.db, q⟩
            ⟨id, .matching p snapshot i pattern remove⟩ q₁ ended rest m₁ →
          Alternatives.Tries (Env.nested steps thunks) (.clause p row' pattern remove) m
            ⟨t.db, q₁⟩ (.matching p snapshot i pattern remove) →
          row'.id = row.id → row' = row ∧ Asked p snapshot pattern remove (.running, ⟨t.db, q⟩)
            ∧ ∃ stored m₀ ρ', Trial.Retold (Env.nested steps thunks) p pattern remove row c head body m
              stored m₀ ρ'
  /-- Whatever happens in the session, the row is as it was, in its table and
  wherever a goal goes through it. -/
  keeps : ∀ row t row', row ∈ s.db.allRows → Relation.ReflTransGen (Step false) s t →
    t.Sees row' → row'.id = row.id → row' = row

namespace Reached

theorem retold (h : s.Reached false) {c : Clause} {head body : Shape} {ρ : Variable → Variable}
    (hrow : row ∈ s.db.allRows) (hc : row.procedure = .clause c) (hstores : c.Stores head body ρ)
    (ht : Relation.ReflTransGen (Step false) s t) {q q₁ : Query} {steps thunks id i : Nat}
    {p : Predicate} {snapshot : Array Row} {pattern : Term} {remove : Bool}
    {ended : Except Failure Code} {rest : Alternatives} {m₁ m : Machine}
    (hq : (q, .running) ∈ t.queries)
    (hr : Machine.Resumes (Env.nested steps thunks) ⟨t.db, q⟩
      ⟨id, .matching p snapshot i pattern remove⟩ q₁ ended rest m₁)
    (htries : Alternatives.Tries (Env.nested steps thunks) (.clause p row' pattern remove) m
      ⟨t.db, q₁⟩ (.matching p snapshot i pattern remove)) (hid : row'.id = row.id) :
    row' = row ∧ Asked p snapshot pattern remove (.running, ⟨t.db, q⟩) ∧ ∃ stored m₀ ρ',
      Trial.Retold (Env.nested steps thunks) p pattern remove row c head body m stored m₀ ρ' := by
  have henv := Env.proper_nested steps thunks
  have hx := (h.steps ht).course (q, .running) hq
  obtain ⟨row₀, hmem, he, hoffers⟩ := Alternatives.tries_matching henv htries (hx.offers hr)
  cases he
  obtain ⟨point, hpoint, -, ha⟩ := hr.point
  have hsees : t.Sees row' := .inr ⟨_, hq, .inr ⟨point, hpoint, snapshot, by rw [ha]; rfl, hmem⟩⟩
  obtain rfl := h.eq_of_sees hrow ht hsees hid
  exact ⟨rfl, hx.asked hpoint ha, Trial.exists_retold henv hoffers hmem (by rw [hc]; rfl) hstores⟩

end Reached

/-- Wherever `assertz/1` or `asserta/1` is called on a term that is no thunk and
has no cycle and goes well, what is stored is the head and the body that the
term shows then; and clauses that were stored in a session are faithful and
independent copies from then on. -/
theorem Reached.stored_clauses_faithful :
    (∀ {strict : Bool} {env : Env} {m m' : Machine} {position : Position} {a : Term}
      {caller : FrameId} {next code : Code} {revision : Nat}, m.query.Sound strict →
      m.db.Numbered → a.Fits .all anyVars →
      m.query.frames.AcyclicFrom (a.bindTo (m.query.frames.owner caller)) →
      (∀ id, m.query.frames.resolve (a.bindTo (m.query.frames.owner caller)) ≠ .thunk id) →
      callProcedure (.direct (.assert position)) [a] caller next revision env m = .ok code m' →
        Database.AddsWritten m.query.frames (a.bindTo (m.query.frames.owner caller)) position m.db
          m'.db)
    ∧ ∀ {s : Session}, s.Reached false → s.FaithfulClauses := by
  refine ⟨fun hq hn ha hacyclic hthunk h =>
    Clauses.addsWritten_of_call hq.arena hq.within hn ha hacyclic hthunk h, fun {s} h => ?_⟩
  constructor
  case writes =>
    intro q table predicate a next first position steps thunks m' hq hcode hfirst hproc hacyclic
      hthunk hturn
    obtain ⟨entry, hholds⟩ := (h.course _ hq).holds.query
    exact Clauses.addsWritten_of_turn hholds h.numbered hcode hfirst hproc hacyclic hthunk hturn
  case reads =>
    intro row c head body ρ hrow hc hstores t ht q steps thunks id p snapshot i pattern remove q₁
      ended rest m₁ row' m hq hr htries hid
    exact h.retold hrow hc hstores ht hq hr htries hid
  case keeps => exact fun row t row' hrow ht hrow' hid => h.eq_of_sees hrow ht hrow' hid

/-- The term that the query asserts in its next turn, at the back. -/
def asserted? (m : Machine) : Option Term :=
  match m.query.next with
  | .call (.table table _) [a] _ =>
    match (m.db.rowsAt table)[0]?.map Row.procedure with
    | some (.direct (.assert .back)) => some (a.bindTo (m.query.frames.owner m.query.callee))
    | _ => none
  | _ => none

theorem asserted?_eq_some {m : Machine} {c : Term} (h : asserted? m = some c) :
    ∃ table predicate a next first, m.query.next = .call (.table table predicate) [a] next
      ∧ (m.db.rowsAt table)[0]? = some first ∧ first.procedure = .direct (.assert .back)
      ∧ c = a.bindTo (m.query.frames.owner m.query.callee) := by
  unfold asserted? at h
  split at h
  · rename_i table predicate a next hcode
    split at h
    · rename_i hproc
      obtain ⟨first, hfirst, hproc⟩ := Option.map_eq_some_iff.1 hproc
      cases h
      exact ⟨table, predicate, a, next, first, hcode, hfirst, hproc, rfl⟩
    · cases h
  · cases h

theorem acyclic_opening {goal : Term} {db db' : Database} {q : Query}
    (h : opening? goal db = some (db', q)) : q.frames.Acyclic := by
  unfold opening? at h
  split at h
  · cases h
    exact Act.acyclic_start _
  · cases h

/-- `p(X, Y) :- q(Y, X)`. -/
def swapping (x y : Var) : Term :=
  .compound (.template 2) ":-" [.compound (.template 0) "p" [.var x, .var y],
    .compound (.template 1) "q" [.var y, .var x]]

/-- A query of two variables asserts `p(X, Y) :- q(Y, X)`, and when another query
retracts such a clause it comes to the row that was added. -/
def tellsAgain (db : Database) : Bool :=
  (opening? (.compound (.template 3) "assertz" [swapping (.named "X") (.named "Y")]) db).any
    fun o₁ =>
      (match callProcedure (.direct (.assert .back)) [swapping (.slot 0 "X") (.slot 1 "Y")]
        o₁.2.callee .succeed 1 (Env.nested 9 0) ⟨o₁.1, o₁.2⟩ with
        | .ok .succeed _ => true
        | _ => false)
      && (asserted? ⟨o₁.1, o₁.2⟩).any (fun c => match o₁.2.frames.resolve c with
        | .thunk _ => false
        | _ => true)
      && (Machine.called? 9 ⟨o₁.1, o₁.2⟩).any fun m₁ =>
        (m₁.db.allRows.any fun r => r.id == o₁.1.nextRow
          && r.procedure.clause?.any (·.locals == 2))
        && (opening? (.compound (.template 3) "retract"
          [swapping (.named "X") (.named "Y")]) m₁.db).any fun o₂ =>
          (Machine.called? 9 ⟨o₂.1, o₂.2⟩).any fun m₂ =>
            (Machine.retracts? 9 m₂).any fun r => r.1.head?.any (·.id == o₁.1.nextRow)

/-- A query of two variables calls `assertz/1` on `p(X, Y) :- q(Y, X)`. When another
retracts the clause, it is told again with new variables. -/
theorem Reached.stored_clauses_faithful_swapping :
    (∃ db q m, Session.Reached false ⟨db, [(q, .running)]⟩
      ∧ callProcedure (.direct (.assert .back)) [swapping (.slot 0 "X") (.slot 1 "Y")] q.callee
        .succeed 1 (Env.nested 9 0) ⟨db, q⟩ = .ok .succeed m
      ∧ Database.AddsWritten q.frames ((swapping (.slot 0 "X") (.slot 1 "Y")).bindTo
        (q.frames.owner q.callee)) .back db m.db)
    ∧ ∃ s t row c head body ρ p snapshot pattern x m stored m₀ ρ', s.Reached false
      ∧ Relation.ReflTransGen (Step false) s t ∧ row ∈ s.db.allRows ∧ row.procedure = .clause c
      ∧ c.Stores head body ρ ∧ c.locals = 2 ∧ Asked p snapshot pattern true x
      ∧ Trial.Retold (Env.nested 9 0) p pattern true row c head body m stored m₀ ρ' := by
  obtain ⟨db₀, hdb₀, hrun⟩ : ∃ db₀, Session.Reached false ⟨db₀, []⟩ ∧ tellsAgain db₀ = true :=
    ⟨_, .step (.step (.start false 1)
      (.request (.register (some ⟨"assertz", 1⟩) (.direct (.assert .back)))
        (by simp [Request.Detached, Procedure.Fits])))
      (.request (.register (some ⟨"retract", 1⟩) (.framed .retract))
        (by simp [Request.Detached, Procedure.Fits])), by cbv⟩
  simp only [tellsAgain, Option.any_eq_true, List.any_eq_true, Bool.and_eq_true, beq_iff_eq] at hrun
  obtain ⟨⟨db₁, q₁⟩, hopen₁, ⟨hcalled?, c, hasserted, hthunk⟩, m₁, hcall₁, ⟨row, hrow, hid, clause,
    hclause, hlocals⟩, ⟨db₂, q₂⟩, hopen₂, m₂, hcall₂, ⟨_, rest, m₃⟩, hretracts, row', hhead, hid'⟩ :=
    hrun
  have hdetached : ∀ name, (Term.compound (.template 3) name
      [swapping (.named "X") (.named "Y")]).Fits .none anyVars := by
    simp [swapping, Term.fits_compound, Term.fits_var, Var.name, anyVars]
  have h₀ := hdb₀.opening (hdetached "assertz") hopen₁
  have h₁ := h₀.called (by decide) hcall₁
  have hopened : Step false ⟨m₁.db, [(m₁.query, .running)]⟩
      ⟨db₂, [(q₂, .running), (m₁.query, .running)]⟩ := .opening (hdetached "retract") hopen₂
  have hcalled : Step false ⟨db₂, [(q₂, .running), (m₁.query, .running)]⟩
      ⟨m₂.db, [(m₂.query, .running), (m₁.query, .running)]⟩ := .called (by decide) hcall₂
  have hsteps := (Relation.ReflTransGen.single hopened).tail hcalled
  obtain ⟨table, predicate, a, next, first, hcode, hfirst, hproc, rfl⟩ :=
    asserted?_eq_some hasserted
  have hacyclic : ∀ t, q₁.frames.AcyclicFrom t := fun _ _ _ _ _ => acyclic_opening hopen₁ _ _ _
  refine ⟨?_, ?_⟩
  · split at hcalled?
    · rename_i m hcalled
      obtain ⟨entry, hholds⟩ := (h₀.course _ List.mem_cons_self).holds.query
      refine ⟨db₁, q₁, m, h₀, hcalled, stored_clauses_faithful.1 hholds.sound h₀.numbered ?_
        (hacyclic _) (fun _ he => by cases he) hcalled⟩
      simp [swapping, Term.fits_compound, Term.fits_var, Var.name, anyVars]
    · cases hcalled?
  -- the clause that the turn of the query has stored
  obtain ⟨shape, p, clause', ρ, -, hadds, -, hstores⟩ :=
    (stored_clauses_faithful.2 h₀).writes q₁ table predicate a next first .back 9 0 m₁
      List.mem_cons_self hcode hfirst hproc (hacyclic _)
      (fun id he => by rw [he] at hthunk; cases hthunk) (Machine.advance_of_called? hcall₁)
  obtain rfl := hadds.numbered.eq_of_id hrow (Database.mem_allRows_of_rowsOf hadds.mem) hid
  cases hclause
  -- and what it is told as
  obtain ⟨id, p', snapshot, i, pattern, q₃, hr, rfl⟩ := Machine.resumes_of_retracts? hretracts
  have hnext : (Alternatives.matching p' snapshot i pattern true).next?
      = some (.clause p' row' pattern true, .matching p' snapshot (i + 1) pattern true) := by
    rw [List.head?_drop, Array.getElem?_toList] at hhead
    simp only [Alternatives.next?, hhead]
  obtain ⟨rfl, hasked, stored, m₀, ρ', hretold⟩ := (stored_clauses_faithful.2 h₁).reads _ _ _ _ _ hrow rfl
    hstores _ hsteps m₂.query 9 0 id p' snapshot i pattern true q₃ _ rest m₃ row' _
    List.mem_cons_self hr (.next hnext) hid'
  exact ⟨_, _, _, _, _, _, ρ, p', snapshot, pattern, _, _, stored, m₀, ρ', h₁, hsteps, hrow, rfl,
    hstores, hlocals, hasked, hretold⟩

end Session

end LogicMachine
