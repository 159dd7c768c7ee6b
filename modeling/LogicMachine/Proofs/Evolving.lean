/-
How a database changes while it is shared.

Queries know of each other through the database alone, so all that one of
them may rely on is what every change of the database keeps. Of the rows
that is little, and enough: a row is told from all others by its number,
numbers are given out once, and a row that has left its table never comes
back (`Database.Evolves`, `Database.Evolves.gone`). Of the thunks it is that
a value, once kept, stays.

Every computation on a database is such a change, whether it fails or not
(`Store.Evolves`).
-/
import LogicMachine.Proofs.Reaching

namespace LogicMachine

namespace Database

-- ================================================== rows

/-- The rows of a predicate, in order. -/
def rowsOf (db : Database) (p : Predicate) : Array Row := (db.table? p).elim #[] Table.rows

/-- The rows of all tables. -/
def allRows (db : Database) : List Row := db.tables.toList.flatMap (·.rows.toList)

/-- Every table is found under its predicate. Rows are told apart by their
numbers, all of which have been given out. -/
structure Numbered (db : Database) : Prop where
  place : ∀ p i, db.find? p = some i ↔ ∃ t, db.tables[i]? = some t ∧ t.predicate = p
  below : ∀ row ∈ db.allRows, row.id < db.nextRow
  distinct : (db.allRows.map Row.id).Nodup

/-- What a database may have become: rows with numbers that had been given
out are rows that were there, and the values of thunks are kept. -/
structure Evolves (db db' : Database) : Prop where
  nextRow : db.nextRow ≤ db'.nextRow
  rows : ∀ row ∈ db'.allRows, row.id < db.nextRow → row ∈ db.allRows
  thunks : db.thunks.size ≤ db'.thunks.size
  forced : ∀ id t, db.forced id = some t → db'.forced id = some t
  numbered : db.Numbered → db'.Numbered

variable {db db' db'' : Database} {p : Predicate} {row : Row}

theorem rowsOf_eq {i : Nat} {t : Table} (hi : db.find? p = some i) (ht : db.tables[i]? = some t) :
    db.rowsOf p = t.rows := by
  unfold rowsOf table?
  rw [hi, Option.bind_some, ht]
  rfl

theorem mem_rowsOf (h : row ∈ db.rowsOf p) :
    ∃ (i : Nat) (t : Table), db.find? p = some i ∧ db.tables[i]? = some t ∧ row ∈ t.rows := by
  unfold rowsOf at h
  cases ht : db.table? p with
  | none =>
    rw [ht] at h
    exact absurd h (Array.not_mem_empty row)
  | some t =>
    rw [ht] at h
    obtain ⟨i, hi, hget⟩ := Option.bind_eq_some_iff.1 ht
    exact ⟨i, t, hi, hget, h⟩

theorem mem_allRows :
    row ∈ db.allRows ↔ ∃ (i : Nat) (t : Table), db.tables[i]? = some t ∧ row ∈ t.rows := by
  unfold allRows
  rw [List.mem_flatMap]
  constructor
  · rintro ⟨t, ht, hrow⟩
    obtain ⟨i, hi⟩ := Array.mem_iff_getElem?.1 (Array.mem_toList_iff.1 ht)
    exact ⟨i, t, hi, Array.mem_toList_iff.1 hrow⟩
  · rintro ⟨i, t, hi, hrow⟩
    exact ⟨t, Array.mem_toList_iff.2 (Array.mem_of_getElem? hi), Array.mem_toList_iff.2 hrow⟩

theorem mem_allRows_of_rowsOf (h : row ∈ db.rowsOf p) : row ∈ db.allRows := by
  obtain ⟨i, t, -, ht, hrow⟩ := mem_rowsOf h
  exact mem_allRows.2 ⟨i, t, ht, hrow⟩

theorem mem_allRows_of_rowsAt {table : Nat} (h : row ∈ db.rowsAt table) : row ∈ db.allRows := by
  unfold rowsAt at h
  split at h
  · rename_i t ht
    exact mem_allRows.2 ⟨table, t, ht, h⟩
  · exact absurd h (Array.not_mem_empty row)

namespace Numbered

theorem eq_of_id (h : db.Numbered) {row' : Row} (hr : row ∈ db.allRows) (hr' : row' ∈ db.allRows)
    (hid : row.id = row'.id) : row = row' :=
  List.inj_on_of_nodup_map h.distinct hr hr' hid

/-- The rows of one table have numbers of their own. -/
theorem nodup (h : db.Numbered) {i : Nat} {t : Table} (ht : db.tables[i]? = some t) :
    (t.rows.toList.map Row.id).Nodup := by
  have hdistinct := h.distinct
  unfold allRows at hdistinct
  rw [List.map_flatMap] at hdistinct
  exact (List.nodup_flatMap.1 hdistinct).1 t (Array.mem_toList_iff.2 (Array.mem_of_getElem? ht))

theorem nodup_rowsOf (h : db.Numbered) (p : Predicate) :
    ((db.rowsOf p).toList.map Row.id).Nodup := by
  unfold rowsOf
  cases ht : db.table? p with
  | none => exact List.nodup_nil
  | some t =>
    obtain ⟨i, -, hi⟩ := Option.bind_eq_some_iff.1 ht
    exact h.nodup hi

theorem nodup_rowsAt (h : db.Numbered) (table : Nat) :
    ((db.rowsAt table).toList.map Row.id).Nodup := by
  unfold rowsAt
  split
  · rename_i t ht
    exact h.nodup ht
  · exact List.nodup_nil

/-- A row is in one table only. -/
theorem table_unique (h : db.Numbered) {i j : Nat} {t u : Table} (ht : db.tables[i]? = some t)
    (hu : db.tables[j]? = some u) (hr : row ∈ t.rows) (hr' : row ∈ u.rows) : i = j := by
  have hdistinct := h.distinct
  unfold allRows at hdistinct
  rw [List.map_flatMap] at hdistinct
  have hapart := List.pairwise_iff_getElem.1 (List.nodup_flatMap.1 hdistinct).2
  obtain ⟨hi, rfl⟩ := Array.getElem?_eq_some_iff.1 ht
  obtain ⟨hj, rfl⟩ := Array.getElem?_eq_some_iff.1 hu
  have hmem : row.id ∈ (db.tables[i]).rows.toList.map Row.id :=
    List.mem_map_of_mem (Array.mem_toList_iff.2 hr)
  have hmem' : row.id ∈ (db.tables[j]).rows.toList.map Row.id :=
    List.mem_map_of_mem (Array.mem_toList_iff.2 hr')
  rcases Nat.lt_trichotomy i j with hij | hij | hij
  · exact (hapart i j hi hj hij hmem hmem').elim
  · exact hij
  · exact (hapart j i hj hi hij hmem' hmem).elim

/-- Tables are told apart by their predicates. -/
theorem find?_inj (h : db.Numbered) {p' : Predicate} {i : Nat} (hi : db.find? p = some i)
    (hi' : db.find? p' = some i) : p = p' := by
  obtain ⟨t, ht, rfl⟩ := (h.place p i).1 hi
  obtain ⟨t', ht', rfl⟩ := (h.place p' i).1 hi'
  rw [Option.some.inj (ht.symm.trans ht')]

/-- A row belongs to one predicate only. -/
theorem predicate_unique (h : db.Numbered) {p' : Predicate} (hr : row ∈ db.rowsOf p)
    (hr' : row ∈ db.rowsOf p') : p = p' := by
  obtain ⟨i, t, hi, ht, hrow⟩ := mem_rowsOf hr
  obtain ⟨j, u, hj, hu, hrow'⟩ := mem_rowsOf hr'
  obtain rfl := h.table_unique ht hu hrow hrow'
  exact h.find?_inj hi hj

end Numbered

namespace Evolves

theorem refl (db : Database) : db.Evolves db :=
  ⟨le_rfl, fun _ h _ => h, le_rfl, fun _ _ h => h, id⟩

theorem trans (h : db.Evolves db') (h' : db'.Evolves db'') : db.Evolves db'' where
  nextRow := h.nextRow.trans h'.nextRow
  rows row hrow hid := h.rows row (h'.rows row hrow (hid.trans_le h.nextRow)) hid
  thunks := h.thunks.trans h'.thunks
  forced id t ht := h'.forced id t (h.forced id t ht)
  numbered hdb := h'.numbered (h.numbered hdb)

/-- What does not change the tables and the thunks. -/
theorem of_eq (ht : db'.tables = db.tables) (hi : db'.index = db.index)
    (hn : db.nextRow ≤ db'.nextRow) (hth : db'.thunks = db.thunks) : db.Evolves db' := by
  have hrows : db'.allRows = db.allRows := by rw [allRows, ht, allRows]
  refine ⟨hn, fun row hrow _ => hrows ▸ hrow, hth ▸ le_rfl, fun id t h => ?_, fun hdb => ?_⟩
  · unfold Database.forced at h ⊢
    rwa [hth]
  · refine ⟨fun p i => ?_, fun row hrow => (hdb.below row (hrows ▸ hrow)).trans_le hn,
      hrows ▸ hdb.distinct⟩
    unfold Database.find?
    rw [hi, ht]
    exact hdb.place p i

end Evolves

-- ================================================== rows that are known

/-- The number has been given out, and no row has it. -/
def Gone (db : Database) (id : Nat) : Prop :=
  id < db.nextRow ∧ ∀ p, ∀ row ∈ db.rowsOf p, row.id ≠ id

/-- The number of the row has been given out, and no other row has it. -/
def Knows (db : Database) (row : Row) : Prop :=
  row.id < db.nextRow ∧ ∀ row' ∈ db.allRows, row'.id = row.id → row' = row

theorem Numbered.knows (h : db.Numbered) (hr : row ∈ db.allRows) : db.Knows row :=
  ⟨h.below row hr, fun _ hr' hid => h.eq_of_id hr' hr hid⟩

namespace Evolves

theorem knows (he : db.Evolves db') (h : db.Knows row) : db'.Knows row :=
  ⟨h.1.trans_le he.nextRow, fun row' hr' hid =>
    h.2 row' (he.rows row' hr' (hid.trans_lt h.1)) hid⟩

/-- What has left the tables does not come back. -/
theorem gone (he : db.Evolves db') (hn : db.Numbered) {id : Nat} (h : db.Gone id) : db'.Gone id := by
  refine ⟨h.1.trans_le he.nextRow, fun p row hrow hid => ?_⟩
  have hold := he.rows row (mem_allRows_of_rowsOf hrow) (hid.trans_lt h.1)
  obtain ⟨i, t, ht, hmem⟩ := mem_allRows.1 hold
  have hplace := (hn.place t.predicate i).2 ⟨t, ht, rfl⟩
  exact h.2 t.predicate row (rowsOf_eq hplace ht ▸ hmem) hid

end Evolves

-- ================================================== changes of one table

/-- The rows before and after a change of the table at a place. -/
theorem allRows_modify {i : Nat} {t : Table} (ht : db.tables[i]? = some t) (change : Table → Table) :
    ∃ before after, db.allRows = before ++ (t.rows.toList ++ after)
      ∧ allRows { db with tables := db.tables.modify i change }
        = before ++ ((change t).rows.toList ++ after) := by
  obtain ⟨hi, rfl⟩ := Array.getElem?_eq_some_iff.1 ht
  obtain ⟨l₁, t, l₂, hsplit, rfl, hmodify⟩ := List.exists_of_modify change (l := db.tables.toList) hi
  have hget : db.tables[l₁.length] = t := by
    simp only [← Array.getElem_toList, hsplit, List.getElem_append_right le_rfl, Nat.sub_self,
      List.getElem_cons_zero]
  refine ⟨l₁.flatMap (·.rows.toList), l₂.flatMap (·.rows.toList), ?_, ?_⟩
  · rw [hget, allRows, hsplit, List.flatMap_append, List.flatMap_cons]
  · rw [hget, allRows, Array.toList_modify, hmodify, List.flatMap_append, List.flatMap_cons]

theorem modify_of_none {i : Nat} (h : db.tables[i]? = none) (change : Table → Table) :
    db.tables.modify i change = db.tables := by
  apply Array.ext_getElem?
  intro j
  rw [Array.getElem?_modify]
  split
  · rename_i hij
    rw [← hij, h]
    rfl
  · rfl

/-- A change of one table leaves every table in its place. -/
theorem Numbered.place_modify (h : db.Numbered) (i : Nat) {change : Table → Table}
    (hc : ∀ t, (change t).predicate = t.predicate) (p : Predicate) (j : Nat) :
    db.find? p = some j
      ↔ ∃ t, (db.tables.modify i change)[j]? = some t ∧ t.predicate = p := by
  rw [h.place, Array.getElem?_modify]
  split
  · constructor
    · rintro ⟨t, ht, hp⟩
      exact ⟨change t, by rw [ht]; rfl, (hc t).trans hp⟩
    · rintro ⟨t, ht, hp⟩
      obtain ⟨t₀, ht₀, rfl⟩ := Option.map_eq_some_iff.1 ht
      exact ⟨t₀, ht₀, (hc t₀).symm.trans hp⟩
  · exact Iff.rfl

/-- The rows of other predicates do not change. -/
theorem rowsOf_modify (h : db.Numbered) {i : Nat} (hi : db.find? p = some i)
    (change : Table → Table) {p' : Predicate} (hp : p' ≠ p) {changes : Array Change} :
    rowsOf { db with tables := db.tables.modify i change, changes := changes } p' = db.rowsOf p' := by
  unfold rowsOf table?
  show (((db.find? p').bind fun j => (db.tables.modify i change)[j]?).elim _ _) = _
  cases hj : db.find? p' with
  | none => rfl
  | some j =>
    have hne : i ≠ j := by
      rintro rfl
      exact hp (h.find?_inj hj hi)
    rw [Option.bind_some, Option.bind_some, Array.getElem?_modify, if_neg hne]

/-- Rows leave a table. -/
theorem evolves_shrink (db : Database) (i : Nat) (change : Table → Table)
    (hc : ∀ t, (change t).predicate = t.predicate)
    (hrows : ∀ t, (change t).rows.toList.Sublist t.rows.toList) :
    db.Evolves { db with tables := db.tables.modify i change } := by
  have hsub : (allRows { db with tables := db.tables.modify i change }).Sublist db.allRows := by
    cases ht : db.tables[i]? with
    | none =>
      rw [modify_of_none ht]
    | some t =>
      obtain ⟨before, after, hall, hall'⟩ := allRows_modify ht change
      rw [hall, hall']
      exact .append (.refl _) (.append (hrows t) (.refl _))
  exact ⟨le_rfl, fun row hrow _ => hsub.subset hrow, le_rfl, fun _ _ h => h, fun hdb =>
    ⟨hdb.place_modify i hc, fun row hrow => hdb.below row (hsub.subset hrow),
      (hsub.map Row.id).nodup hdb.distinct⟩⟩

/-- A table with a row more, at one of its ends. -/
def Table.adding (row : Row) (position : Position) (t : Table) : Table :=
  { t with
    rows := match position with
      | .front => #[row] ++ t.rows
      | .back => t.rows.push row }

theorem Table.perm_adding (row : Row) (position : Position) (t : Table) :
    (Table.adding row position t).rows.toList.Perm (row :: t.rows.toList) := by
  cases position with
  | front => simp [Table.adding]
  | back => simp [Table.adding]

/-- A row with the next number joins a table. -/
theorem evolves_adding (db : Database) (i : Nat) (procedure : Procedure) (position : Position) :
    db.Evolves { db with
      tables := db.tables.modify i (Table.adding ⟨db.nextRow, procedure⟩ position)
      nextRow := db.nextRow + 1 } := by
  let row : Row := ⟨db.nextRow, procedure⟩
  have hperm : (allRows { db with tables := db.tables.modify i (Table.adding row position) }).Perm
      db.allRows ∨ (allRows { db with tables := db.tables.modify i (Table.adding row position) }).Perm
        (row :: db.allRows) := by
    cases ht : db.tables[i]? with
    | none =>
      rw [modify_of_none ht]
      exact .inl (.refl _)
    | some t =>
      obtain ⟨before, after, hall, hall'⟩ := allRows_modify ht (Table.adding row position)
      rw [hall, hall']
      exact .inr (((Table.perm_adding row position t).append_right after).append_left before |>.trans
        List.perm_middle)
  refine ⟨Nat.le_succ _, fun r hr hid => ?_, le_rfl, fun _ _ h => h, fun hdb =>
    ⟨hdb.place_modify i fun _ => rfl, fun r hr => ?_, ?_⟩⟩
  · rcases hperm with h | h
    · exact h.mem_iff.1 hr
    · rcases List.mem_cons.1 (h.mem_iff.1 hr) with rfl | hr
      · exact absurd hid (Nat.lt_irrefl _)
      · exact hr
  · rcases hperm with h | h
    · exact (hdb.below r (h.mem_iff.1 hr)).trans (Nat.lt_succ_self _)
    · rcases List.mem_cons.1 (h.mem_iff.1 hr) with rfl | hr
      · exact Nat.lt_succ_self _
      · exact (hdb.below r hr).trans (Nat.lt_succ_self _)
  · rcases hperm with h | h
    · exact (h.map Row.id).nodup_iff.2 hdb.distinct
    · refine (h.map Row.id).nodup_iff.2 (List.nodup_cons.2 ⟨fun hmem => ?_, hdb.distinct⟩)
      obtain ⟨r, hr, hid⟩ := List.mem_map.1 hmem
      exact absurd (hdb.below r hr) (hid.ge.not_gt)

/-- A predicate without a table gets one. -/
theorem evolves_open (db : Database) (h : db.find? p = none) :
    db.Evolves { db with
      tables := db.tables.push { predicate := p }
      index := db.index.insert p db.tables.size } := by
  have hrows : allRows { db with tables := db.tables.push { predicate := p } } = db.allRows := by
    simp [allRows]
  refine ⟨le_rfl, fun row hrow _ => hrows ▸ hrow, le_rfl, fun _ _ h => h, fun hdb =>
    ⟨fun p' i => ?_, fun row hrow => hdb.below row (hrows ▸ hrow), hrows ▸ hdb.distinct⟩⟩
  have hfind : find? { db with
      tables := db.tables.push { predicate := p }
      index := db.index.insert p db.tables.size } p'
      = if p = p' then some db.tables.size else db.find? p' := by
    simp [find?, Std.HashMap.getElem?_insert]
  rw [hfind]
  show _ ↔ ∃ t, (db.tables.push { predicate := p })[i]? = some t ∧ t.predicate = p'
  rw [Array.getElem?_push]
  split
  · rename_i hp
    subst hp
    constructor
    · intro hi
      cases hi
      exact ⟨_, if_pos rfl, rfl⟩
    · rintro ⟨t, ht, hp⟩
      split at ht
      · rename_i hi
        rw [hi]
      · rw [(hdb.place p i).2 ⟨t, ht, hp⟩] at h
        cases h
  · rename_i hp
    rw [hdb.place]
    constructor
    · rintro ⟨t, ht, hp'⟩
      refine ⟨t, ?_, hp'⟩
      rw [if_neg (Nat.ne_of_lt (Array.getElem?_eq_some_iff.1 ht).1)]
      exact ht
    · rintro ⟨t, ht, hp'⟩
      split at ht
      · cases ht
        exact absurd hp' hp
      · exact ⟨t, ht, hp'⟩

-- ================================================== removing a row

/-- The row leaves the table of the predicate, and nothing else leaves or
joins a table. -/
structure Removes (p : Predicate) (row : Row) (db db' : Database) : Prop where
  there : ∃ before after, (db.rowsOf p).toList = before ++ row :: after
    ∧ (db'.rowsOf p).toList = before ++ after
  others : ∀ p', p' ≠ p → db'.rowsOf p' = db.rowsOf p'
  nextRow : db'.nextRow = db.nextRow

theorem Removes.mem (h : Removes p row db db') : row ∈ db.rowsOf p := by
  obtain ⟨before, after, hold, -⟩ := h.there
  exact Array.mem_toList_iff.1 (hold ▸ by simp)

/-- A row that was removed is gone. -/
theorem Removes.gone (h : Removes p row db db') (hn : db.Numbered) : db'.Gone row.id := by
  obtain ⟨before, after, hold, hnew⟩ := h.there
  have hmem := mem_allRows_of_rowsOf h.mem
  refine ⟨h.nextRow ▸ hn.below row hmem, fun p' row' hrow' hid => ?_⟩
  by_cases hp : p' = p
  · subst hp
    have hnodup := hn.nodup_rowsOf p'
    rw [hold, List.map_append, List.map_cons, List.nodup_middle, List.nodup_cons,
      ← List.map_append, ← hnew] at hnodup
    exact hnodup.1 (hid ▸ List.mem_map_of_mem (Array.mem_toList_iff.2 hrow'))
  · rw [h.others p' hp] at hrow'
    obtain rfl := hn.eq_of_id (mem_allRows_of_rowsOf hrow') hmem hid
    exact hp (hn.predicate_unique hrow' h.mem)

end Database

-- ================================================== computations

namespace Store

variable {α β : Type} {work : Store α}

theorem after_bind (work : Store α) (next : α → Store β) (db : Database) :
    Store.after (work >>= next) db = match work db with
      | .ok a db' => (next a).after db'
      | .error _ db' => db' := by
  show Store.after (EStateM.bind work next) db = _
  unfold Store.after EStateM.bind
  cases work db <;> rfl

/-- Whatever becomes of a computation, the database only evolves. -/
structure Evolves (work : Store α) : Prop where
  ends : ∀ db : Database, db.Evolves (work.after db)

namespace Evolves

theorem pure (a : α) : Store.Evolves (pure a : Store α) := ⟨.refl⟩

theorem throw (e : Failure) : Store.Evolves (throw e : Store α) := ⟨.refl⟩

theorem bind {next : α → Store β} (h : work.Evolves) (hn : ∀ a, Store.Evolves (next a)) :
    Store.Evolves (work >>= next) := by
  refine ⟨fun db => ?_⟩
  have hw := h.ends db
  rw [after_bind]
  unfold Store.after at hw
  cases hr : work db with
  | ok a db' =>
    rw [hr] at hw
    exact hw.trans ((hn a).ends db')
  | error e db' =>
    rw [hr] at hw
    exact hw

/-- Reading the database first, as it is then. -/
theorem get_bind {next : Database → Store β}
    (hn : ∀ db : Database, db.Evolves ((next db).after db)) : Store.Evolves (get >>= next) := ⟨hn⟩

theorem modifyGet {f : Database → α × Database} (h : ∀ db : Database, db.Evolves (f db).2) :
    Store.Evolves (modifyGet f : Store α) := ⟨h⟩

theorem modify {f : Database → Database} (h : ∀ db : Database, db.Evolves (f db)) :
    Store.Evolves (modify f : Store PUnit) := ⟨h⟩

end Evolves

end Store

namespace Database

theorem evolves_freshTerm : Store.Evolves freshTerm :=
  .modifyGet fun _ => .of_eq rfl rfl le_rfl rfl

theorem evolves_freshClause : Store.Evolves freshClause :=
  .modifyGet fun _ => .of_eq rfl rfl le_rfl rfl

theorem evolves_term (name : String) (args : List Term) : Store.Evolves (term name args) :=
  .bind evolves_freshTerm fun _ => .pure _

theorem evolves_listOf (items : List Term) (tail : Term) : Store.Evolves (listOf items tail) :=
  .modifyGet fun _ => .of_eq rfl rfl le_rfl rfl

theorem evolves_indexTerm (t : Term) : Store.Evolves (indexTerm t) :=
  .modifyGet fun _ => .of_eq rfl rfl le_rfl rfl

theorem evolves_note (n : Note) : Store.Evolves (note n) :=
  .modify fun _ => .of_eq rfl rfl le_rfl rfl

theorem evolves_random : Store.Evolves random :=
  .bind (.modifyGet fun _ => .of_eq rfl rfl le_rfl rfl) fun _ => .pure _

theorem evolves_write (text : String) : Store.Evolves (write text) := by
  have happend : Store.Evolves (modify fun db => { db with output := db.output ++ text }) :=
    .modify fun _ => .of_eq rfl rfl le_rfl rfl
  refine .get_bind fun db => ?_
  split
  · exact (Store.Evolves.bind (.throw _) fun _ => happend).ends db
  · exact happend.ends db

theorem evolves_setFlag (name : String) (value : Term) : Store.Evolves (setFlag name value) := by
  have hset : ∀ f : Database → List (String × Term),
      Store.Evolves (modify fun db => { db with flags := f db }) :=
    fun _ => .modify fun _ => .of_eq rfl rfl le_rfl rfl
  unfold setFlag
  split
  · exact .bind (.throw _) fun _ => hset _
  · exact hset _

theorem evolves_defineOperator (priority : Int64) (kind : OperatorType) (name : String) :
    Store.Evolves (defineOperator priority kind name) := by
  refine .get_bind fun db => ?_
  split
  · exact .of_eq rfl rfl le_rfl rfl
  · exact .refl db

-- ================================================== thunks

theorem lt_size_of_forced {db : Database} {id : Nat} {t : Term} (h : db.forced id = some t) :
    id < db.thunks.size := by
  unfold forced at h
  split at h
  · rename_i hthunk
    exact (Array.getElem?_eq_some_iff.1 hthunk).1
  · cases h

theorem evolves_newThunk (producer : Producer) : Store.Evolves (newThunk producer) := by
  refine .modifyGet fun db =>
    ⟨le_rfl, fun _ h _ => h, ?_, fun id t h => ?_, fun h => { h with }⟩
  · simp
  · have hlt := lt_size_of_forced h
    unfold forced at h ⊢
    rwa [Array.getElem?_push_lt hlt, ← Array.getElem?_eq_getElem hlt]

/-- A thunk that has no value yet gets one. -/
theorem evolves_settle (db : Database) {id : Nat} (h : db.forced id = none) (value : Term) :
    db.Evolves { db with thunks := db.thunks.modify id fun t => { t with value := some value } } := by
  refine ⟨le_rfl, fun _ h _ => h, ?_, fun i t ht => ?_, fun h => { h with }⟩
  · simp
  · have hne : id ≠ i := by
      rintro rfl
      rw [h] at ht
      cases ht
    unfold forced at ht ⊢
    rwa [Array.getElem?_modify, if_neg hne]

theorem evolves_settleThunk (id : Nat) (value : Term) : Store.Evolves (settleThunk id value) := by
  refine .modifyGet fun db => ?_
  split
  · exact .refl db
  · rename_i h
    exact evolves_settle db h value

theorem settleThunk_apply (id : Nat) (value : Term) (db : Database) :
    settleThunk id value db = match db.forced id with
      | some kept => .ok kept db
      | none => .ok value
        { db with thunks := db.thunks.modify id fun t => { t with value := some value } } := by
  simp only [settleThunk, modifyGet, MonadStateOf.modifyGet, EStateM.modifyGet]
  cases db.forced id <;> rfl

/-- The value that a thunk is said to have is kept. -/
theorem forced_settleThunk {db db' : Database} {id : Nat} {value kept : Term}
    (hid : id < db.thunks.size) (h : settleThunk id value db = .ok kept db') :
    db'.forced id = some kept := by
  rw [settleThunk_apply] at h
  split at h
  · rename_i hkept
    cases h
    exact hkept
  · cases h
    simp [forced, Array.getElem?_modify, Array.getElem?_eq_getElem hid]

-- ================================================== tables

theorem evolves_tableFor (p : Predicate) : Store.Evolves (tableFor p) := by
  refine .get_bind fun db => ?_
  split
  · exact .refl db
  · rename_i h
    exact (evolves_open db h).trans (.of_eq rfl rfl le_rfl rfl)

theorem evolves_insert (p : Predicate) (procedure : Procedure) (position : Position) :
    Store.Evolves (insert p procedure position) :=
  .bind (evolves_tableFor p) fun index =>
    ⟨fun db => (evolves_adding db index procedure position).trans (.of_eq rfl rfl le_rfl rfl)⟩

theorem evolves_register (p : Option Predicate) (procedure : Procedure) :
    Store.Evolves (register p procedure) := by
  cases p with
  | none => exact .throw _
  | some p => exact evolves_insert p procedure .back

theorem evolves_abolish (p : Predicate) : Store.Evolves (abolish p) := by
  refine .get_bind fun db => ?_
  split
  · exact .refl db
  · rename_i index _
    have hclear := evolves_shrink db index (fun t => { t with rows := #[] }) (fun _ => rfl)
      fun t => List.nil_sublist _
    exact hclear.trans (.of_eq rfl rfl le_rfl rfl)

theorem remove_apply (p : Predicate) (id : Nat) (db : Database) :
    remove p id db = match db.find? p with
      | none => .ok false db
      | some index => match (db.rowsAt index).findIdx? (·.id == id) with
        | none => .ok false db
        | some i => .ok true
          { db with
            tables := db.tables.modify index fun t =>
              { t with rows := t.rows.eraseIdxIfInBounds i }
            changes := db.changes ++ Array.replicate db.listeners (.removed p) } := by
  show (match db.find? p with
    | none => _
    | some index => _ : Store Bool) db = _
  cases db.find? p with
  | none => rfl
  | some index =>
    dsimp only
    cases (db.rowsAt index).findIdx? (·.id == id) <;> rfl

/-- Removing does not fail. -/
theorem remove_ne_error (p : Predicate) (id : Nat) (db : Database) (e : Failure) (db' : Database) :
    remove p id db ≠ .error e db' := by
  rw [remove_apply]
  cases db.find? p with
  | none => nofun
  | some index =>
    dsimp only
    cases (db.rowsAt index).findIdx? (·.id == id) <;> nofun

theorem evolves_remove (p : Predicate) (id : Nat) : Store.Evolves (remove p id) := by
  refine ⟨fun db => ?_⟩
  unfold Store.after
  rw [remove_apply]
  cases db.find? p with
  | none => exact .refl db
  | some index =>
    dsimp only
    cases (db.rowsAt index).findIdx? (·.id == id) with
    | none => exact .refl db
    | some i =>
      have herase := evolves_shrink db index
        (fun t => { t with rows := t.rows.eraseIdxIfInBounds i }) (fun _ => rfl) fun t => by
          rw [Array.toList_eraseIdxIfInBounds]
          exact List.eraseIdx_sublist ..
      exact herase.trans (.of_eq rfl rfl le_rfl rfl)

/-- Removing by number tells whether such a row was there, and removes it
alone. -/
theorem removes_of_remove {db db' : Database} (hn : db.Numbered) {p : Predicate} {id : Nat}
    (h : remove p id db = .ok true db') : ∃ row, row.id = id ∧ Removes p row db db' := by
  rw [remove_apply] at h
  cases hi : db.find? p with
  | none =>
    rw [hi] at h
    cases h
  | some index =>
    obtain ⟨t, ht, hp⟩ := (hn.place p index).1 hi
    have hrows : db.rowsAt index = t.rows := by rw [rowsAt, ht]
    rw [hi] at h
    dsimp only at h
    rw [hrows] at h
    cases hfound : t.rows.findIdx? (·.id == id) with
    | none =>
      rw [hfound] at h
      cases h
    | some i =>
      rw [hfound] at h
      cases h
      obtain ⟨hlt, hid, -⟩ := Array.findIdx?_eq_some_iff_getElem.1 hfound
      have hsplit : t.rows.toList = t.rows.toList.take i ++ t.rows[i] :: t.rows.toList.drop (i + 1) := by
        rw [← Array.getElem_toList, List.getElem_cons_drop, List.take_append_drop]
      refine ⟨t.rows[i], beq_iff_eq.1 hid,
        ⟨t.rows.toList.take i, t.rows.toList.drop (i + 1), ?_, ?_⟩, fun p' hp' => ?_, rfl⟩
      · rw [rowsOf_eq hi ht]
        exact hsplit
      · refine (congrArg Array.toList (rowsOf_eq (i := index)
          (t := { t with rows := t.rows.eraseIdxIfInBounds i }) ?_ ?_)).trans ?_
        · exact hi
        · rw [Array.getElem?_modify, if_pos rfl, ht]
          rfl
        · rw [Array.toList_eraseIdxIfInBounds]
          exact List.eraseIdx_eq_take_drop_succ ..
      · exact rowsOf_modify hn hi _ hp'

/-- A number that no row of the predicate has is not removed. -/
theorem not_mem_of_remove {db db' : Database} (hn : db.Numbered) {p : Predicate} {id : Nat}
    (h : remove p id db = .ok false db') : db' = db ∧ ∀ row ∈ db.rowsOf p, row.id ≠ id := by
  rw [remove_apply] at h
  cases hi : db.find? p with
  | none =>
    rw [hi] at h
    cases h
    refine ⟨rfl, fun row hrow => ?_⟩
    obtain ⟨i, t, hfind, -⟩ := mem_rowsOf hrow
    exact nomatch hi.symm.trans hfind
  | some index =>
    obtain ⟨t, ht, hp⟩ := (hn.place p index).1 hi
    have hrows : db.rowsAt index = t.rows := by rw [rowsAt, ht]
    rw [hi] at h
    dsimp only at h
    rw [hrows] at h
    cases hfound : t.rows.findIdx? (·.id == id) with
    | none =>
      rw [hfound] at h
      cases h
      refine ⟨rfl, fun row hrow => ?_⟩
      rw [rowsOf_eq hi ht] at hrow
      simpa using Array.findIdx?_eq_none_iff.1 hfound row hrow
    | some i =>
      rw [hfound] at h
      cases h

end Database

-- ================================================== compiling

/-- Whatever becomes of a computation, it leaves a database that is related to
the one that it was given. -/
def Store.Leaves {α : Type} (R : Database → Database → Prop) (work : Store α) : Prop :=
  ∀ db : Database, R db (work.after db)

/-- A relation between databases that compiling keeps to, since all that it is
made up of does. -/
structure Database.Compilation (R : Database → Database → Prop) : Prop where
  refl : ∀ db, R db db
  trans : ∀ {db db' db''}, R db db' → R db' db'' → R db db''
  table : ∀ p, (tableFor p).Leaves R
  index : ∀ t, (indexTerm t).Leaves R
  clause : freshClause.Leaves R

namespace Database.Compilation

variable {R : Database → Database → Prop}

theorem pure {α : Type} (hR : Compilation R) (a : α) : (Pure.pure a : Store α).Leaves R := hR.refl

theorem throw {α : Type} (hR : Compilation R) (e : Failure) :
    (MonadExcept.throw e : Store α).Leaves R := hR.refl

theorem bind {α β : Type} (hR : Compilation R) {work : Store α} {next : α → Store β}
    (h : work.Leaves R) (hn : ∀ a, (next a).Leaves R) : (work >>= next).Leaves R := fun db => by
  have hw := h db
  rw [Store.after_bind]
  unfold Store.after at hw
  split <;> rename_i hr <;> rw [hr] at hw
  · exact hR.trans hw (hn _ _)
  · exact hw

theorem compileGoal (hR : Compilation R) (name : String) (args : List Term) (next : Code)
    (scopes : Nat) : (Body.compileGoal name args next scopes).Leaves R :=
  hR.bind (hR.bind (hR.table _) fun _ => hR.pure _) fun _ => hR.pure _

theorem branches (hR : Compilation R) (condition : Option Nat) (body : Body) (next : Code)
    (scopes : Nat) : (Body.branches condition body next scopes).Leaves R := by
  induction body generalizing condition next scopes with
  | succeed | cut => exact hR.pure _
  | later t => exact hR.bind (hR.compileGoal _ _ _ _) fun _ => hR.pure _
  | goal name args => exact hR.bind (hR.compileGoal _ _ _ _) fun _ => hR.pure _
  | uncallable t => exact hR.throw _
  | both first rest ihf ihr =>
    exact hR.bind (ihr _ _ _) fun _ => hR.bind (ihf _ _ _) fun _ => hR.pure _
  | either left right ihl ihr =>
    exact hR.bind (ihl _ _ _) fun _ => hR.bind (ihr _ _ _) fun _ => hR.pure _
  | ifThen test consequent iht ihc =>
    exact hR.bind (ihc _ _ _) fun _ => hR.bind (iht _ _ _) fun _ => hR.pure _
  | ifThenElse test consequent alternative iht ihc iha =>
    exact hR.bind (ihc _ _ _) fun _ => hR.bind (iht _ _ _) fun _ => hR.bind (iha _ _ _) fun _ =>
      hR.pure _

theorem assemble (hR : Compilation R) (head : Option Term) (body : Term) (names : List String) :
    (Clause.assemble head body names).Leaves R := by
  have hrest : ∀ predicate : Option Predicate, Store.Leaves R (do
      let code ← (Body.ofTerm none body).compile .succeed
      let head := head.getD Clause.goalHead
      return (⟨← freshClause, predicate, head, body, head.args, code, names⟩ : Clause)) :=
    fun _ => hR.bind (hR.bind (hR.branches _ _ _ _) fun _ => hR.pure _) fun _ =>
      hR.bind hR.clause fun _ => hR.pure _
  unfold Clause.assemble
  cases head with
  | none => exact hR.bind (hR.pure _) hrest
  | some head =>
    dsimp only
    split
    · exact hR.bind (hR.pure _) hrest
    · exact hR.bind (hR.throw _) hrest

theorem compile (hR : Compilation R) (t : Term) : (Clause.compile t).Leaves R := by
  refine hR.bind (hR.index t) fun r => ?_
  dsimp only
  split
  · exact hR.assemble _ _ _
  · split <;> exact hR.assemble _ _ _

end Database.Compilation

theorem Database.compilation_evolves : Compilation Database.Evolves where
  refl := .refl
  trans := .trans
  table p := (evolves_tableFor p).ends
  index t := (evolves_indexTerm t).ends
  clause := evolves_freshClause.ends

namespace Clause

theorem evolves_assemble (head : Option Term) (body : Term) (names : List String) :
    Store.Evolves (assemble head body names) := ⟨Database.compilation_evolves.assemble head body names⟩

theorem evolves_compile (t : Term) : Store.Evolves (compile t) :=
  ⟨Database.compilation_evolves.compile t⟩

theorem evolves_ofGoal (goal : Term) (template : Bool) : Store.Evolves (ofGoal goal template) := by
  unfold ofGoal
  split
  · exact evolves_assemble _ _ _
  · exact .bind (Database.evolves_indexTerm goal) fun _ => evolves_assemble _ _ _

end Clause

namespace Database

theorem evolves_addClause (t : Term) (position : Position) :
    Store.Evolves (addClause t position) := by
  refine .bind (Clause.evolves_compile t) fun clause => ?_
  split
  · exact .throw _
  · exact .bind (evolves_insert _ _ _) fun _ => .pure _

theorem evolves_compileGoal (goal : Term) (template : Bool) :
    Store.Evolves (compileGoal goal template) := by
  have hcache : ∀ f : Database → List (Term × Clause),
      Store.Evolves (modify fun db => { db with cache := f db }) :=
    fun _ => .modify fun _ => .of_eq rfl rfl le_rfl rfl
  unfold compileGoal
  split
  · refine .get_bind fun db => ?_
    split
    · exact (Store.Evolves.bind (hcache _) fun _ => .pure _).ends db
    · exact (Store.Evolves.bind (Clause.evolves_ofGoal goal template) fun _ =>
        .bind (hcache _) fun _ => .pure _).ends db
  · exact Clause.evolves_ofGoal goal template

end Database

-- ================================================== requests and the library

theorem Request.evolves_perform (r : Request) : Store.Evolves r.perform := by
  cases r with
  | assert clause position => exact .bind (Database.evolves_addClause _ _) fun _ => .pure _
  | register predicate procedure => exact Database.evolves_register predicate procedure
  | remove predicate row => exact .bind (Database.evolves_remove _ _) fun _ => .pure _
  | abolish predicate => exact .bind (Database.evolves_abolish _) fun _ => .pure _
  | setFlag name value => exact Database.evolves_setFlag name value
  | defineOperator priority kind name => exact Database.evolves_defineOperator priority kind name
  | defer producer => exact .bind (Database.evolves_newThunk _) fun _ => .pure _
  | write text => exact Database.evolves_write text
  | listen => exact .modify fun _ => .of_eq rfl rfl le_rfl rfl
  | redirect broken => exact .modify fun _ => .of_eq rfl rfl le_rfl rfl

theorem Store.Evolves.forIn {α : Type} (items : List α) {body : α → Store (ForInStep PUnit)}
    (h : ∀ i, (body i).Evolves) : Store.Evolves (forIn items PUnit.unit fun i _ => body i) := by
  induction items with
  | nil => exact .pure _
  | cons i items ih =>
    rw [List.forIn_cons]
    refine (h i).bind fun r => ?_
    cases r with
    | done _ => exact .pure _
    | yield _ => exact ih

theorem Library.evolves_install : Store.Evolves Library.install :=
  .bind (.forIn _ fun _ => .bind (Database.evolves_insert _ _ _) fun _ => .pure _) fun _ =>
    .bind (.forIn _ fun _ => .bind (Database.evolves_addClause _ _) fun _ => .pure _) fun _ =>
      .pure _

namespace Database

theorem numbered_empty (capacity : Nat) : (empty capacity).Numbered := by
  refine ⟨fun p i => ?_, fun row hrow => absurd hrow List.not_mem_nil, List.nodup_nil⟩
  simp [find?, empty]

theorem numbered_make (builtins : Bool) (capacity : Nat) : (make builtins capacity).Numbered := by
  have hempty := numbered_empty capacity
  cases builtins with
  | false => exact hempty
  | true =>
    have hinstalled := (Library.evolves_install.ends (empty capacity)).numbered hempty
    unfold Store.after at hinstalled
    unfold make
    simp only [if_true]
    split <;> rename_i hr <;> rw [hr] at hinstalled <;> exact hinstalled

end Database

end LogicMachine
