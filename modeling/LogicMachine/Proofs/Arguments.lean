/-
What the arguments of a goal are known to be.

A goal looks at its arguments before it leaves a choice point, and finds what they
stand for (`Machine.Finds`). Since a thunk keeps its value, nothing is left to be
forced when the goal then puts an argument as it is into a pattern; and what an
argument stands for can be read there, and is what it denotes if it is a constant.
-/
import LogicMachine.Proofs.Enumerating

namespace LogicMachine

theorem Term.int_of_asInt {t : Term} {i : Int64} (h : t.asInt = .ok i) : t = .int i := by
  cases t with
  | number v =>
    cases v with
    | int i =>
      cases h
      rfl
    | float _ => cases h
  | _ => cases h

theorem Term.atom_of_asAtom {t : Term} {name : String} (h : t.asAtom = .ok name) : t = .atom name := by
  cases t with
  | atom name =>
    cases h
    rfl
  | _ => cases h

/-- A thunk that was forced stays so. -/
theorem Machine.Settled.later {m m' : Machine} {t : Term} {n : Nat} (h : m.Settled n t)
    (hq : m'.query = m.query) (hdb : m.db.Evolves m'.db) : m'.Settled n t := by
  induction h with
  | plain h => exact .plain fun id => hq ▸ h id
  | forced h hvalue _ ih => exact .forced (hq ▸ h) (hdb.forced _ _ hvalue) ih

namespace Machine.StandsFor

variable {m m' : Machine} {t u v : Term} {σ : Cell → Term}

theorem settled (h : m.StandsFor t u) : ∃ n, m.Settled n t := by
  induction h with
  | plain h hu => exact ⟨0, .plain fun id => h ▸ hu id⟩
  | forced h hvalue _ ih =>
    obtain ⟨n, hn⟩ := ih
    exact ⟨n + 1, .forced h hvalue hn⟩

theorem live (h : m.StandsFor t u) (hq : m.query.Sound true) (hdb : m.db.Sound)
    (ht : t.Live (m.query.frames.world true)) : u.Live (m.query.frames.world true) := by
  induction h with
  | plain h _ => exact h ▸ hq.arena.resolve_live ht
  | forced _ hvalue _ ih => exact ih (Act.live_of_detached (hdb.forced hvalue))

/-- What a term stands for is behind no reference and no thunk. -/
theorem resolve_eq (h : m.StandsFor t u) (hq : m.query.Sound true) (hdb : m.db.Sound)
    (ht : t.Live (m.query.frames.world true)) :
    m.query.frames.resolve u = u ∧ ∀ id, u ≠ .thunk id := by
  induction h with
  | @plain t u h hu =>
    refine ⟨?_, hu⟩
    cases u with
    | ref c name =>
      have hunbound := hq.resolve_unbound ht h
      simp [Frames.resolve, Frames.follow, hunbound, Frames.Slot.shown]
    | _ => rfl
  | forced _ hvalue _ ih => exact ih (Act.live_of_detached (hdb.forced hvalue))

/-- A term that stands for a constant is no other. -/
theorem eq_of_denotes (h : m.StandsFor t u) (hu : u.isAtomic = true) (hd : m.Denotes σ t v) :
    v = u := by
  induction h with
  | plain h _ =>
    cases hd with
    | any =>
      cases h
      cases hu
    | cell hc =>
      cases h.symm.trans hc
      cases hu
    | same hv => exact hv.symm.trans h
    | forced hid =>
      cases h.symm.trans hid
      cases hu
  | forced h hvalue _ ih => exact ih hu ((denotes_forced h hvalue).1 hd)

end Machine.StandsFor

/-- The goal has looked at an argument: it has found what the argument stands for, and
has done nothing else but to force thunks, which leaves this database. -/
structure Machine.Finds (m : Machine) (t u : Term) (db : Database) : Prop where
  evolves : m.db.Evolves db
  sound : db.Sound
  stands : Machine.StandsFor ⟨db, m.query⟩ t u

namespace Act

variable {env : Env} {m m' : Machine} {t u : Term}

/-- With the thunks forced that it is behind, what an argument stands for is found. -/
theorem strip_of_standsFor (h : m.StandsFor t u) {n : Nat} (hs : m.Settled n t)
    (henv : env.Recalls) (hn : n < env.steps) : strip t env m = .ok u m := by
  have hwithin : ∀ steps, n < steps →
      stripWithin steps (m.query.frames.resolve t) env m = .ok u m := by
    induction hs with
    | plain hplain =>
      intro steps hsteps
      obtain ⟨steps, rfl⟩ := Nat.exists_eq_add_of_le' (Nat.one_le_of_lt hsteps)
      cases h with
      | plain h _ =>
        rw [stripWithin]
        · exact congrArg (EStateM.Result.ok · m) h
        · exact fun id hid => hplain id hid
      | forced h => exact absurd h (hplain _)
    | @forced t value id n hid hvalue _ ih =>
      intro steps hsteps
      obtain ⟨steps, rfl⟩ := Nat.exists_eq_add_of_le' (Nat.one_le_of_lt hsteps)
      cases h with
      | plain h hu => exact absurd (h.symm.trans hid) (hu id)
      | forced h hvalue' hstands =>
        cases h.symm.trans hid
        cases hvalue.symm.trans hvalue'
        rw [hid, stripWithin_thunk, henv _ _ _ hvalue]
        exact ih hstands (by omega) steps (Nat.lt_of_succ_lt_succ hsteps)
  exact hwithin env.steps hn

theorem finds_strip (h : strip t env m = .ok u m') (henv : env.Proper) (hq : m.query.Sound true)
    (hdb : m.db.Sound) (ht : t.Live (m.query.frames.world true)) :
    ∃ db, m' = ⟨db, m.query⟩ ∧ m.Finds t u db := by
  obtain ⟨⟨hquery, hevolves⟩, hstands⟩ := stands_strip henv h
  have hlooked := (reads_strip (μ := .exacting) hq ht).ends env m.db henv.sound hdb
  have h' : strip t env ⟨m.db, m.query⟩ = .ok u m' := h
  rw [h'] at hlooked
  obtain ⟨db, q⟩ := m'
  cases hquery
  exact ⟨db, rfl, hevolves, hlooked.2.1, hstands⟩

/-- Making a compound takes a serial number, and changes nothing else. -/
theorem term_ok {name : String} {args : List Term}
    (h : (Database.term name args : Act Term) env m = .ok t m') (hargs : args ≠ [])
    (hdb : m.db.Sound) : ∃ db form, m' = ⟨db, m.query⟩ ∧ t = .compound form name args
      ∧ m.db.Evolves db ∧ db.Sound ∧ (form = .plain → args.all Term.isPlain = true) := by
  cases h
  refine ⟨_, if args.all Term.isPlain then .plain else .template m.db.nextTerm, rfl, ?_,
    .of_eq rfl rfl le_rfl rfl, { hdb with }, fun hplain => ?_⟩
  · rw [Term.build, if_neg (by simpa using hargs)]
  · split at hplain
    · assumption
    · cases hplain

end Act

end LogicMachine
