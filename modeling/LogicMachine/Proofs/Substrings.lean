/-
The parts of a text.

`sub_atom/5` goes through the parts of a text by where they start, and those that
start at the same place by how long they are. A cursor knows the start and the end
of the part to try next, and what it has still to come to is a list of such spans
(`Alternatives.spans`). If the length of the part is known, parts of other lengths
are left out; the pattern cannot be those (`Atoms.Sought.not_canBe`), so the
solutions are the same as if all parts were gone through
(`Atoms.Sought.exists_solutions`).

`atom_concat/3` goes through the ways to divide a text in the same manner
(`Atoms.atomConcat_opens`).
-/
import LogicMachine.Proofs.Arguments

namespace LogicMachine

namespace Alternatives

-- ================================================== spans

/-- The start and the end of each part that is still to come. -/
def spans (size start stop : Nat) (length : Option Nat) : List (Nat × Nat) :=
  if stop ≤ size then
    (start, stop)
      :: spans size (advance size start stop length).1 (advance size start stop length).2 length
  else []
termination_by (size + 1 - start, size + 1 - stop)
decreasing_by
  rw [Prod.lex_def]
  cases length with
  | some length =>
    simp only [advance]
    omega
  | none =>
    simp only [advance]
    split
    · exact .inr ⟨rfl, by dsimp only; omega⟩
    · dsimp only
      omega

/-- One span comes before another. -/
abbrev Sooner : Nat × Nat → Nat × Nat → Prop := Prod.Lex (· < ·) (· < ·)

variable {size start stop length b e : Nat} {known : Option Nat}

theorem sooner_advance (size start stop : Nat) (known : Option Nat) :
    Sooner (start, stop) (advance size start stop known) := by
  rw [Sooner, Prod.lex_def]
  unfold advance
  cases known with
  | some length => exact .inl (Nat.lt_succ_self start)
  | none =>
    dsimp only
    split
    · exact .inr ⟨rfl, Nat.lt_succ_self stop⟩
    · exact .inl (Nat.lt_succ_self start)

/-- No span comes twice, and they come in order. -/
theorem pairwise_spans (size start stop : Nat) (known : Option Nat) :
    (spans size start stop known).Pairwise Sooner
      ∧ ∀ p ∈ spans size start stop known, p = (start, stop) ∨ Sooner (start, stop) p := by
  induction start, stop using spans.induct size known with
  | case1 start stop hle ih =>
    rw [spans, if_pos hle]
    have hafter : ∀ p ∈ spans size (advance size start stop known).1
        (advance size start stop known).2 known, Sooner (start, stop) p := by
      intro p hp
      have hfirst := sooner_advance size start stop known
      rcases ih.2 p hp with rfl | hlater
      · exact hfirst
      · exact Trans.trans hfirst hlater
    refine ⟨.cons hafter ih.1, fun p hp => ?_⟩
    rcases List.mem_cons.1 hp with rfl | hp
    · exact .inl rfl
    · exact .inr (hafter p hp)
  | case2 start stop hgt =>
    rw [spans, if_neg hgt]
    exact ⟨.nil, fun p hp => absurd hp List.not_mem_nil⟩

/-- The spans from one on, if the length is free. -/
theorem mem_spans_none (h : start ≤ stop) (hend : stop ≤ size ∨ size < start) :
    (b, e) ∈ spans size start stop none
      ↔ b ≤ e ∧ e ≤ size ∧ (start < b ∨ start = b ∧ stop ≤ e) := by
  induction start, stop using spans.induct size none with
  | case1 start stop hle ih =>
    rw [spans, if_pos hle, List.mem_cons, Prod.mk.injEq]
    unfold advance at ih ⊢
    dsimp only at ih ⊢
    split at ih
    · rename_i hlt
      rw [if_pos hlt, ih (Nat.le_succ_of_le h) (.inl hlt)]
      omega
    · rename_i hlt
      rw [if_neg hlt, ih (Nat.le_refl _) (by omega)]
      omega
  | case2 start stop hgt =>
    rw [spans, if_neg hgt]
    simp only [List.not_mem_nil, false_iff]
    omega

/-- The spans of a fixed length. -/
theorem mem_spans_some :
    (b, e) ∈ spans size start (start + length) (some length)
      ↔ start ≤ b ∧ e = b + length ∧ e ≤ size := by
  induction hn : size + 1 - start generalizing start with
  | zero =>
    rw [spans, if_neg (by omega)]
    simp only [List.not_mem_nil, false_iff]
    omega
  | succ n ih =>
    rw [spans]
    split
    · rw [List.mem_cons, show advance size start (start + length) (some length)
        = (start + 1, start + 1 + length) from rfl, ih (by omega), Prod.mk.injEq]
      omega
    · simp only [List.not_mem_nil, false_iff]
      omega

/-- To leave out the spans of other lengths is to take those of this length. -/
theorem spans_some (size length : Nat) :
    spans size 0 length (some length)
      = (spans size 0 0 none).filter fun p => p.2 - p.1 = length := by
  have hsome := (pairwise_spans size 0 length (some length)).1
  have hnone := (pairwise_spans size 0 0 none).1
  refine hsome.eq_of_mem_iff (hnone.filter _) fun ⟨b, e⟩ => ?_
  have hstart : spans size 0 length (some length) = spans size 0 (0 + length) (some length) := by
    rw [Nat.zero_add]
  rw [hstart, mem_spans_some, List.mem_filter, mem_spans_none (Nat.le_refl 0) (.inl size.zero_le), decide_eq_true_eq]
  dsimp only
  omega

theorem spans_known (size : Nat) (known : Option Nat) :
    spans size 0 (known.getD 0) known
      = (spans size 0 0 none).filter fun p => known.all (p.2 - p.1 = ·) := by
  cases known with
  | none => exact (List.filter_eq_self.2 fun _ _ => rfl).symm
  | some length => exact spans_some size length

-- ================================================== rows

/-- What a part is described by: how many characters come before it, how many it has,
how many come after it, and its text. -/
def described (text : Array Char) (p : Nat × Nat) : List Term :=
  [.ofNat p.1, .ofNat (p.2 - p.1), .ofNat (text.size - p.2),
    .atom (String.ofList (text.extract p.1 p.2).toList)]

theorem isAtomic_described {text : Array Char} {p : Nat × Nat} :
    ∀ u ∈ described text p, u.isAtomic = true := by
  intro u hu
  simp only [described, List.mem_cons, List.not_mem_nil, or_false] at hu
  obtain rfl | rfl | rfl | rfl := hu <;> rfl

theorem next?_substrings {text : Array Char} (h : stop ≤ text.size) (target : Term) :
    next? (.substrings text start stop known target)
      = some (.candidate target (.compound .plain "sub" (described text (start, stop))),
        .substrings text (advance text.size start stop known).1
          (advance text.size start stop known).2 known target) := by
  rw [next?, if_pos h]
  rfl

theorem lists_substrings {ts : List Term} (hts : ts.length = 4) (text : Array Char) (start stop : Nat)
    (known : Option Nat) (form : Form) :
    Lists ts (.substrings text start stop known (.compound form "sub" ts))
      ((spans text.size start stop known).map (described text)) := by
  induction start, stop using spans.induct text.size known with
  | case1 start stop hle ih =>
    rw [spans, if_pos hle, List.map_cons]
    refine .cons trivial ?_ (next?_substrings hle _) (.inl rfl) (.compound hts.symm) ?_ ih
    · simpa [hasNext] using hle
    · exact isAtomic_described
  | case2 start stop hgt =>
    rw [spans, if_neg hgt]
    refine .nil trivial ?_ ?_
    · simpa [hasNext] using hgt
    · rw [next?, if_neg hgt]

end Alternatives

-- ================================================== the parts of a text

namespace Atoms

open Alternatives (spans described)

/-- All parts of a text, by where they start and then by how long they are. -/
def parts (text : String) : List (Nat × Nat) := spans text.toList.toArray.size 0 0 none

/-- There is one part for every start and every end after it. -/
theorem mem_parts {text : String} {b e : Nat} : (b, e) ∈ parts text ↔ b ≤ e ∧ e ≤ text.length := by
  rw [parts, Alternatives.mem_spans_none (Nat.le_refl 0) (.inl (Nat.zero_le _)), List.size_toArray,
    String.length_toList]
  omega

/-- They come in order, and each once. -/
theorem pairwise_parts (text : String) : (parts text).Pairwise Alternatives.Sooner :=
  (Alternatives.pairwise_spans _ 0 0 none).1

/-- What the parts are described by, or those of a length that is known. -/
def rows (text : String) (known : Option Nat) : List (List Term) :=
  ((parts text).filter fun p => known.all (p.2 - p.1 = ·)).map (described text.toList.toArray)

theorem rows_none (text : String) :
    rows text none = (parts text).map (described text.toList.toArray) :=
  congrArg (List.map _) (List.filter_eq_self.2 fun _ _ => rfl)

theorem length_rows_le (text : String) (known : Option Nat) :
    (rows text known).length ≤ (rows text none).length := by
  rw [rows_none, rows, List.length_map, List.length_map]
  exact List.length_filter_le ..

/-- A length or offset that is sought, or that nothing is said about. -/
inductive Offset : Term → Option Nat → Prop
  | any {u : Term} (h : u.isVar = true) : Offset u none
  | fixed {i : Int64} (h : 0 ≤ i) : Offset (.int i) (some i.toInt.toNat)

variable {env : Env} {m m' : Machine} {t u : Term} {known : Option Nat} {text : String} {code : Code}

theorem atomText_ok (h : atomText t env m = .ok text m') (henv : env.Proper)
    (hq : m.query.Sound true) (hdb : m.db.Sound) (ht : t.Live (m.query.frames.world true)) :
    ∃ db, m' = ⟨db, m.query⟩ ∧ m.Finds t (.atom text) db := by
  obtain ⟨u, m₁, hstrip, h₁⟩ := Act.bind_ok h
  obtain ⟨hatom, rfl⟩ := Act.checked_ok h₁
  exact Term.atom_of_asAtom hatom ▸ Act.finds_strip hstrip henv hq hdb ht

theorem optionalLength_ok (h : optionalLength t env m = .ok known m') (henv : env.Proper)
    (hq : m.query.Sound true) (hdb : m.db.Sound) (ht : t.Live (m.query.frames.world true)) :
    ∃ db u, m' = ⟨db, m.query⟩ ∧ m.Finds t u db ∧ Offset u known := by
  obtain ⟨u, m₁, hstrip, h₁⟩ := Act.bind_ok h
  obtain ⟨db, rfl, hfinds⟩ := Act.finds_strip hstrip henv hq hdb ht
  split at h₁
  · rename_i hvar
    cases h₁
    exact ⟨db, u, rfl, hfinds, .any hvar⟩
  · obtain ⟨i, m₂, hchecked, h₂⟩ := Act.bind_ok h₁
    obtain ⟨hint, rfl⟩ := Act.checked_ok hchecked
    obtain rfl := Term.int_of_asInt hint
    split at h₂
    · cases h₂
    · rename_i hlt
      cases h₂
      exact ⟨db, _, rfl, hfinds, .fixed (Int64.not_lt.1 hlt)⟩

-- ================================================== looking for a part

/-- The arguments that the call puts into its pattern can be read. -/
structure Readable (m : Machine) (before length after sub : Term) : Prop where
  query : m.query.Sound true
  before : before.Live (m.query.frames.world true)
  length : length.Live (m.query.frames.world true)
  after : after.Live (m.query.frames.world true)
  sub : sub.Live (m.query.frames.world true)

/-- `sub_atom/5` has looked at its arguments, and has done nothing else. -/
structure Sought (m : Machine) (a before length after sub : Term) (text : String) (part : Term)
    (known : Option Nat) (m' : Machine) : Prop where
  query : m'.query = m.query
  evolves : m.db.Evolves m'.db
  sound : m'.db.Sound
  whole : m'.StandsFor a (.atom text)
  start : ∃ u k, Offset u k ∧ m'.StandsFor before u
  count : ∃ u k, Offset u k ∧ m'.StandsFor length u ∧ (part.isVar = true → known = k)
  rest : ∃ u k, Offset u k ∧ m'.StandsFor after u
  found : m'.StandsFor sub part
  exact : part.isVar = true ∨ ∃ s, part = .atom s ∧ known = some s.length

variable {a before length after sub part : Term}

theorem Sought.later {db : Database} (h : Sought m a before length after sub text part known m')
    (he : m'.db.Evolves db) (hsound : db.Sound) :
    Sought m a before length after sub text part known ⟨db, m'.query⟩ := by
  obtain ⟨u, k, hk, hu⟩ := h.start
  obtain ⟨v, l, hl, hv, hknown⟩ := h.count
  obtain ⟨w, n, hn, hw⟩ := h.rest
  exact ⟨h.query, h.evolves.trans he, hsound, h.whole.later rfl he, ⟨u, k, hk, hu.later rfl he⟩,
    ⟨v, l, hl, hv.later rfl he, hknown⟩, ⟨w, n, hn, hw.later rfl he⟩, h.found.later rfl he, h.exact⟩

/-- The point that a call leaves. -/
theorem leave_ok (env : Env) {ts : List Term} (hts : ts ≠ []) (hdb : m.db.Sound)
    {chars : Array Char} {stop : Nat} (h : (do
      let target ← Database.term "sub" ts
      let _ ← Act.pushChoice (.substrings chars 0 stop known target)
      return .fail : Act Code) env m = .ok code m') :
    ∃ form db, (form = .plain → ts.all Term.isPlain = true) ∧ m.db.Evolves db ∧ db.Sound
      ∧ code = .fail
      ∧ m' = ⟨db, m.query.leaving (.substrings chars 0 stop known (.compound form "sub" ts))⟩ := by
  obtain ⟨target, m₁, hterm, h₁⟩ := Act.bind_ok h
  obtain ⟨db, form, rfl, rfl, he, hsound, hform⟩ := Act.term_ok hterm hts hdb
  cases h₁
  exact ⟨form, db, hform, he, hsound, rfl, rfl⟩

/-- If the call returns at all, its arguments are what they are to be, and the call has
left a point. -/
theorem subAtom_ok (henv : env.Proper) (hdb : m.db.Sound) (hread : Readable m before length after sub)
    (ha : a.Live (m.query.frames.world true))
    (h : subAtom a before length after sub env m = .ok code m') :
    ∃ text part known form m₁, Sought m a before length after sub text part known m₁
      ∧ (form = .plain → [before, length, after, part].all Term.isPlain = true) ∧ code = .fail
      ∧ m' = ⟨m₁.db, m₁.query.leaving (.substrings text.toList.toArray 0 (known.getD 0) known
        (.compound form "sub" [before, length, after, part]))⟩ := by
  obtain ⟨hq, hbefore, hlength, hafter, hsub⟩ := hread
  obtain ⟨text, m₁, hact₁, h₁⟩ := Act.bind_ok h
  obtain ⟨db₁, rfl, he₁, hsound₁, htext⟩ := atomText_ok hact₁ henv hq hdb ha
  obtain ⟨k, m₂, hact₂, h₂⟩ := Act.bind_ok h₁
  obtain ⟨db₂, u, rfl, ⟨he₂, hsound₂, hu⟩, hk⟩ := optionalLength_ok hact₂ henv hq hsound₁ hbefore
  obtain ⟨l, m₃, hact₃, h₃⟩ := Act.bind_ok h₂
  obtain ⟨db₃, v, rfl, ⟨he₃, hsound₃, hv⟩, hl⟩ := optionalLength_ok hact₃ henv hq hsound₂ hafter
  obtain ⟨n, m₄, hact₄, h₄⟩ := Act.bind_ok h₃
  obtain ⟨db₄, w, rfl, ⟨he₄, hsound₄, hw⟩, hn⟩ := optionalLength_ok hact₄ henv hq hsound₃ hlength
  obtain ⟨part, m₅, hact₅, h₅⟩ := Act.bind_ok h₄
  obtain ⟨db₅, rfl, he₅, hsound₅, hpart⟩ := Act.finds_strip hact₅ henv hq hsound₄ hsub
  -- what was found holds on to the end
  have hsought : ∀ known, (part.isVar = true → known = n) →
      (part.isVar = true ∨ ∃ s, part = .atom s ∧ known = some s.length) →
      Sought m a before length after sub text part known ⟨db₅, m.query⟩ := by
    have he₂₅ := ((he₃.trans he₄).trans he₅)
    intro known hcount hexact
    exact ⟨rfl, (he₁.trans he₂).trans he₂₅, hsound₅, htext.later rfl (he₂.trans he₂₅),
      ⟨u, k, hk, hu.later rfl he₂₅⟩, ⟨w, n, hn, hw.later rfl he₅, hcount⟩,
      ⟨v, l, hl, hv.later rfl (he₄.trans he₅)⟩, hpart, hexact⟩
  split at h₅
  · rename_i hvar
    obtain ⟨form, db, hform, he, hsound, hcode, rfl⟩ :=
      leave_ok (m := ⟨db₅, m.query⟩) env (List.cons_ne_nil _ _) hsound₅ h₅
    exact ⟨text, part, n, form, ⟨db, m.query⟩,
      (hsought n (fun _ => rfl) (.inl hvar)).later he hsound, hform, hcode, rfl⟩
  · rename_i hvar
    obtain ⟨s, m₆, hact₆, h₆⟩ := Act.bind_ok h₅
    obtain ⟨hatom, rfl⟩ := Act.checked_ok hact₆
    obtain rfl := Term.atom_of_asAtom hatom
    obtain ⟨form, db, hform, he, hsound, hcode, rfl⟩ :=
      leave_ok (m := ⟨db₅, m.query⟩) env (List.cons_ne_nil _ _) hsound₅ h₆
    exact ⟨text, .atom s, some s.length, form, ⟨db, m.query⟩,
      (hsought _ (fun hv => absurd hv hvar) (.inr ⟨s, rfl, rfl⟩)).later he hsound, hform, hcode,
      rfl⟩

-- ================================================== the solutions

/-- The call leaves a point with all parts of the length that is known, if one is. -/
theorem Sought.opens (h : Sought m a before length after sub text part known m')
    (hread : Readable m before length after sub) {form : Form}
    (hform : form = .plain → [before, length, after, part].all Term.isPlain = true) :
    ∃ enough, m'.Opens enough [before, length, after, part] (rows text known)
      ⟨m'.db, m'.query.leaving (.substrings text.toList.toArray 0 (known.getD 0) known
        (.compound form "sub" [before, length, after, part]))⟩ := by
  obtain ⟨hq, hbefore, hlength, hafter, hsub⟩ := hread
  rw [← h.query] at hq hbefore hlength hafter hsub
  obtain ⟨_, _, -, hstart⟩ := h.start
  obtain ⟨_, _, -, hcount, -⟩ := h.count
  obtain ⟨_, _, -, hrest⟩ := h.rest
  obtain ⟨_, hbefore'⟩ := hstart.settled
  obtain ⟨_, hlength'⟩ := hcount.settled
  obtain ⟨_, hafter'⟩ := hrest.settled
  obtain ⟨hresolve, hplain⟩ := h.found.resolve_eq hq h.sound hsub
  have hpart : part.Live (m'.query.frames.world true) := h.found.live hq h.sound hsub
  have hready := Act.Ready.cons hbefore hbefore' (.cons hlength hlength' (.cons hafter hafter'
    (.cons hpart (.plain fun id hid => hplain id (hresolve.symm.trans hid)) .nil)))
  have htarget : (Term.compound form "sub" [before, length, after, part]).Live
      (m'.query.frames.world true) :=
    Term.fits_compound.2 ⟨hform, fun t ht => (hready.mem ht).1⟩
  refine ⟨_, ⟨hq, h.sound, hready⟩, _, ?_, ?_, rfl⟩
  · rw [rows, parts, ← Alternatives.spans_known]
    exact Alternatives.lists_substrings rfl _ _ _ _ form
  · exact htarget

/-- A part of another length than the known one is no solution. -/
theorem Sought.not_canBe (h : Sought m a before length after sub text part known m')
    (htext : text.length < 2 ^ 63) {p : Nat × Nat} (hp : p ∈ parts text)
    (hother : (known.all (p.2 - p.1 = ·)) = false) :
    ¬ m'.CanBe [before, length, after, part] (described text.toList.toArray p) := by
  obtain ⟨b, e⟩ := p
  obtain ⟨-, hle⟩ := mem_parts.1 hp
  cases known with
  | none => cases hother
  | some l =>
    have hne : e - b ≠ l := by simpa using hother
    rintro ⟨σ, hall⟩
    obtain ⟨-, hlength, -, hpart, -⟩ : _ ∧ _ ∧ _ ∧ _ ∧ True := by
      simpa [described] using hall
    rcases h.exact with hvar | ⟨s, rfl, hs⟩
    · obtain ⟨u, k, hk, hu, hcount⟩ := h.count
      obtain rfl := hcount hvar
      cases hk with
      | @fixed i hi =>
        have heq : Int64.ofNat (e - b) = i := by
          have := hu.eq_of_denotes rfl hlength
          simpa [Term.ofNat, Term.int] using this
        have htoInt : (Int64.ofNat (e - b)).toInt = ((e - b : Nat) : Int) :=
          Int64.toInt_ofNat_of_lt (by omega)
        rw [heq] at htoInt
        exact hne (by omega)
    · cases hs
      have hatom : m'.StandsFor (.atom s) (.atom s) := .plain rfl fun id => Term.noConfusion
      have heq := hatom.eq_of_denotes rfl hpart
      have hchars : String.ofList ((text.toList.drop b).take (e - b)) = s := Term.atom.inj heq
      have hcount : s.length = min (e - b) (text.length - b) := by
        rw [← hchars, String.length_ofList, List.length_take, List.length_drop, String.length_toList]
      omega

variable {ms : List Machine} {m₁ m₂ : Machine} {enough : Nat}

/-- Whatever the query does in between: the solutions are the parts that the pattern can
be, in order and each once, as if all parts were gone through. -/
theorem Sought.answers (h : Sought m a before length after sub text part known m')
    (htext : text.length < 2 ^ 63)
    (hopens : m'.Opens enough [before, length, after, part] (rows text known) m₁)
    (henv : env.Suffices enough (rows text none).length)
    (hrun : Machine.Redoes env m'.query.nextPoint (Machine.Away m'.query.nextPoint)
      ⟨m₁.db, m₁.query.holding .fail⟩ ms m₂) :
    ∃ left, m'.Answers [before, length, after, part] (rows text none) ms left := by
  obtain ⟨_, hanswers⟩ := hopens.answers (henv.mono (length_rows_le text known)) hrun
  obtain ⟨left, hanswers', -⟩ := hanswers.of_filter fun _ hp => h.not_canBe htext hp
  exact ⟨_, rows_none text ▸ hanswers'⟩

open Classical in
/-- If the query fails each time, the search ends, and the solutions were all parts that
the pattern can be. -/
theorem Sought.exists_solutions (h : Sought m a before length after sub text part known m')
    (htext : text.length < 2 ^ 63)
    (hopens : m'.Opens enough [before, length, after, part] (rows text known) m₁)
    (henv : env.Suffices enough (rows text none).length) :
    ∃ ms m₂, Machine.Redoes env m'.query.nextPoint (fun m m₂ => m₂ = ⟨m.db, m.query.holding .fail⟩)
        ⟨m₁.db, m₁.query.holding .fail⟩ ms m₂
      ∧ List.Forall₂ (m'.Solved [before, length, after, part])
          ((rows text none).filter fun us => decide (m'.CanBe [before, length, after, part] us)) ms
      ∧ ¬ m₂.query.BackTo m'.query.nextPoint := by
  have hsame : (rows text known).filter
        (fun us => decide (m'.CanBe [before, length, after, part] us))
      = (rows text none).filter fun us => decide (m'.CanBe [before, length, after, part] us) := by
    rw [rows_none, rows, List.filter_map, List.filter_map, List.filter_filter]
    refine congrArg (List.map _) (List.filter_congr fun p hp => ?_)
    cases hlength : known.all (p.2 - p.1 = ·) with
    | true => rw [Bool.and_true]
    | false => simpa using h.not_canBe htext hp hlength
  rw [← hsame]
  exact hopens.exists_solutions (henv.mono (length_rows_le text known))

-- ================================================== dividing a text

/-- A text can be divided after any number of its characters. -/
theorem divisions_eq (cs : List Char) :
    divisions cs = (List.range (cs.length + 1)).map fun i => (cs.take i, cs.drop i) := by
  induction cs with
  | nil => rfl
  | cons c cs ih =>
    rw [divisions, ih, List.length_cons, List.range_succ_eq_map (n := cs.length + 1), List.map_cons,
      List.map_map, List.map_map]
    rfl

/-- The two texts that a text is divided into, the shortest first one first. -/
def divided (text : String) : List (List Term) :=
  (List.range (text.length + 1)).map fun i =>
    [.atom (String.ofList (text.toList.take i)), .atom (String.ofList (text.toList.drop i))]

variable {x y whole : Term} {n i j : Nat}

theorem row_divided {us : List Term} (h : us ∈ divided text) :
    us.length = 2 ∧ ∀ u ∈ us, u.isAtomic = true := by
  obtain ⟨k, -, rfl⟩ := List.mem_map.1 h
  exact ⟨rfl, List.forall_mem_cons.2 ⟨rfl, List.forall_mem_singleton.2 rfl⟩⟩

/-- With the whole text known, the call leaves a point with all the ways to divide it. -/
theorem atomConcat_ok (hwhole : m.StandsFor whole (.atom text)) (hs : m.Settled n whole)
    (henv : env.Recalls) (hn : n < env.steps) (hdb : m.db.Sound) :
    ∃ db form, m.db.Evolves db ∧ db.Sound ∧ (form = .plain → [x, y].all Term.isPlain = true)
      ∧ atomConcat x y whole env m = .ok .fail ⟨db, m.query.leaving
        (.candidates ((divided text).map (.compound .plain "+")) (.compound form "+" [x, y]))⟩ := by
  obtain ⟨target, m₁, hterm⟩ :
      ∃ t m₁, (Database.term "+" [x, y] : Act Term) env m = .ok t m₁ := ⟨_, _, rfl⟩
  obtain ⟨db, form, rfl, rfl, he, hsound, hform⟩ := Act.term_ok hterm (List.cons_ne_nil _ _) hdb
  refine ⟨db, form, he, hsound, hform, ?_⟩
  rw [atomConcat, Act.bind_apply, Act.strip_of_standsFor hwhole hs henv hn]
  show ((Database.term "+" [x, y] : Act Term) >>= Act.enumerate _ : Act Code) env m = _
  rw [Act.bind_apply, hterm, divisions_eq, List.map_map, String.length_toList]
  show Act.enumerate ((List.range (text.length + 1)).map fun k => .compound .plain "+"
    [.atom (String.ofList (text.toList.take k)), .atom (String.ofList (text.toList.drop k))])
    (.compound form "+" [x, y]) env ⟨db, m.query⟩ = _
  rw [divided, List.map_map]
  exact Act.enumerate_apply (by simp) _ env ⟨db, m.query⟩

/-- So the goal goes through all the ways to divide the text, the shortest first part
first, if no thunk in its other arguments has to be forced. -/
theorem atomConcat_opens (hwhole : m.StandsFor whole (.atom text)) (hs : m.Settled n whole)
    (henv : env.Recalls) (hn : n < env.steps) (hq : m.query.Sound true) (hdb : m.db.Sound)
    (hx : x.Live (m.query.frames.world true)) (hxs : m.Settled i x)
    (hy : y.Live (m.query.frames.world true)) (hys : m.Settled j y) :
    ∃ db m', atomConcat x y whole env m = .ok .fail m' ∧ m.db.Evolves db
      ∧ Machine.Opens ⟨db, m.query⟩ (1 + (j + 1) + (i + 1)) [x, y] (divided text) m' := by
  obtain ⟨db, form, he, hsound, hform, hcall⟩ := atomConcat_ok hwhole hs henv hn hdb
  have hready : Act.Ready ⟨db, m.query⟩ (1 + (j + 1) + (i + 1)) [x, y] :=
    .cons hx (hxs.later rfl he) (.cons hy (hys.later rfl he) .nil)
  have hposes : Machine.Poses ⟨db, m.query⟩ (1 + (j + 1) + (i + 1)) [x, y] := ⟨hq, hsound, hready⟩
  exact ⟨db, _, hcall, he, hposes.opens_candidates "+" hform (fun us hus => (row_divided hus).1)
    fun us hus => (row_divided hus).2⟩

end Atoms

end LogicMachine
