/-
The integers of a range.

`between/3` counts from the lower end of a range up to the higher one, which may be
the greatest integer there is; then there is no next one to count to. What a
range has still to come to is a list of integers (`Alternatives.integers`), in
order, each once, and exactly those of the range.

With its third argument unbound `between/3` goes through these integers: whatever
happens in between, the solutions are the first of them, in order
(`Control.Asked.solutions_eq`), and with the last one its point is gone. With the
third argument bound it leaves no point at all, and agrees with the other mode
(`Control.Asked.between_bound`).
-/
import LogicMachine.Proofs.Arguments

namespace LogicMachine

-- ================================================== counting

namespace Alternatives

/-- The integers that a range has still to come to. -/
def integers : Option Int64 → Int64 → List Int64
  | none, _ => []
  | some n, high => (List.range (high.toInt + 1 - n.toInt).toNat).map fun i : Nat =>
    .ofInt (n.toInt + i)

variable {n high v : Int64}

/-- None of them wraps around. -/
theorem map_toInt_integers (n high : Int64) :
    (integers (some n) high).map Int64.toInt
      = (List.range (high.toInt + 1 - n.toInt).toNat).map fun i : Nat => n.toInt + i := by
  rw [integers, List.map_map]
  refine List.map_congr_left fun i hi => ?_
  rw [List.mem_range] at hi
  have hlow := n.le_toInt
  have hhigh := high.toInt_lt
  exact Int64.toInt_ofInt_of_le (by omega) (by omega)

/-- They are exactly those of the range. -/
theorem mem_integers : v ∈ integers (some n) high ↔ n ≤ v ∧ v ≤ high := by
  have hmem : v ∈ integers (some n) high ↔ v.toInt ∈ (integers (some n) high).map Int64.toInt :=
    ⟨List.mem_map_of_mem, fun h => by
      obtain ⟨w, hw, he⟩ := List.mem_map.1 h
      rwa [← Int64.toInt_inj.1 he]⟩
  rw [hmem, map_toInt_integers, List.mem_map, Int64.le_iff_toInt_le, Int64.le_iff_toInt_le]
  constructor
  · rintro ⟨i, hi, he⟩
    rw [List.mem_range] at hi
    omega
  · intro ⟨hlow, hhigh⟩
    exact ⟨(v.toInt - n.toInt).toNat, List.mem_range.2 (by omega), by omega⟩

/-- They come in order, and each once. -/
theorem pairwise_integers (n high : Int64) : (integers (some n) high).Pairwise (· < ·) := by
  have hinj : ((integers (some n) high).map Int64.toInt).Pairwise (· < ·) := by
    rw [map_toInt_integers, List.pairwise_map]
    exact List.pairwise_lt_range.imp fun h => by omega
  exact (List.pairwise_map.1 hinj).imp Int64.lt_iff_toInt_lt.2

theorem integers_of_lt (h : ¬ n ≤ high) : integers (some n) high = [] := by
  refine List.eq_nil_iff_forall_not_mem.2 fun v hv => ?_
  obtain ⟨hlow, hhigh⟩ := mem_integers.1 hv
  exact h (Int64.le_trans hlow hhigh)

/-- The integer that is counted to next, if there is one. -/
def after (n : Int64) : Option Int64 := if n = Database.maxInteger then none else some (n + 1)

/-- Counting goes on by one, and stops at the greatest integer. -/
theorem integers_cons (h : n ≤ high) :
    integers (some n) high = n :: integers (after n) high := by
  have hmax : Database.maxInteger.toInt = 9223372036854775807 := rfl
  have hle := Int64.le_iff_toInt_le.1 h
  have hhigh := high.toInt_lt
  obtain ⟨k, hk⟩ : ∃ k, (high.toInt + 1 - n.toInt).toNat = k + 1 :=
    Nat.exists_eq_succ_of_ne_zero (by omega)
  have hfirst : Int64.ofInt (n.toInt + (0 : Nat)) = n := by simp
  rw [integers, hk, List.range_succ_eq_map, List.map_cons, List.map_map, hfirst]
  congr 1
  by_cases hn : n = Database.maxInteger
  · have hzero : k = 0 := by
      rw [hn, hmax] at hk
      omega
    rw [after, if_pos hn, hzero]
    rfl
  · have hne : n.toInt ≠ 9223372036854775807 := fun he => hn (Int64.toInt_inj.1 (he.trans hmax.symm))
    have hnext : (n + 1).toInt = n.toInt + 1 := by
      have hlow := n.le_toInt
      rw [Int64.toInt_add, show (1 : Int64).toInt = 1 from rfl]
      exact Int.bmod_eq_of_le (by omega) (by omega)
    rw [after, if_neg hn, integers, hnext, show (high.toInt + 1 - (n.toInt + 1)).toNat = k by omega]
    refine List.map_congr_left fun i _ => ?_
    show Int64.ofInt (n.toInt + ((i + 1 : Nat) : Int)) = _
    congr 1
    omega

theorem next?_range (h : n ≤ high) (x : Term) :
    next? (.range (some n) high x) = some (.unify x (.int n), .range (after n) high x) := by
  rw [next?, if_pos h]
  rfl

/-- A range is a cursor over its integers. -/
theorem lists_range (next : Option Int64) (high : Int64) (x : Term) :
    Lists [x] (.range next high x) ((integers next high).map fun v => [.int v]) := by
  have hover : ∀ next, (∀ n, next = some n → ¬ n ≤ high) → Lists [x] (.range next high x) [] := by
    intro next h
    cases next with
    | none => exact .nil trivial rfl rfl
    | some n =>
      have hgt := h n rfl
      refine .nil trivial ?_ ?_
      · simpa [hasNext] using hgt
      · rw [next?, if_neg hgt]
  induction his : integers next high generalizing next with
  | nil =>
    refine hover next fun n hn hle => ?_
    rw [hn, integers_cons hle] at his
    cases his
  | cons v is ih =>
    cases next with
    | none => cases his
    | some n =>
      have hle : n ≤ high := by
        by_contra hgt
        rw [integers_of_lt hgt] at his
        cases his
      rw [integers_cons hle] at his
      obtain ⟨rfl, hrest⟩ := List.cons.inj his
      refine .cons trivial ?_ (next?_range hle x) (.inr rfl) .single ?_ (ih (after n) hrest)
      · simpa [hasNext] using hle
      · exact List.forall_mem_singleton.2 rfl

end Alternatives

-- ================================================== the arguments

namespace Control

/-- What the upper end of a range may be written as. -/
inductive Ends : Term → Int64 → Prop
  | inf : Ends (.atom "inf") Database.maxInteger
  | infinite : Ends (.atom "infinite") Database.maxInteger
  | int (i : Int64) : Ends (.int i) i

/-- `between/3` has looked at its arguments, and has done nothing else. -/
structure Asked (m : Machine) (low high x : Term) (n top : Int64) (x' : Term) (m' : Machine) :
    Prop where
  query : m'.query = m.query
  evolves : m.db.Evolves m'.db
  sound : m'.db.Sound
  low : m'.StandsFor low (.int n)
  high : ∃ u, Ends u top ∧ m'.StandsFor high u
  item : m'.StandsFor x x'

variable {env : Env} {m m' : Machine} {low high x x' t : Term} {n top : Int64} {code : Code}

theorem upperEnd_ok (h : upperEnd t env m = .ok top m') (henv : env.Proper)
    (hq : m.query.Sound true) (hdb : m.db.Sound) (ht : t.Live (m.query.frames.world true)) :
    ∃ db u, m' = ⟨db, m.query⟩ ∧ m.Finds t u db ∧ Ends u top := by
  obtain ⟨u, m₁, hstrip, h⟩ := Act.bind_ok h
  obtain ⟨db, rfl, hfinds⟩ := Act.finds_strip hstrip henv hq hdb ht
  split at h
  · cases h
    exact ⟨db, _, rfl, hfinds, .inf⟩
  · cases h
    exact ⟨db, _, rfl, hfinds, .infinite⟩
  · obtain ⟨hint, rfl⟩ := Act.checked_ok h
    exact ⟨db, u, rfl, hfinds, Term.int_of_asInt hint ▸ .int top⟩

/-- If the call returns at all, the ends are integers, and either the third argument
is one as well and was compared with them, or it is a variable and the call has left
a point. -/
theorem between_ok (henv : env.Proper) (hq : m.query.Sound true) (hdb : m.db.Sound)
    (hlow : low.Live (m.query.frames.world true)) (hhigh : high.Live (m.query.frames.world true))
    (hx : x.Live (m.query.frames.world true)) (h : between low high x env m = .ok code m') :
    ∃ n top x' m₁, Asked m low high x n top x' m₁
      ∧ ((∃ v, x' = .int v ∧ code = .ofBool (n ≤ v && v ≤ top) ∧ m' = m₁)
        ∨ x'.isVar = true ∧ code = .fail
          ∧ m' = ⟨m₁.db, m₁.query.leaving (.range (some n) top x')⟩) := by
  obtain ⟨u, m₁, hact₁, h₁⟩ := Act.bind_ok h
  obtain ⟨db₁, rfl, he₁, hsound₁, hn⟩ := Act.finds_strip hact₁ henv hq hdb hlow
  obtain ⟨n, m₂, hact₂, h₂⟩ := Act.bind_ok h₁
  obtain ⟨hint, rfl⟩ := Act.checked_ok hact₂
  obtain rfl := Term.int_of_asInt hint
  obtain ⟨top, m₃, hact₃, h₃⟩ := Act.bind_ok h₂
  obtain ⟨db₃, w, rfl, ⟨he₃, hsound₃, htop⟩, hends⟩ := upperEnd_ok hact₃ henv hq hsound₁ hhigh
  obtain ⟨x', m₄, hact₄, h₄⟩ := Act.bind_ok h₃
  obtain ⟨db₄, rfl, he₄, hsound₄, hx'⟩ := Act.finds_strip hact₄ henv hq hsound₃ hx
  refine ⟨n, top, x', ⟨db₄, m.query⟩, ⟨rfl, (he₁.trans he₃).trans he₄, hsound₄,
    hn.later rfl (he₃.trans he₄), ⟨w, hends, htop.later rfl he₄⟩, hx'⟩, ?_⟩
  split at h₄
  · obtain ⟨v, m₅, hact₅, h₅⟩ := Act.bind_ok h₄
    obtain ⟨hint, rfl⟩ := Act.checked_ok hact₅
    cases h₅
    exact .inl ⟨v, Term.int_of_asInt hint, rfl, rfl⟩
  · rename_i hvar
    cases h₄
    exact .inr ⟨by simpa using hvar, rfl, rfl⟩

/-- With the thunks forced that the arguments are behind, they are looked at and
nothing happens. -/
theorem Asked.between_eq (h : Asked m low high x n top x' m) (henv : env.Recalls) {a b c : Nat}
    (hlow : m.Settled a low) (hhigh : m.Settled b high) (hx : m.Settled c x)
    (ha : a < env.steps) (hb : b < env.steps) (hc : c < env.steps) :
    between low high x env m = (if !x'.isVar then do
        let v ← Act.checked x'.asInt
        return .ofBool (n ≤ v && v ≤ top)
      else do
        let _ ← Act.pushChoice (.range (some n) top x')
        return .fail : Act Code) env m := by
  obtain ⟨u, hends, hu⟩ := h.high
  have hupper : upperEnd high env m = .ok top m := by
    rw [upperEnd, Act.bind_apply, Act.strip_of_standsFor hu hhigh henv hb]
    cases hends <;> rfl
  rw [between, Act.bind_apply, Act.strip_of_standsFor h.low hlow henv ha]
  show (upperEnd high >>= fun top => _ : Act Code) env m = _
  rw [Act.bind_apply, hupper]
  show (Act.strip x >>= fun x' => _ : Act Code) env m = _
  rw [Act.bind_apply, Act.strip_of_standsFor h.item hx henv hc]

/-- With an integer for its third argument the call succeeds just if that is one of the
range; it binds nothing and leaves no point. -/
theorem Asked.between_bound {v : Int64} (h : Asked m low high x n top (.int v) m) (henv : env.Recalls)
    {a b c : Nat} (hlow : m.Settled a low) (hhigh : m.Settled b high) (hx : m.Settled c x)
    (ha : a < env.steps) (hb : b < env.steps) (hc : c < env.steps) :
    between low high x env m
      = .ok (.ofBool (v ∈ Alternatives.integers (some n) top)) m := by
  rw [h.between_eq henv hlow hhigh hx ha hb hc]
  have hmem : (n ≤ v && v ≤ top) = decide (v ∈ Alternatives.integers (some n) top) := by
    rw [Bool.eq_iff_iff]
    simp [Alternatives.mem_integers]
  rw [← hmem]
  rfl

-- ================================================== the solutions

theorem Asked.settled (h : Asked m low high x n top x' m') (hq : m.query.Sound true)
    (hx : x.Live (m.query.frames.world true)) :
    x'.Live (m'.query.frames.world true) ∧ m'.query.frames.resolve x' = x' ∧ ∀ id, x' ≠ .thunk id := by
  have hq' : m'.query.Sound true := h.query.symm ▸ hq
  have hlive : x.Live (m'.query.frames.world true) := h.query.symm ▸ hx
  exact ⟨h.item.live hq' h.sound hlive, h.item.resolve_eq hq' h.sound hlive⟩

/-- A variable can be any integer. -/
theorem Asked.canBe (h : Asked m low high x n top x' m') (hq : m.query.Sound true)
    (hx : x.Live (m.query.frames.world true)) (hvar : x'.isVar = true) :
    ∀ us ∈ (Alternatives.integers (some n) top).map fun v => [Term.int v], m'.CanBe [x'] us := by
  intro us hus
  obtain ⟨v, -, rfl⟩ := List.mem_map.1 hus
  obtain ⟨hlive, hresolve, -⟩ := h.settled hq hx
  refine ⟨fun _ => .int v, .cons ?_ .nil⟩
  cases x' with
  | ref c name => exact .cell hresolve
  | var name =>
    rcases hlive with rfl | ⟨-, hraw⟩
    · exact .any
    · cases hraw
  | _ => cases hvar

/-- The call leaves a point with all the integers of the range. -/
theorem Asked.opens (h : Asked m low high x n top x' m') (hq : m.query.Sound true)
    (hx : x.Live (m.query.frames.world true)) :
    m'.Opens 2 [x'] ((Alternatives.integers (some n) top).map fun v => [.int v])
      ⟨m'.db, m'.query.leaving (.range (some n) top x')⟩ := by
  obtain ⟨hlive, hresolve, hplain⟩ := h.settled hq hx
  have hready : Act.Ready m' 2 [x'] :=
    .cons hlive (.plain fun id hid => hplain id (hresolve.symm.trans hid)) .nil
  exact ⟨⟨h.query.symm ▸ hq, h.sound, hready⟩, _, Alternatives.lists_range (some n) top x', hlive, rfl⟩

/-- However often the query comes back to the call, and whatever it does in between, the
solutions are the integers of the range from the first on, in order and each once.
With the last one the point of the call is gone. -/
theorem Asked.solutions_eq (h : Asked m low high x n top x' m') (hq : m.query.Sound true)
    (hx : x.Live (m.query.frames.world true)) (hvar : x'.isVar = true)
    (henv : env.Suffices 2 (Alternatives.integers (some n) top).length) {ms : List Machine}
    {m₁ : Machine} (hrun : Machine.Redoes env m'.query.nextPoint (Machine.Away m'.query.nextPoint)
      ⟨m'.db, (m'.query.leaving (.range (some n) top x')).holding .fail⟩ ms m₁) :
    List.Forall₂ (fun v => m'.Solved [x'] [.int v])
        ((Alternatives.integers (some n) top).take ms.length) ms
      ∧ (ms.length = (Alternatives.integers (some n) top).length →
        ∀ m ∈ ms.getLast?, ∀ p ∈ m.query.choices.points, p.id ≠ m'.query.nextPoint) := by
  have hall := h.canBe hq hx hvar
  obtain ⟨left, hanswers⟩ := (h.opens hq hx).answers (by rwa [List.length_map]) hrun
  obtain ⟨htake, hdrop⟩ := hanswers.forall₂_take hall
  refine ⟨?_, fun hlength m hm => hanswers.ne_of_getLast? hall ?_ hm⟩
  · rwa [← List.map_take, List.forall₂_map_left_iff] at htake
  · rw [hdrop, hlength, ← List.length_map, List.drop_length]

/-- If the query fails each time, it comes to all integers of the range, and then it does
not come back to the call any more. -/
theorem Asked.exists_solutions (h : Asked m low high x n top x' m') (hq : m.query.Sound true)
    (hx : x.Live (m.query.frames.world true)) (hvar : x'.isVar = true)
    (henv : env.Suffices 2 (Alternatives.integers (some n) top).length) :
    ∃ ms m₁, Machine.Redoes env m'.query.nextPoint
        (fun m m₂ => m₂ = ⟨m.db, m.query.holding .fail⟩)
        ⟨m'.db, (m'.query.leaving (.range (some n) top x')).holding .fail⟩ ms m₁
      ∧ List.Forall₂ (fun v => m'.Solved [x'] [.int v]) (Alternatives.integers (some n) top) ms
      ∧ ¬ m₁.query.BackTo m'.query.nextPoint := by
  have hall := h.canBe hq hx hvar
  obtain ⟨ms, m₁, hrun, hanswers, hover⟩ := (h.opens hq hx).exists_answers (by rwa [List.length_map])
  obtain ⟨htake, hdrop⟩ := hanswers.forall₂_take hall
  rw [List.take_of_length_le (List.drop_eq_nil_iff.1 hdrop.symm), List.forall₂_map_left_iff] at htake
  exact ⟨ms, m₁, hrun, htake, hover⟩

end Control

end LogicMachine
