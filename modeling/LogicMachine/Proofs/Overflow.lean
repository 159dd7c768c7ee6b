/-
Overflow, and where it is not what it says.

`fit` gives the exact result of an operation if it has 64 bits and is an
overflow otherwise, so an operation is exact where it comes to `fit` of what
the mathematical integers give (`BinaryOp.Gives`, `shifted`). That is nearly
everywhere, and the operands that are left out are few:

* what is left of the least integer divided by -1 is 0, but the quotient does
  not fit and the division is refused with it;
* a power of 0, 1 or -1 always fits, but no exponent may exceed 32 bits;
* no shift goes farther than 63 places. To the right that is as good as any
  distance, and to the left all but 0 and -1 have left the range by then; -1
  is just the operand that a shift by 63 still keeps.

The first two are refused although their results fit. The last has a result
although none fits.
-/
import LogicMachine.Proofs.ExactArithmetic

namespace LogicMachine.Arithmetic

-- ================================================== the range

/-- The integers of 64 bits. -/
def Fits (z : Int) : Prop := -2 ^ 63 ≤ z ∧ z < 2 ^ 63

theorem fits_toInt (i : Int64) : Fits i.toInt := ⟨i.le_toInt, i.toInt_lt⟩

theorem fit_of_not_fits {z : Int} (h : ¬ Fits z) : fit z = .error overflow := by
  have hmin : Database.minInteger.toInt = -9223372036854775808 := rfl
  have hmax : Database.maxInteger.toInt = 9223372036854775807 := rfl
  unfold Fits at h
  rw [fit, if_neg (by omega)]

/-- An integer comes out as itself if it fits. -/
theorem fit_eq_ok_iff {z : Int} {i : Int64} : fit z = .ok (.int i) ↔ i.toInt = z :=
  ⟨eq_of_fit, fun h => h ▸ fit_toInt i⟩

/-- An overflow is just what an integer out of the range comes to. -/
theorem fit_eq_overflow_iff {z : Int} : fit z = .error overflow ↔ ¬ Fits z := by
  refine ⟨fun h hz => ?_, fit_of_not_fits⟩
  obtain ⟨hlow, hhigh⟩ := hz
  have hz : (Int64.ofInt z).toInt = z := Int64.toInt_ofInt_of_le hlow hhigh
  rw [← hz, fit_toInt] at h
  cases h

theorem not_fits_of_natAbs {z : Int} (h : 2 ^ 64 ≤ z.natAbs) : ¬ Fits z := by
  unfold Fits
  omega

-- ================================================== division

section

variable {a b : Int64}

/-- The only quotient of two integers that does not fit. -/
def Outgrown (a b : Int64) : Prop := a.toInt = -2 ^ 63 ∧ b.toInt = -1

theorem fits_tdiv (hb : b ≠ 0) (h : ¬ Outgrown a b) : Fits (a.toInt.tdiv b.toInt) := by
  have hne := toInt_ne_zero hb
  have hrange := fits_toInt a
  have hle := Int.natAbs_tdiv_le_natAbs a.toInt b.toInt
  unfold Outgrown at h
  unfold Fits at hrange ⊢
  by_cases hunit : b.toInt = 1 ∨ b.toInt = -1
  · rcases hunit with hb | hb
    · rw [hb, Int.tdiv_one]
      exact hrange
    · rw [hb, Int.tdiv_neg, Int.tdiv_one]
      omega
  · -- any other divisor halves what it divides
    have hhalf : (a.toInt.tdiv b.toInt).natAbs ≤ a.toInt.natAbs / 2 := by
      rw [Int.natAbs_tdiv]
      exact Nat.div_le_div_left (by omega) (by decide)
    omega

theorem tdiv_of_outgrown (h : Outgrown a b) : ¬ Fits (a.toInt.tdiv b.toInt) := by
  obtain ⟨ha, hb⟩ := h
  rw [ha, hb]
  unfold Fits
  decide

/-- With a quotient that fits, a division comes to what its operation gives. -/
theorem dividing_of_fits (op : Int → Int → Int) (hb : b ≠ 0)
    (hq : Fits (a.toInt.tdiv b.toInt)) :
    dividing op (.int a) (.int b) = fit (op a.toInt b.toInt) := by
  rw [dividing_int, if_neg hb]
  have hok : fit (a.toInt.tdiv b.toInt) = .ok (.int (Int64.ofInt (a.toInt.tdiv b.toInt))) :=
    fit_eq_ok_iff.2 (Int64.toInt_ofInt_of_le hq.1 hq.2)
  rw [hok]
  rfl

/-- A quotient that does not fit is an overflow, whatever is asked for. -/
theorem dividing_of_outgrown (op : Int → Int → Int) (hb : b ≠ 0) (h : Outgrown a b) :
    dividing op (.int a) (.int b) = .error overflow := by
  rw [dividing_int, if_neg hb, fit_of_not_fits (tdiv_of_outgrown h)]
  rfl

theorem dividing_tdiv (hb : b ≠ 0) :
    dividing Int.tdiv (.int a) (.int b) = fit (a.toInt.tdiv b.toInt) := by
  by_cases h : Outgrown a b
  · rw [dividing_of_outgrown _ hb h, fit_of_not_fits (tdiv_of_outgrown h)]
  · exact dividing_of_fits _ hb (fits_tdiv hb h)

-- ================================================== powers

/-- The integers whose powers have at most their size. -/
def Small (b : Int64) : Prop := b.toInt = 0 ∨ b.toInt = 1 ∨ b.toInt = -1

theorem unit_iff : (b = 0 || b = 1 || b = -1) = true ↔ Small b := by
  simp [Small, ← Int64.toInt_inj, or_assoc]

theorem fits_pow_of_unit (h : Small b) (n : Nat) : Fits (b.toInt ^ n) := by
  have hle : (b.toInt ^ n).natAbs ≤ 1 := by
    rw [Int.natAbs_pow]
    exact pow_le_one₀ (Nat.zero_le _) (by unfold Small at h; omega)
  unfold Fits
  omega

theorem not_fits_pow (h : ¬ Small b) {n : Nat} (hn : 64 ≤ n) : ¬ Fits (b.toInt ^ n) := by
  refine not_fits_of_natAbs ?_
  have htwo : 2 ≤ b.toInt.natAbs := by
    unfold Small at h
    omega
  calc 2 ^ 64 ≤ b.toInt.natAbs ^ 64 := Nat.pow_le_pow_left htwo 64
    _ ≤ b.toInt.natAbs ^ n := Nat.pow_le_pow_right (by omega) hn
    _ = (b.toInt ^ n).natAbs := (Int.natAbs_pow _ _).symm

/-- Exponents of 32 bits raise any integer, larger ones those alone whose
powers grow. -/
theorem integerPower_of_nonneg (hb : 0 ≤ b.toInt) (h : b.toInt < 2 ^ 32 ∨ ¬ Small a) :
    integerPower a b = fit (a.toInt ^ b.toInt.toNat) := by
  have hneg : ¬ b < 0 := fun hlt => Int.not_lt.2 hb (Int64.lt_iff_toInt_lt.1 hlt)
  rw [integerPower, if_neg hneg]
  by_cases hlarge : b.toInt > 4294967295
  · rw [if_pos hlarge, fit_of_not_fits (not_fits_pow (h.resolve_left (by omega)) (by omega))]
  rw [if_neg hlarge]
  by_cases hunit : Small a
  · rw [if_pos (unit_iff.2 hunit)]
    by_cases hzero : b = 0
    · subst hzero
      show fit 1 = fit (a.toInt ^ 0)
      rw [pow_zero]
    · have hne : b.toInt.toNat ≠ 0 := by
        have := toInt_ne_zero hzero
        omega
      have hparity : b.toInt % 2 = 0 ↔ b.toInt.toNat % 2 = 0 := by omega
      rw [if_neg hzero, pow_of_unit hunit hne]
      simp only [hparity]
  · rw [if_neg (mt unit_iff.1 hunit)]
    have hbound : b ≥ 64 ↔ 64 ≤ b.toInt := Int64.le_iff_toInt_le
    by_cases hhigh : 64 ≤ b.toInt
    · rw [if_pos (hbound.2 hhigh), fit_of_not_fits (not_fits_pow hunit (by omega))]
    · rw [if_neg (mt hbound.1 hhigh)]
      rfl

/-- With an exponent of more than 32 bits even 0, 1 and -1 are refused. -/
theorem integerPower_of_unit (h : 2 ^ 32 ≤ b.toInt) : integerPower a b = .error overflow := by
  have hneg : ¬ b < 0 := fun hlt => by
    have := Int64.lt_iff_toInt_lt.1 hlt
    simp at this
    omega
  rw [integerPower, if_neg hneg, if_pos (by omega)]

/-- A negative exponent is as good as a positive one where it has a meaning. -/
theorem integerPower_of_neg (hb : b.toInt < 0) (ha : a.toInt = 1 ∨ a.toInt = -1) :
    ∃ i : Int64, integerPower a b = .ok (.int i) := by
  have hunit : (a = 1 || a = -1) = true := by simpa [← Int64.toInt_inj] using ha
  exact ⟨_, by rw [integerPower, if_pos (Int64.lt_iff_toInt_lt.2 hb), if_pos hunit]⟩

-- ================================================== where the results are exact

/-- The operations and operands for which an overflow says that the exact
result does not fit. -/
def BinaryOp.Precise : BinaryOp → Int64 → Int64 → Prop
  | .add, _, _ | .sub, _, _ | .mul, _, _ => True
  | .div, _, b => b ≠ 0
  | .rem, a, b | .mod, a, b => b ≠ 0 ∧ ¬ Outgrown a b
  | .power, a, b => if 0 ≤ b.toInt then b.toInt < 2 ^ 32 ∨ ¬ Small a else a.toInt = 1 ∨ a.toInt = -1
  | _, _, _ => False

/-- Such an operation comes to its exact result if that fits, and is an
overflow otherwise. -/
theorem BinaryOp.apply_of_precise (op : BinaryOp) (h : op.Precise a b) :
    ∃ r, op.Gives a.toInt b.toInt r ∧ op.apply (.int a) (.int b) = fit r := by
  cases op with
  | add | sub | mul => exact ⟨_, rfl, rfl⟩
  | div => exact ⟨_, ⟨_, divided_tdiv (toInt_ne_zero h) _⟩, dividing_tdiv h⟩
  | rem =>
    obtain ⟨hb, hfits⟩ := h
    exact ⟨_, ⟨_, divided_tdiv (toInt_ne_zero hb) _⟩, dividing_of_fits _ hb (fits_tdiv hb hfits)⟩
  | mod =>
    obtain ⟨hb, hfits⟩ := h
    exact ⟨_, ⟨_, divided_modulo (toInt_ne_zero hb) _⟩, dividing_of_fits _ hb (fits_tdiv hb hfits)⟩
  | power =>
    by_cases hb : 0 ≤ b.toInt
    · rw [BinaryOp.Precise, if_pos hb] at h
      refine ⟨_, ?_, integerPower_of_nonneg hb h⟩
      rw [BinaryOp.Gives, Raised, if_pos hb]
    · rw [BinaryOp.Precise, if_neg hb] at h
      obtain ⟨i, hi⟩ := integerPower_of_neg (Int.not_le.1 hb) h
      exact ⟨i.toInt, raised_of_integerPower hi, by rw [fit_toInt]; exact hi⟩
  | _ => exact h.elim

theorem UnaryOp.apply_minus : UnaryOp.minus.apply (.int a) = fit (-a.toInt) := rfl

theorem UnaryOp.apply_abs : UnaryOp.abs.apply (.int a) = fit |a.toInt| := by
  rw [← Int.natCast_natAbs]
  rfl

/-- What the precise operations leave out, with a divisor that is not zero: an
overflow is raised although the exact result fits. -/
theorem BinaryOp.apply_of_imprecise :
    (Outgrown a b → ∀ op : BinaryOp, op = .rem ∨ op = .mod →
      op.Gives a.toInt b.toInt 0 ∧ op.apply (.int a) (.int b) = .error overflow)
    ∧ (Small a → 2 ^ 32 ≤ b.toInt →
      ∃ r, BinaryOp.power.Gives a.toInt b.toInt r ∧ Fits r
        ∧ BinaryOp.power.apply (.int a) (.int b) = .error overflow) := by
  refine ⟨fun h op hop => ?_, fun ha hb => ?_⟩
  · have hb : b ≠ 0 := by
      rintro rfl
      exact absurd h.2 (by decide)
    have hdivided : ∀ s, Divided a.toInt b.toInt (-a.toInt) 0 s := fun s =>
      ⟨by rw [h.2]; ring, by rw [h.2]; decide, .inl rfl⟩
    rcases hop with rfl | rfl <;> exact ⟨⟨_, hdivided _⟩, dividing_of_outgrown _ hb h⟩
  · refine ⟨_, ?_, fits_pow_of_unit ha b.toInt.toNat, integerPower_of_unit hb⟩
    rw [BinaryOp.Gives, Raised, if_pos (by omega)]

-- ================================================== shifts

/-- The exact result of a shift: to the left it multiplies by a power of two,
to the right it divides by one and rounds down. A negative number of places
turns the direction. -/
def shifted (left : Bool) (x n : Int) : Int :=
  if left = decide (0 ≤ n) then x * 2 ^ n.natAbs else x.fdiv (2 ^ n.natAbs)

theorem shift_int (left : Bool) (x n : Int64) : shift left (.int x) (.int n)
    = if left = decide (0 ≤ n.toInt) then fit (x.toInt * 2 ^ min n.toInt.natAbs 63)
      else fit (x.toInt.fdiv (2 ^ min n.toInt.natAbs 63)) := by
  rw [Int.fdiv_eq_ediv_of_nonneg _ (by positivity)]
  show (if (left == decide (0 ≤ n.toInt)) = true then _ else _) = _
  simp only [beq_iff_eq]
  rfl

/-- Dividing by `2 ^ 63` or more leaves the sign alone. -/
theorem fdiv_of_far {x : Int} (hx : Fits x) {k : Nat} (hk : 63 ≤ k) :
    x.fdiv (2 ^ k) = if 0 ≤ x then 0 else -1 := by
  have hpow : (2 : Int) ^ 63 ≤ 2 ^ k := pow_le_pow_right₀ (by decide) hk
  have hpos : (0 : Int) < 2 ^ k := by positivity
  obtain ⟨hlow, hhigh⟩ := hx
  rw [Int.fdiv_eq_ediv_of_nonneg _ hpos.le]
  split
  · exact Int.ediv_eq_zero_of_lt (by assumption) (by omega)
  · rw [Int.ediv_eq_iff_of_pos hpos]
    constructor <;> omega

/-- Multiplying by `2 ^ 63` or more leaves 0 alone in the range, and -1 for as
many places as 63. -/
theorem not_fits_of_far {x : Int} (hzero : x ≠ 0) {k : Nat} (hk : 63 ≤ k)
    (hone : x = -1 → 64 ≤ k) : ¬ Fits (x * 2 ^ k) := by
  have hpow : (2 : Int) ^ 63 ≤ 2 ^ k := pow_le_pow_right₀ (by decide) hk
  unfold Fits
  rcases lt_trichotomy x (-1) with hx | rfl | hx
  · have : x * 2 ^ k ≤ -2 * 2 ^ k := Int.mul_le_mul_of_nonneg_right (by omega) (by positivity)
    omega
  · have : (2 : Int) ^ 64 ≤ 2 ^ k := pow_le_pow_right₀ (by decide) (hone rfl)
    omega
  · have : 1 * 2 ^ k ≤ x * 2 ^ k := Int.mul_le_mul_of_nonneg_right (by omega) (by positivity)
    omega

/-- A shift comes to its exact result if that fits, and is an overflow
otherwise, for every distance; only -1 may not be shifted to the left by more
than 63 places. -/
theorem shift_exact (left : Bool) (x n : Int64)
    (h : x = -1 → left = decide (0 ≤ n.toInt) → n.toInt.natAbs ≤ 63) :
    shift left (.int x) (.int n) = fit (shifted left x.toInt n.toInt) := by
  rw [shift_int, shifted]
  by_cases hnear : n.toInt.natAbs ≤ 63
  · rw [min_eq_left hnear]
    split <;> rfl
  rw [min_eq_right (by omega)]
  split
  · rename_i hleft
    by_cases hzero : x.toInt = 0
    · rw [hzero, zero_mul, zero_mul]
    · have hone : x.toInt ≠ -1 := fun he => hnear (h (Int64.toInt_inj.1 he) hleft)
      rw [fit_of_not_fits (not_fits_of_far hzero le_rfl fun he => absurd he hone),
        fit_of_not_fits (not_fits_of_far hzero (by omega) fun he => absurd he hone)]
  · rw [fdiv_of_far (fits_toInt x) le_rfl, fdiv_of_far (fits_toInt x) (by omega)]

/-- Farther than that, -1 comes to the least integer, although the exact
result does not fit. -/
theorem shift_inexact (left : Bool) (n : Int64) (hleft : left = decide (0 ≤ n.toInt))
    (hn : 64 ≤ n.toInt.natAbs) : shift left (.int (-1)) (.int n) = .ok (.int Database.minInteger)
      ∧ ¬ Fits (shifted left (-1) n.toInt) := by
  constructor
  · rw [shift_int, if_pos hleft, min_eq_right (by omega)]
    rfl
  · rw [shifted, if_pos hleft]
    exact not_fits_of_far (by decide) (by omega) fun _ => hn

end

-- ================================================== evaluation

/-- An expression of one operation on two integers is evaluated to what the
operation comes to. -/
theorem eval_of_operands {env : Env} {m : Machine} {t : Term} {op : BinaryOp} {a b : Int64}
    (h : m.query.frames.Spells t (.binary op (.const a) (.const b))) (hsteps : 1 < env.steps) :
    eval t env m = Act.checked (op.apply (.int a) (.int b)) env m := by
  rw [eval_apply, evalWithin_spelled h (by omega) hsteps]
  rfl

/-- Evaluating a precise operation raises an overflow just where its exact
result does not fit, and gives that result where it does. -/
theorem eval_of_precise {env : Env} {m : Machine} {t : Term} {op : BinaryOp} {a b : Int64}
    (h : m.query.frames.Spells t (.binary op (.const a) (.const b))) (hsteps : 1 < env.steps)
    (hop : op.Precise a b) : ∃ r, op.Gives a.toInt b.toInt r
      ∧ (eval t env m = .error overflow m ↔ ¬ Fits r)
      ∧ ∀ i, eval t env m = .ok (.int i) m ↔ i.toInt = r := by
  obtain ⟨r, hgives, hr⟩ := op.apply_of_precise hop
  have hchecked : eval t env m = Act.checked (fit r) env m := hr ▸ eval_of_operands h hsteps
  refine ⟨r, hgives, ?_, fun i => ?_⟩
  · rw [hchecked, ← fit_eq_overflow_iff]
    cases hc : fit r with
    | ok v => exact ⟨nofun, nofun⟩
    | error e => exact ⟨fun he => by cases he; rfl, fun he => by cases he; rfl⟩
  · rw [hchecked, ← fit_eq_ok_iff]
    cases hc : fit r with
    | ok v => exact ⟨fun he => by cases he; rfl, fun he => by cases he; rfl⟩
    | error e => exact ⟨nofun, nofun⟩

end LogicMachine.Arithmetic
