/-
The order of numbers.

An integer is compared with a float by way of the float nearest to it, and
many integers share one. So numbers are ordered by three keys, the second
and third of which break ties: the place of the float among all floats, the
kind of the number, and the integer itself (`Number.order_eq`). That rounding
keeps the order of integers (`Binary64.rank_ofInt64_mono`) is what makes the
first key agree with the third, so that an integer, a float and another
integer are never in a circle.
-/
import LogicMachine.Number
import Mathlib.Data.Int.Order.Basic
import Mathlib.Data.Nat.Log
import Mathlib.Order.Compare
import Mathlib.Tactic.Ring

namespace LogicMachine

open Std (TransCmp LawfulEqCmp)

-- ================================================== rounding

namespace Binary64

theorem hiddenBit_eq : hiddenBit = 2 ^ 52 := by decide

section

variable {m n : Nat}

/-- What is left after the first 53 bits of an integer is scaled away. -/
theorem le_div_unit (hn : n ≠ 0) (h : ¬ n.log2 ≤ 52) :
    hiddenBit ≤ n / 2 ^ (n.log2 - 52) ∧ n / 2 ^ (n.log2 - 52) < 2 * hiddenBit := by
  have hunit : 0 < 2 ^ (n.log2 - 52) := Nat.two_pow_pos _
  have hlow : 2 ^ n.log2 ≤ n := Nat.log2_self_le hn
  have hhigh : n < 2 ^ (n.log2 + 1) := Nat.lt_log2_self
  have hsplit : 2 ^ n.log2 = 2 ^ 52 * 2 ^ (n.log2 - 52) := by
    rw [← Nat.pow_add]
    congr 1
    omega
  rw [hiddenBit_eq]
  constructor
  · rw [Nat.le_div_iff_mul_le hunit, ← hsplit]
    exact hlow
  · rw [Nat.div_lt_iff_lt_mul hunit]
    calc n < 2 ^ (n.log2 + 1) := hhigh
      _ = 2 * 2 ^ 52 * 2 ^ (n.log2 - 52) := by rw [Nat.pow_succ, hsplit]; ring

/-- A significand has 53 bits, or is the next power of two. -/
theorem nearest_bounds (hn : n ≠ 0) : hiddenBit ≤ nearest n ∧ nearest n ≤ 2 * hiddenBit := by
  unfold nearest
  simp only [Nat.pow_eq]
  split
  · rename_i hsmall
    have hlow : 2 ^ n.log2 ≤ n := Nat.log2_self_le hn
    have hhigh : n < 2 ^ (n.log2 + 1) := Nat.lt_log2_self
    have hscale : 2 ^ n.log2 * 2 ^ (52 - n.log2) = 2 ^ 52 := by
      rw [← Nat.pow_add]
      congr 1
      omega
    rw [hiddenBit_eq, ← hscale]
    constructor
    · exact Nat.mul_le_mul_right _ hlow
    · calc n * 2 ^ (52 - n.log2) ≤ 2 ^ (n.log2 + 1) * 2 ^ (52 - n.log2) :=
            Nat.mul_le_mul_right _ hhigh.le
        _ = 2 * (2 ^ n.log2 * 2 ^ (52 - n.log2)) := by rw [Nat.pow_succ]; ring
  · rename_i hlarge
    obtain ⟨hlow, hhigh⟩ := le_div_unit hn hlarge
    split <;> omega

/-- Integers with the same number of bits are rounded in order. -/
theorem nearest_mono (hlog : m.log2 = n.log2) (h : m ≤ n) : nearest m ≤ nearest n := by
  unfold nearest
  simp only [Nat.pow_eq]
  rw [hlog]
  split
  · exact Nat.mul_le_mul_right _ h
  · have hunit : 0 < 2 ^ (n.log2 - 52) := Nat.two_pow_pos _
    generalize 2 ^ (n.log2 - 52) = unit at hunit ⊢
    have hdiv : m / unit ≤ n / unit := Nat.div_le_div_right h
    have hm := Nat.div_add_mod m unit
    have hn := Nat.div_add_mod n unit
    rcases Nat.lt_or_eq_of_le hdiv with hlt | heq
    · split <;> split <;> omega
    · -- with the same leading bits, only the remainders can differ
      rw [heq] at hm ⊢
      split <;> split <;> omega

/-- A larger integer has no smaller bits: within one exponent because its
significand is no smaller, and else because of the exponent. -/
theorem bitsOfNat_mono (h : m ≤ n) : bitsOfNat m ≤ bitsOfNat n := by
  unfold bitsOfNat
  split
  · exact Nat.zero_le _
  · rename_i hm
    have hn : n ≠ 0 := fun hn => hm (Nat.le_zero.1 (hn ▸ h))
    rw [if_neg hn]
    have hlog : m.log2 ≤ n.log2 := by
      rw [Nat.le_log2 hn]
      exact (Nat.log2_self_le hm).trans h
    rcases Nat.lt_or_eq_of_le hlog with hlt | heq
    · have hhigh := (nearest_bounds hm).2
      have hlow := (nearest_bounds hn).1
      have hexp : (1022 + m.log2 + 1) * hiddenBit ≤ (1022 + n.log2) * hiddenBit :=
        Nat.mul_le_mul_right _ (by omega)
      rw [Nat.add_mul, Nat.one_mul] at hexp
      omega
    · rw [heq]
      exact Nat.add_le_add_left (nearest_mono heq h) _

/-- The bits of an integer leave the sign bit free. -/
theorem bitsOfNat_lt (h : n ≤ 2 ^ 63) : bitsOfNat n < 2 ^ 63 :=
  (bitsOfNat_mono h).trans_lt (by decide)

end

theorem natAbs_toInt_le (i : Int64) : i.toInt.natAbs ≤ 2 ^ 63 := by
  have hlow := i.le_toInt
  have hhigh := i.toInt_lt
  omega

/-- The place of the float nearest to an integer. -/
theorem rank_ofInt64 (i : Int64) : rank (ofInt64 i)
    = if i.toInt < 0 then -1 - (bitsOfNat i.toInt.natAbs : Int) else bitsOfNat i.toInt.natAbs := by
  have hlt := bitsOfNat_lt (natAbs_toInt_le i)
  unfold rank isNegative ofInt64
  simp only [ge_iff_le, UInt64.le_iff_toNat_le, UInt64.toNat_ofNat', decide_eq_true_eq]
  by_cases hneg : i.toInt < 0
  · have hmod : (9223372036854775808 + bitsOfNat i.toInt.natAbs) % 2 ^ 64
        = 9223372036854775808 + bitsOfNat i.toInt.natAbs := Nat.mod_eq_of_lt (by omega)
    rw [if_pos hneg, if_pos hneg, hmod, if_pos]
    · push_cast
      ring
    · exact Nat.le_add_right _ _
  · have hmod : bitsOfNat i.toInt.natAbs % 2 ^ 64 = bitsOfNat i.toInt.natAbs :=
      Nat.mod_eq_of_lt (by omega)
    rw [if_neg hneg, if_neg hneg, hmod, if_neg]
    exact Nat.not_le.2 hlt

/-- Rounding keeps the order of integers. -/
theorem rank_ofInt64_mono {i j : Int64} (h : i.toInt ≤ j.toInt) :
    rank (ofInt64 i) ≤ rank (ofInt64 j) := by
  rw [rank_ofInt64, rank_ofInt64]
  rcases lt_or_ge i.toInt 0 with hi | hi
  · rcases lt_or_ge j.toInt 0 with hj | hj
    · rw [if_pos hi, if_pos hj]
      have hbits : bitsOfNat j.toInt.natAbs ≤ bitsOfNat i.toInt.natAbs := bitsOfNat_mono (by omega)
      omega
    · rw [if_pos hi, if_neg hj.not_gt]
      omega
  · have hj := hi.trans h
    rw [if_neg hi.not_gt, if_neg hj.not_gt]
    exact Int.ofNat_le.2 (bitsOfNat_mono (by omega))

/-- Different patterns have different places. -/
theorem rank_injective : Function.Injective rank := by
  intro a b h
  have ha := a.toNat_lt
  have hb := b.toNat_lt
  apply UInt64.toNat_inj.1
  unfold rank isNegative at h
  simp only [ge_iff_le, UInt64.le_iff_toNat_le, decide_eq_true_eq] at h
  have hbit : (9223372036854775808 : UInt64).toNat = 9223372036854775808 := rfl
  rw [hbit] at h
  split at h <;> split at h <;> omega

end Binary64

-- ================================================== the keys of a number

namespace Number

/-- The place of a number, or of the float nearest to it, among floats. -/
def place (n : Number) : Int := Binary64.rank n.toBits

/-- Floats come before integers. -/
def kind : Number → Nat
  | .float _ => 0
  | .int _ => 1

/-- The integer that a number is. -/
def whole : Number → Int
  | .float _ => 0
  | .int i => i.toInt

theorem place_mono {i j : Int64} (h : i.toInt ≤ j.toInt) :
    (Number.int i).place ≤ (Number.int j).place :=
  Binary64.rank_ofInt64_mono h

/-- Numbers are ordered by place, then floats first, then by value. -/
theorem order_eq :
    order = compareLex (compareOn place) (compareLex (compareOn kind) (compareOn whole)) := by
  funext a b
  cases a with
  | float x =>
    cases b with
    | float y => simp [order, compareLex, compareOn, place, toBits, kind, whole, Binary64.order]
    | int j => rfl
  | int i =>
    cases b with
    | float y => rfl
    | int j =>
      show compare i.toInt j.toInt = (compare (Number.int i).place (Number.int j).place).then
        (compare i.toInt j.toInt)
      rcases lt_trichotomy i.toInt j.toInt with hlt | heq | hgt
      · rw [compare_lt_iff_lt.2 hlt]
        rcases (place_mono hlt.le).lt_or_eq with hp | hp
        · rw [compare_lt_iff_lt.2 hp]
          rfl
        · rw [compare_eq_iff_eq.2 hp]
          rfl
      · have hij : i = j := Int64.toInt_inj.1 heq
        rw [hij, compare_eq_iff_eq.2 rfl, compare_eq_iff_eq.2 rfl]
        rfl
      · rw [compare_gt_iff_gt.2 hgt]
        rcases (place_mono hgt.le).lt_or_eq with hp | hp
        · rw [compare_gt_iff_gt.2 hp]
          rfl
        · rw [compare_eq_iff_eq.2 hp.symm]
          rfl

instance : TransCmp order := by
  rw [order_eq]
  infer_instance

instance : LawfulEqCmp order where
  compare_self {a} := by
    rw [order_eq]
    simp [compareLex, compareOn]
  eq_of_compare {a b} h := by
    rw [order_eq] at h
    simp only [compareLex, compareOn, Ordering.then_eq_eq, compare_eq_iff_eq] at h
    obtain ⟨hplace, hkind, hwhole⟩ := h
    cases a with
    | int i =>
      cases b with
      | int j => rw [Int64.toInt_inj.1 hwhole]
      | float y => cases hkind
    | float x =>
      cases b with
      | int j => cases hkind
      | float y =>
        obtain rfl : x = y := Binary64.rank_injective hplace
        rfl

instance : Ord Number := ⟨order⟩

instance : Std.TransOrd Number := inferInstanceAs (TransCmp order)

instance : Std.LawfulEqOrd Number := inferInstanceAs (LawfulEqCmp order)

/-- Two to the power 53 and the next integer share their float, which comes
before both. -/
example : order (.float 0x4340000000000000) (.int 9007199254740992) = .lt
    ∧ order (.int 9007199254740992) (.int 9007199254740993) = .lt
    ∧ order (.float 0x4340000000000000) (.int 9007199254740993) = .lt := by decide

end Number

end LogicMachine
