/-
Arithmetic on integers is exact.

An expression over 64-bit integers has a value among the mathematical
integers, or none (`Expr.Value`): a division by zero has none, and a quotient
only where nothing is left over. What each operation gives is said by its law
and not by the function that computes it: a truncating division by its
quotient and remainder, an operation on bits by the bits of two's complement.

Evaluating a term that spells an expression computes on numbers alone
(`Expr.compute`), whatever mixture of references and closures the term is
written in. What an operation computes on two integers, if it is an integer,
is what the operation gives; since no operand is a float, this goes up the
tree.
-/
import LogicMachine.Library.Arithmetic
import LogicMachine.Proofs.Acts
import Mathlib

namespace LogicMachine

-- ================================================== bits of integers

/-- Beyond its width a word in two's complement goes on with its sign. -/
theorem testBit_toInt {w : Nat} (x : BitVec w) (k : Nat) :
    x.toInt.testBit k = if k < w then x.getLsbD k else x.msb := by
  rw [BitVec.toInt_eq_msb_cond]
  cases hm : x.msb with
  | false =>
    show x.toNat.testBit k = _
    rw [BitVec.testBit_toNat]
    split
    · rfl
    · rename_i hk
      exact BitVec.getLsbD_of_ge x k (Nat.le_of_not_lt hk)
  | true =>
    -- the negative integers are the complements of the natural numbers
    have hneg : (x.toNat : Int) - 2 ^ w = Int.negSucc (~~~x).toNat := by
      have hlt := x.isLt
      rw [BitVec.toNat_not, Int.negSucc_eq]
      have hcast : ((2 ^ w - 1 - x.toNat : Nat) : Int) = 2 ^ w - 1 - x.toNat := by
        rw [Nat.sub_sub, Nat.cast_sub (by omega)]
        push_cast
        ring
      rw [hcast]
      ring
    have hcond : (if true = true then (x.toNat : Int) - ((2 ^ w : Nat) : Int) else (x.toNat : Int))
        = (x.toNat : Int) - 2 ^ w := by
      rw [if_pos rfl]
      push_cast
      rfl
    rw [hcond, hneg]
    show (!(~~~x).toNat.testBit k) = _
    rw [BitVec.testBit_toNat, BitVec.getLsbD_not]
    split <;> simp [*]

namespace Arithmetic

variable (a b : Int64) (k : Nat)

theorem testBit_and : (a &&& b).toInt.testBit k = (a.toInt.testBit k && b.toInt.testBit k) := by
  simp only [← Int64.toInt_toBitVec, Int64.toBitVec_and, testBit_toInt, BitVec.getLsbD_and,
    BitVec.msb_and]
  split <;> rfl

theorem testBit_or : (a ||| b).toInt.testBit k = (a.toInt.testBit k || b.toInt.testBit k) := by
  simp only [← Int64.toInt_toBitVec, Int64.toBitVec_or, testBit_toInt, BitVec.getLsbD_or,
    BitVec.msb_or]
  split <;> rfl

theorem testBit_xor : (a ^^^ b).toInt.testBit k = (a.toInt.testBit k ^^ b.toInt.testBit k) := by
  simp only [← Int64.toInt_toBitVec, Int64.toBitVec_xor, testBit_toInt, BitVec.getLsbD_xor,
    BitVec.msb_xor]
  split <;> rfl

theorem testBit_complement : (~~~a).toInt.testBit k = !a.toInt.testBit k := by
  simp only [← Int64.toInt_toBitVec, Int64.toBitVec_not, testBit_toInt, BitVec.getLsbD_not,
    BitVec.msb_not]
  split <;> simp [*]

end Arithmetic

-- ================================================== expressions and their values

namespace Arithmetic

/-- The operations on one integer. -/
inductive UnaryOp where
  | plus | minus | abs | sign | complement
deriving DecidableEq

/-- The operations on two integers. -/
inductive BinaryOp where
  | add | sub | mul | quotient | div | rem | mod | min | max | and | or | xor | power
deriving DecidableEq

/-- An expression over integers of 64 bits. -/
inductive Expr where
  | const (value : Int64)
  | unary (op : UnaryOp) (x : Expr)
  | binary (op : BinaryOp) (x y : Expr)

def UnaryOp.name : UnaryOp → String
  | .plus => "+"
  | .minus => "-"
  | .abs => "abs"
  | .sign => "sign"
  | .complement => "\\"

def BinaryOp.name : BinaryOp → String
  | .add => "+"
  | .sub => "-"
  | .mul => "*"
  | .quotient => "/"
  | .div => "//"
  | .rem => "rem"
  | .mod => "mod"
  | .min => "min"
  | .max => "max"
  | .and => "/\\"
  | .or => "\\/"
  | .xor => "xor"
  | .power => "^"

/-- The operations that divide. -/
def BinaryOp.Divides : BinaryOp → Prop
  | .quotient | .div | .rem | .mod => True
  | _ => False

/-- Division of `a` by `b` gives `q` and leaves `r`, which is smaller than
`b` and has the sign of `s`. -/
structure Divided (a b q r s : Int) : Prop where
  whole : a = b * q + r
  small : r.natAbs < b.natAbs
  side : r = 0 ∨ r.sign = s.sign

/-- `r` is the power of `a` with the exponent `b`; with a negative one it is
the inverse of that with the positive one. -/
def Raised (a b r : Int) : Prop :=
  if 0 ≤ b then r = a ^ b.toNat else r * a ^ b.natAbs = 1

/-- What an operation gives for one integer. -/
def UnaryOp.Gives : UnaryOp → Int → Int → Prop
  | .plus, a, r => r = a
  | .minus, a, r => r = -a
  | .abs, a, r => r = |a|
  | .sign, a, r => r = a.sign
  | .complement, a, r => ∀ k, r.testBit k = !a.testBit k

/-- What an operation gives for two integers. `//` truncates toward zero,
`rem` is what it leaves and goes with the dividend, `mod` goes with the
divisor; `/` leaves nothing. -/
def BinaryOp.Gives : BinaryOp → Int → Int → Int → Prop
  | .add, a, b, r => r = a + b
  | .sub, a, b, r => r = a - b
  | .mul, a, b, r => r = a * b
  | .quotient, a, b, r => b ≠ 0 ∧ a = b * r
  | .div, a, b, q => ∃ r, Divided a b q r a
  | .rem, a, b, r => ∃ q, Divided a b q r a
  | .mod, a, b, r => ∃ q, Divided a b q r b
  | .min, a, b, r => r = a ⊓ b
  | .max, a, b, r => r = a ⊔ b
  | .and, a, b, r => ∀ k, r.testBit k = (a.testBit k && b.testBit k)
  | .or, a, b, r => ∀ k, r.testBit k = (a.testBit k || b.testBit k)
  | .xor, a, b, r => ∀ k, r.testBit k = (a.testBit k ^^ b.testBit k)
  | .power, a, b, r => Raised a b r

/-- The value of an expression over the mathematical integers. -/
inductive Expr.Value : Expr → Int → Prop
  | const (i : Int64) : Value (.const i) i.toInt
  | unary {op : UnaryOp} {x : Expr} {a r : Int} (hx : Value x a) (h : op.Gives a r) :
      Value (.unary op x) r
  | binary {op : BinaryOp} {x y : Expr} {a b r : Int} (hx : Value x a) (hy : Value y b)
      (h : op.Gives a b r) : Value (.binary op x y) r

-- ================================================== operations on two integers

def UnaryOp.apply : UnaryOp → Number → Except Failure Number
  | .plus => .ok
  | .minus => negate
  | .abs => magnitude
  | .sign => Arithmetic.sign
  | .complement => fun x => do return .int (~~~(← integer x))

def BinaryOp.apply : BinaryOp → Number → Number → Except Failure Number
  | .add => mixed (· + ·) (· + ·)
  | .sub => mixed (· - ·) (· - ·)
  | .mul => mixed (· * ·) (· * ·)
  | .quotient => divide
  | .div => dividing Int.tdiv
  | .rem => dividing Int.tmod
  | .mod => dividing modulo
  | .min => fun x y => .ok (if Number.compareValue x y == .gt then y else x)
  | .max => fun x y => .ok (if Number.compareValue x y == .lt then y else x)
  | .and => bitwise (· &&& ·)
  | .or => bitwise (· ||| ·)
  | .xor => bitwise (· ^^^ ·)
  | .power => Arithmetic.power

theorem unary?_name (op : UnaryOp) : unary? op.name = some op.apply := by
  cases op <;> rfl

theorem binary?_name (op : BinaryOp) : binary? op.name = some op.apply := by
  cases op <;> rfl

section

variable {a b i : Int64} {z : Int}

/-- An integer that fits is the one computed. -/
theorem eq_of_fit (h : fit z = .ok (.int i)) : i.toInt = z := by
  unfold fit at h
  split at h
  · rename_i hz
    cases h
    have hmin : Database.minInteger.toInt = -9223372036854775808 := rfl
    have hmax : Database.maxInteger.toInt = 9223372036854775807 := rfl
    exact Int64.toInt_ofInt_of_le (by omega) (by omega)
  · cases h

/-- A finite float is no integer. -/
theorem finite_ne_int (x : Float) : finite x ≠ .ok (.int i) := by
  unfold finite
  split
  · nofun
  · split <;> nofun

theorem divided_tdiv {y : Int} (hy : y ≠ 0) (x : Int) : Divided x y (x.tdiv y) (x.tmod y) x := by
  refine ⟨(Int.mul_tdiv_add_tmod x y).symm, ?_, ?_⟩
  · rw [Int.natAbs_tmod]
    exact Nat.mod_lt _ (Int.natAbs_pos.2 hy)
  · by_cases hdvd : y ∣ x
    · exact .inl (Int.tmod_eq_zero_of_dvd hdvd)
    · exact .inr (by rw [Int.sign_tmod, if_neg hdvd])

/-- Turning what is left to the sign of the divisor is rounding the quotient toward
negative infinity. -/
theorem modulo_eq_fmod (x y : Int) : modulo x y = x.fmod y := by
  have hsign := Int.sign_tmod x y
  rw [Int.fmod_eq_tmod]
  unfold modulo
  dsimp only
  by_cases hdvd : y ∣ x
  · rw [Int.tmod_eq_zero_of_dvd hdvd, if_pos hdvd]
    rfl
  · rw [if_neg hdvd] at hsign ⊢
    have hne : x.tmod y ≠ 0 := fun he => hdvd (Int.dvd_of_tmod_eq_zero he)
    have hneg : x.tmod y < 0 ↔ x < 0 := by
      rw [← Int.sign_eq_neg_one_iff_neg, hsign, Int.sign_eq_neg_one_iff_neg]
    simp only [bne_iff_ne, ne_eq, hne, not_false_eq_true, Bool.and_eq_true, true_and, hneg]
    rcases lt_or_ge x 0 with hx | hx <;> rcases lt_or_ge y 0 with hy | hy
    · simp [hx, hy, hx.not_ge, hy.not_ge, Int.toNat_of_nonpos hy.le]
    · simp [hx, hy, hx.not_ge, hy.not_gt, abs_of_nonneg hy]
    · simp [hx, hy, hx.not_gt, hy.not_ge]
    · simp [hx, hy, hx.not_gt, hy.not_gt]

theorem divided_modulo {y : Int} (hy : y ≠ 0) (x : Int) : Divided x y (x.fdiv y) (modulo x y) y := by
  rw [modulo_eq_fmod]
  have hwhole := (Int.mul_fdiv_add_fmod x y).symm
  rcases lt_or_gt_of_ne hy with hneg | hpos
  · -- turning both signs turns that of what is left
    have hturn : (-x).fmod (-y) = -(x.fmod y) := Int.neg_fmod_neg x y
    have hlow := Int.fmod_nonneg_of_pos (-x) (Int.neg_pos_of_neg hneg)
    have hhigh := Int.fmod_lt_of_pos (-x) (Int.neg_pos_of_neg hneg)
    refine ⟨hwhole, by omega, ?_⟩
    by_cases hzero : x.fmod y = 0
    · exact .inl hzero
    · exact .inr (by rw [Int.sign_eq_neg_one_of_neg hneg, Int.sign_eq_neg_one_of_neg (by omega)])
  · have hlow := Int.fmod_nonneg_of_pos x hpos
    have hhigh := Int.fmod_lt_of_pos x hpos
    refine ⟨hwhole, by omega, ?_⟩
    by_cases hzero : x.fmod y = 0
    · exact .inl hzero
    · exact .inr (by rw [Int.sign_eq_one_of_pos hpos, Int.sign_eq_one_of_pos (by omega)])

theorem toInt_ne_zero (hb : b ≠ 0) : b.toInt ≠ 0 := fun he =>
  hb (Int64.toInt_inj.1 he)

theorem gives_divide (h : divide (.int a) (.int b) = .ok (.int i)) :
    BinaryOp.quotient.Gives a.toInt b.toInt i.toInt := by
  unfold divide at h
  split at h
  · cases h
  · rename_i hb hx hy
    cases hx
    cases hy
    split at h
    · rename_i hrem
      have hne : b ≠ 0 := fun he => hb he
      refine ⟨toInt_ne_zero hne, ?_⟩
      rw [eq_of_fit h, Int.mul_tdiv_cancel_of_dvd (Int.dvd_of_tmod_eq_zero hrem)]
    · exact absurd h (finite_ne_int _)
  · rename_i hy
    cases hy
  · rename_i hno
    exact absurd rfl (hno a b rfl)

/-- A division of integers is refused for zero, and where the quotient does
not fit. -/
theorem dividing_int (op : Int → Int → Int) (a b : Int64) : dividing op (.int a) (.int b)
    = if b = 0 then .error zeroDivisor
      else (fit (a.toInt.tdiv b.toInt)).bind fun _ => fit (op a.toInt b.toInt) := by
  unfold dividing
  by_cases hb : b = 0
  · subst hb
    rfl
  · rw [if_neg hb]
    show (if b = 0 then _ else _) = _
    rw [if_neg hb]
    rfl

theorem eq_of_dividing {op : Int → Int → Int} (h : dividing op (.int a) (.int b) = .ok (.int i)) :
    b.toInt ≠ 0 ∧ i.toInt = op a.toInt b.toInt := by
  rw [dividing_int] at h
  split at h
  · cases h
  · rename_i hb
    refine ⟨toInt_ne_zero hb, ?_⟩
    cases hq : fit (a.toInt.tdiv b.toInt) with
    | error e =>
      rw [hq] at h
      cases h
    | ok q =>
      rw [hq] at h
      exact eq_of_fit h

theorem pow_of_unit {x : Int} (hx : x = 0 ∨ x = 1 ∨ x = -1) {n : Nat} (hn : n ≠ 0) :
    x ^ n = if n % 2 = 0 then x * x else x := by
  rcases hx with rfl | rfl | rfl
  · simp [hn]
  · simp
  · split
    · rename_i heven
      rw [(Nat.even_iff.2 heven).neg_one_pow]
      rfl
    · rename_i hodd
      rw [(Nat.odd_iff.2 (by omega)).neg_one_pow]

theorem raised_of_integerPower (h : integerPower a b = .ok (.int i)) :
    Raised a.toInt b.toInt i.toInt := by
  unfold integerPower at h
  unfold Raised
  split at h
  · rename_i hneg
    have hneg : b.toInt < 0 := Int64.lt_iff_toInt_lt.1 hneg
    rw [if_neg (Int.not_le.2 hneg)]
    split at h
    · rename_i hunit
      have hunit : a.toInt = 1 ∨ a.toInt = -1 := by
        simpa [← Int64.toInt_inj] using hunit
      cases h
      rw [pow_of_unit (.inr hunit) (by omega)]
      have hparity : b.toInt % 2 = 0 ↔ b.toInt.natAbs % 2 = 0 := by omega
      simp only [hparity]
      split <;> rcases hunit with ha | ha <;> rw [ha] <;> rfl
    · cases h
  · rename_i hpos
    have hpos : 0 ≤ b.toInt := Int.not_lt.1 fun hlt => hpos (Int64.lt_iff_toInt_lt.2 hlt)
    rw [if_pos hpos]
    split at h
    · cases h
    · split at h
      · rename_i hunit
        have hunit : a.toInt = 0 ∨ a.toInt = 1 ∨ a.toInt = -1 := by
          simpa [← Int64.toInt_inj, or_assoc] using hunit
        have he := eq_of_fit h
        split at he
        · rename_i hzero
          rw [he, hzero]
          exact (pow_zero _).symm
        · rename_i hzero
          have hne : b.toInt.toNat ≠ 0 := by
            have := toInt_ne_zero hzero
            omega
          have hparity : b.toInt % 2 = 0 ↔ b.toInt.toNat % 2 = 0 := by omega
          rw [he, pow_of_unit hunit hne]
          simp only [hparity]
      · split at h
        · cases h
        · exact eq_of_fit h

theorem toInt_min (h : (if Number.compareValue (.int a) (.int b) == .gt then Number.int b else .int a)
    = .int i) : i.toInt = a.toInt ⊓ b.toInt := by
  replace h : (if compare a.toInt b.toInt == .gt then Number.int b else .int a) = .int i := h
  split at h <;> rename_i hc <;> cases h
  · exact (min_eq_right (compare_gt_iff_gt.1 (eq_of_beq hc)).le).symm
  · exact (min_eq_left (compare_le_iff_le.1 fun he => hc (beq_iff_eq.2 he))).symm

theorem toInt_max (h : (if Number.compareValue (.int a) (.int b) == .lt then Number.int b else .int a)
    = .int i) : i.toInt = a.toInt ⊔ b.toInt := by
  replace h : (if compare a.toInt b.toInt == .lt then Number.int b else .int a) = .int i := h
  split at h <;> rename_i hc <;> cases h
  · exact (max_eq_right (compare_lt_iff_lt.1 (eq_of_beq hc)).le).symm
  · exact (max_eq_left (compare_ge_iff_ge.1 fun he => hc (beq_iff_eq.2 he))).symm

theorem toInt_sign (a : Int64) : (Int64.ofInt a.toInt.sign).toInt = a.toInt.sign := by
  rcases Int.sign_trichotomy a.toInt with h | h | h <;> rw [h] <;> rfl

theorem BinaryOp.gives_of_apply (op : BinaryOp) (h : op.apply (.int a) (.int b) = .ok (.int i)) :
    op.Gives a.toInt b.toInt i.toInt := by
  cases op with
  | add => exact eq_of_fit h
  | sub => exact eq_of_fit h
  | mul => exact eq_of_fit h
  | quotient => exact gives_divide h
  | div =>
    obtain ⟨hb, he⟩ := eq_of_dividing h
    exact ⟨_, he ▸ divided_tdiv hb _⟩
  | rem =>
    obtain ⟨hb, he⟩ := eq_of_dividing h
    exact ⟨_, he ▸ divided_tdiv hb _⟩
  | mod =>
    obtain ⟨hb, he⟩ := eq_of_dividing h
    exact ⟨_, he ▸ divided_modulo hb _⟩
  | min => exact toInt_min (Except.ok.inj h)
  | max => exact toInt_max (Except.ok.inj h)
  | and =>
    cases h
    exact testBit_and a b
  | or =>
    cases h
    exact testBit_or a b
  | xor =>
    cases h
    exact testBit_xor a b
  | power => exact raised_of_integerPower h

theorem UnaryOp.gives_of_apply (op : UnaryOp) (h : op.apply (.int a) = .ok (.int i)) :
    op.Gives a.toInt i.toInt := by
  cases op with
  | plus =>
    cases h
    rfl
  | minus => exact eq_of_fit h
  | abs =>
    rw [UnaryOp.Gives, eq_of_fit h, Int.natCast_natAbs]
  | sign =>
    cases h
    exact toInt_sign a
  | complement =>
    cases h
    exact testBit_complement a

end

-- ================================================== computing on numbers alone

/-- What an expression is computed to, operands from left to right. -/
def Expr.compute : Expr → Except Failure Number
  | .const i => .ok (.int i)
  | .unary op x => x.compute.bind op.apply
  | .binary op x y => x.compute.bind fun a => y.compute.bind (op.apply a)

def Expr.depth : Expr → Nat
  | .const _ => 0
  | .unary _ x => x.depth + 1
  | .binary _ x y => max x.depth y.depth + 1

end Arithmetic

open Arithmetic (Expr UnaryOp BinaryOp)

/-- With bindings followed, the term is written as the expression. -/
inductive Frames.Spells (fs : Frames) : Term → Expr → Prop
  | const {t : Term} {i : Int64} (ht : fs.resolve t = .number (.int i)) : Spells fs t (.const i)
  | unary {t u : Term} {op : UnaryOp} {x : Expr} (ht : (fs.resolve t).functor? = some (op.name, 1))
      (hargs : (fs.resolve t).args = [u]) (hu : Spells fs u x) : Spells fs t (.unary op x)
  | binary {t u v : Term} {op : BinaryOp} {x y : Expr}
      (ht : (fs.resolve t).functor? = some (op.name, 2)) (hargs : (fs.resolve t).args = [u, v])
      (hu : Spells fs u x) (hv : Spells fs v y) : Spells fs t (.binary op x y)

/-- From a term to its operands. -/
def Frames.Operand (fs : Frames) (t u : Term) : Prop := u ∈ (fs.resolve t).args

namespace Arithmetic

section

variable {env : Env} {m m' : Machine} {t u v : Term} {e : Expr} {n : Number} {steps : Nat}

theorem evalWithin_const {i : Int64} (ht : m.query.frames.resolve t = .number (.int i))
    (hsteps : 0 < env.steps) : evalWithin (steps + 1) t env m = .ok (.int i) m := by
  rw [evalWithin, Act.bind_apply, Act.strip_apply_of_ne_thunk (by simp [ht]) hsteps, ht]
  rfl

/-- The operands of a compound are evaluated from left to right. -/
theorem evalWithin_unary {op : UnaryOp}
    (ht : (m.query.frames.resolve t).functor? = some (op.name, 1))
    (hargs : (m.query.frames.resolve t).args = [u]) (hsteps : 0 < env.steps) :
    evalWithin (steps + 1) t env m
      = (do let a ← evalWithin steps u; Act.checked (op.apply a)) env m := by
  have hthunk : ∀ id, m.query.frames.resolve t ≠ .thunk id := fun id he => by
    simp [he, Term.args] at hargs
  rw [evalWithin, Act.bind_apply, Act.strip_apply_of_ne_thunk hthunk hsteps]
  generalize m.query.frames.resolve t = r at ht hargs ⊢
  cases r with
  | compound | closure => simp only [ht, hargs, unary?_name]
  | _ => simp [Term.args] at hargs

theorem evalWithin_binary {op : BinaryOp}
    (ht : (m.query.frames.resolve t).functor? = some (op.name, 2))
    (hargs : (m.query.frames.resolve t).args = [u, v]) (hsteps : 0 < env.steps) :
    evalWithin (steps + 1) t env m
      = (do let a ← evalWithin steps u; let b ← evalWithin steps v; Act.checked (op.apply a b)) env m := by
  have hthunk : ∀ id, m.query.frames.resolve t ≠ .thunk id := fun id he => by
    simp [he, Term.args] at hargs
  rw [evalWithin, Act.bind_apply, Act.strip_apply_of_ne_thunk hthunk hsteps]
  generalize m.query.frames.resolve t = r at ht hargs ⊢
  cases r with
  | compound | closure => simp only [ht, hargs, binary?_name]
  | _ => simp [Term.args] at hargs

/-- With steps for its depth, a term that spells an expression is evaluated to
what the expression is computed to, and nothing changes. -/
theorem evalWithin_spelled (h : m.query.frames.Spells t e) (hsteps : 0 < env.steps)
    (hdepth : e.depth < steps) : evalWithin steps t env m = Act.checked e.compute env m := by
  induction h generalizing steps with
  | const ht =>
    obtain ⟨k, rfl⟩ := Nat.exists_eq_succ_of_ne_zero (Nat.ne_zero_of_lt hdepth)
    exact evalWithin_const ht hsteps
  | @unary t u op x ht hargs _ ih =>
    obtain ⟨k, rfl⟩ := Nat.exists_eq_succ_of_ne_zero (Nat.ne_zero_of_lt hdepth)
    rw [evalWithin_unary ht hargs hsteps, Act.bind_apply, ih (Nat.lt_of_succ_lt_succ hdepth),
      Expr.compute]
    cases x.compute <;> rfl
  | @binary t u v op x y ht hargs _ _ ihx ihy =>
    obtain ⟨k, rfl⟩ := Nat.exists_eq_succ_of_ne_zero (Nat.ne_zero_of_lt hdepth)
    obtain ⟨hx, hy⟩ := Nat.max_lt.1 (Nat.lt_of_succ_lt_succ hdepth)
    rw [evalWithin_binary ht hargs hsteps, Act.bind_apply, ihx hx, Expr.compute]
    cases x.compute with
    | error f => rfl
    | ok a =>
      show (do let b ← evalWithin k v; Act.checked (op.apply a b)) env m = _
      rw [Act.bind_apply, ihy hy]
      show _ = Act.checked (y.compute.bind (op.apply a)) env m
      cases y.compute <;> rfl

/-- Without steps for its depth, it is not evaluated. -/
theorem depth_lt_of_evalWithin (h : m.query.frames.Spells t e) (hsteps : 0 < env.steps)
    (hok : evalWithin steps t env m = .ok n m') : e.depth < steps := by
  induction h generalizing steps n m' with
  | const =>
    cases steps with
    | zero => cases hok
    | succ k => exact Nat.succ_pos k
  | @unary t u op x ht hargs _ ih =>
    cases steps with
    | zero => cases hok
    | succ k =>
      rw [evalWithin_unary ht hargs hsteps, Act.bind_apply] at hok
      cases hu : evalWithin k u env m with
      | error f m' =>
        rw [hu] at hok
        cases hok
      | ok a m' => exact Nat.succ_lt_succ (ih hu)
  | @binary t u v op x y ht hargs hu _ ihx ihy =>
    cases steps with
    | zero => cases hok
    | succ k =>
      rw [evalWithin_binary ht hargs hsteps, Act.bind_apply] at hok
      cases hx : evalWithin k u env m with
      | error f m' =>
        rw [hx] at hok
        cases hok
      | ok a m₁ =>
        have hdepth := ihx hx
        -- the first operand leaves the machine as it was
        have hsame : m₁ = m := by
          rw [evalWithin_spelled hu hsteps hdepth] at hx
          cases hc : x.compute with
          | error f =>
            rw [hc] at hx
            cases hx
          | ok b =>
            rw [hc] at hx
            cases hx
            rfl
        subst hsame
        rw [hx] at hok
        replace hok : (do let b ← evalWithin k v; Act.checked (op.apply a b)) env m₁ = .ok n m' := hok
        rw [Act.bind_apply] at hok
        cases hy : evalWithin k v env m₁ with
        | error f m' =>
          rw [hy] at hok
          cases hok
        | ok b m₂ => exact Nat.succ_lt_succ (Nat.max_lt.2 ⟨hdepth, ihy hy⟩)

-- ================================================== exactness

theorem bind_eq_ok {α β : Type} {r : Except Failure α} {f : α → Except Failure β} {b : β}
    (h : r.bind f = .ok b) : ∃ a, r = .ok a ∧ f a = .ok b := by
  cases r with
  | error e => cases h
  | ok a => exact ⟨a, rfl, h⟩

theorem eval_apply : eval t env m = evalWithin env.steps t env m := rfl

theorem depth_lt_of_eval (h : m.query.frames.Spells t e) (hok : eval t env m = .ok n m') :
    0 < env.steps ∧ e.depth < env.steps := by
  rw [eval_apply] at hok
  have hsteps : 0 < env.steps := by
    by_contra hzero
    rw [Nat.eq_zero_of_not_pos hzero] at hok
    cases hok
  exact ⟨hsteps, depth_lt_of_evalWithin h hsteps hok⟩

/-- What a term that spells an expression is evaluated to, the expression is
computed to; nothing changes. -/
theorem compute_of_eval (h : m.query.frames.Spells t e) (hok : eval t env m = .ok n m') :
    e.compute = .ok n ∧ m' = m := by
  obtain ⟨hsteps, hdepth⟩ := depth_lt_of_eval h hok
  rw [eval_apply, evalWithin_spelled h hsteps hdepth] at hok
  cases hc : e.compute with
  | error f =>
    rw [hc] at hok
    cases hok
  | ok a =>
    rw [hc] at hok
    cases hok
    exact ⟨rfl, rfl⟩

/-- No operand of the term, however deep, is evaluated to a float, and neither
is the term. -/
def FloatFree (env : Env) (m : Machine) (t : Term) : Prop :=
  ∀ u, Relation.ReflTransGen m.query.frames.Operand t u → ∀ b m', eval u env m ≠ .ok (.float b) m'

theorem FloatFree.operand (h : FloatFree env m t) (hu : m.query.frames.Operand t u) :
    FloatFree env m u :=
  fun w hw => h w (.head hu hw)

/-- Such a term is computed to an integer, if to a number. -/
theorem FloatFree.integer (h : FloatFree env m t) (ht : m.query.frames.Spells t e)
    (hsteps : 0 < env.steps) (hdepth : e.depth < env.steps) (hn : e.compute = .ok n) :
    ∃ i, n = .int i := by
  cases n with
  | int i => exact ⟨i, rfl⟩
  | float b =>
    refine absurd ?_ (h t .refl b m)
    rw [eval_apply, evalWithin_spelled ht hsteps hdepth, hn]
    rfl

/-- If no operand is a float, an integer that an expression is computed to is
its value. -/
theorem FloatFree.value (hfree : FloatFree env m t) (h : m.query.frames.Spells t e)
    (hsteps : 0 < env.steps) (hdepth : e.depth < env.steps) {i : Int64}
    (hi : e.compute = .ok (.int i)) : e.Value i.toInt := by
  induction h generalizing i with
  | const =>
    cases hi
    exact .const _
  | @unary t u op x ht hargs hu ih =>
    have hfree := hfree.operand (u := u) (by simp [Frames.Operand, hargs])
    have hdepth : x.depth < env.steps := Nat.lt_of_succ_lt hdepth
    obtain ⟨n, hn, hi⟩ := bind_eq_ok hi
    obtain ⟨a, rfl⟩ := hfree.integer hu hsteps hdepth hn
    exact .unary (ih hfree hdepth hn) (op.gives_of_apply hi)
  | @binary t u v op x y ht hargs hu hv ihx ihy =>
    have hfreeu := hfree.operand (u := u) (by simp [Frames.Operand, hargs])
    have hfreev := hfree.operand (u := v) (by simp [Frames.Operand, hargs])
    have hdepth : max x.depth y.depth < env.steps := Nat.lt_of_succ_lt hdepth
    obtain ⟨hx, hy⟩ := Nat.max_lt.1 hdepth
    obtain ⟨n, hn, hi⟩ := bind_eq_ok hi
    obtain ⟨k, hk, hi⟩ := bind_eq_ok hi
    obtain ⟨a, rfl⟩ := hfreeu.integer hu hsteps hx hn
    obtain ⟨b, rfl⟩ := hfreev.integer hv hsteps hy hk
    exact .binary (ihx hfreeu hx hn) (ihy hfreev hy hk) (op.gives_of_apply hi)

/-- A division by zero fails. -/
theorem BinaryOp.apply_zero {op : BinaryOp} (h : op.Divides) (a : Int64) :
    op.apply (.int a) (.int 0) = .error zeroDivisor := by
  cases op with
  | quotient => rfl
  | div | rem | mod => rfl
  | _ => exact h.elim

/-- Evaluating an expression over integers, no part of which is a float, gives
its value among the mathematical integers if it gives an integer, and changes
nothing. A division whose operands are evaluated to integers, the second to
zero, fails with a zero divisor. -/
theorem integers_evaluate_exactly (h : m.query.frames.Spells t e) :
    (FloatFree env m t → ∀ i m', eval t env m = .ok (.int i) m' → e.Value i.toInt ∧ m' = m)
    ∧ ∀ op x y u v a m₁ m₂, op.Divides → e = .binary op x y →
        (m.query.frames.resolve t).args = [u, v] → e.depth < env.steps →
        eval u env m = .ok (.int a) m₁ → eval v env m = .ok (.int 0) m₂ →
        eval t env m = .error zeroDivisor m := by
  refine ⟨fun hfree i m' hok => ?_, fun op x y u v a m₁ m₂ hop he hargs hdepth hu hv => ?_⟩
  · obtain ⟨hsteps, hdepth⟩ := depth_lt_of_eval h hok
    obtain ⟨hi, rfl⟩ := compute_of_eval h hok
    exact ⟨hfree.value h hsteps hdepth hi, rfl⟩
  · subst he
    cases h with
    | binary ht hargs' hx hy =>
      obtain ⟨rfl, rfl⟩ : _ = u ∧ _ = v := by simpa using hargs'.symm.trans hargs
      have hsteps := (depth_lt_of_eval hx hu).1
      have hcompute : (Expr.binary op x y).compute = .error zeroDivisor := by
        rw [Expr.compute, (compute_of_eval hx hu).1]
        show y.compute.bind _ = _
        rw [(compute_of_eval hy hv).1]
        exact BinaryOp.apply_zero hop a
      rw [eval_apply, evalWithin_spelled (.binary ht hargs' hx hy) hsteps hdepth, hcompute]
      rfl

theorem FloatFree.of_operands (ht : ∀ b m', eval t env m ≠ .ok (.float b) m')
    (hargs : ∀ u ∈ (m.query.frames.resolve t).args, FloatFree env m u) : FloatFree env m t := by
  intro u hu
  rcases Relation.ReflTransGen.cases_head hu with rfl | ⟨w, hw, hu⟩
  · exact ht
  · exact hargs w hw u hu

end

/-- A machine whose root frame has one slot, of value -7. -/
def sevenBelow : Machine where
  db := Database.empty 1
  query := { Query.blank with
    frames := (Frames.push {} 1 none .succeed none 1 none).1.setValue Query.root 0 (.int (-7)) }

/-- `X // 2 + X mod 2` for the slot of that frame. -/
def halves : Term :=
  .closure 0 "+" [.compound (.template 1) "//" [.var (.slot 0 "X"), .int 2],
    .compound (.template 2) "mod" [.var (.slot 0 "X"), .int 2]] Query.root

/-- The quotient is -3 and what `mod` leaves is 1; and `rem` by zero fails. -/
theorem integers_evaluate_exactly_halves :
    Expr.Value (.binary .add (.binary .div (.const (-7)) (.const 2))
      (.binary .mod (.const (-7)) (.const 2))) (-2)
    ∧ eval (.compound .plain "rem" [halves, .int 0]) (Env.nested 5 0) sevenBelow
        = .error zeroDivisor sevenBelow := by
  have hvalue : eval halves (Env.nested 5 0) sevenBelow = .ok (.int (-2)) sevenBelow := rfl
  have hx : sevenBelow.query.frames.resolve (.ref ⟨Query.root, 0⟩ "X") = .number (.int (-7)) := rfl
  have hspelled : sevenBelow.query.frames.Spells halves
      (.binary .add (.binary .div (.const (-7)) (.const 2)) (.binary .mod (.const (-7)) (.const 2))) :=
    .binary rfl rfl (.binary rfl rfl (.const hx) (.const rfl)) (.binary rfl rfl (.const hx) (.const rfl))
  have hleaf : ∀ {t : Term} {i : Int64}, eval t (Env.nested 5 0) sevenBelow = .ok (.int i) sevenBelow →
      (sevenBelow.query.frames.resolve t).args = [] → FloatFree (Env.nested 5 0) sevenBelow t :=
    fun ht hargs => .of_operands (fun b m' h => nomatch ht.symm.trans h) fun u hu =>
      absurd (hargs ▸ hu) List.not_mem_nil
  have hpair : ∀ {t u v : Term} {i : Int64},
      eval t (Env.nested 5 0) sevenBelow = .ok (.int i) sevenBelow →
      (sevenBelow.query.frames.resolve t).args = [u, v] →
      FloatFree (Env.nested 5 0) sevenBelow u → FloatFree (Env.nested 5 0) sevenBelow v →
      FloatFree (Env.nested 5 0) sevenBelow t := by
    intro t u v i ht hargs hu hv
    refine .of_operands (fun b m' h => nomatch ht.symm.trans h) fun w hw => ?_
    rw [hargs] at hw
    rcases List.mem_pair.1 hw with rfl | rfl
    · exact hu
    · exact hv
  have hseven : FloatFree (Env.nested 5 0) sevenBelow (.ref ⟨Query.root, 0⟩ "X") :=
    hleaf (i := -7) rfl rfl
  have htwo : FloatFree (Env.nested 5 0) sevenBelow (.int 2) := hleaf (i := 2) rfl rfl
  have hfree : FloatFree (Env.nested 5 0) sevenBelow halves :=
    hpair hvalue rfl (hpair (i := -3) rfl rfl hseven htwo) (hpair (i := 1) rfl rfl hseven htwo)
  refine ⟨((integers_evaluate_exactly hspelled).1 hfree _ _ hvalue).1, ?_⟩
  have hrem : sevenBelow.query.frames.Spells (.compound .plain "rem" [halves, .int 0])
      (.binary .rem _ (.const 0)) := .binary rfl rfl hspelled (.const rfl)
  exact (integers_evaluate_exactly hrem).2 .rem _ _ _ _ _ _ _ trivial rfl rfl (by decide) hvalue rfl

end Arithmetic

end LogicMachine
