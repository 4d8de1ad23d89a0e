import JvmPatch.Decimal.Reading
import Mathlib.Algebra.Order.Field.Power
import Mathlib.Data.Rat.Cast.Order
import Mathlib.Tactic.FieldSimp
import Mathlib.Tactic.Linarith
import Mathlib.Tactic.NormNum
import Mathlib.Tactic.Positivity
import Mathlib.Tactic.Ring

/-! A decimal in the interval of a binary number is read as that number. -/

set_option autoImplicit false

namespace JvmPatch.Decimal

theorem cast_twoTo (n : Nat) : (twoTo n : ℚ) = 2 ^ n := by simp [twoTo]

theorem cast_tenTo (n : Nat) : (tenTo n : ℚ) = 10 ^ n := by simp [tenTo]

theorem twoTo_pos (n : Nat) : 0 < twoTo n := Nat.pow_pos (by decide)

theorem tenTo_pos (n : Nat) : 0 < tenTo n := Nat.pow_pos (by decide)

theorem twoTo_succ (n : Nat) : twoTo (n + 1) = 2 * twoTo n := by
  simp [twoTo, pow_succ, Nat.mul_comm]

/-- A power with an integer exponent as a fraction of two powers, of which one is one. -/
theorem zpow_eq_div (b : ℚ) (k : ℤ) : b ^ k = b ^ k.toNat / b ^ (-k).toNat := by
  rcases Int.le_total 0 k with nonneg | nonpos
  · obtain ⟨n, rfl⟩ := Int.eq_ofNat_of_zero_le nonneg
    simp
  · obtain ⟨n, hn⟩ := Int.eq_ofNat_of_zero_le (Int.neg_nonneg_of_nonpos nonpos)
    obtain rfl : k = -(n : ℤ) := by omega
    simp

def Scientific.toRat (d : Scientific) : ℚ := d.coefficient * 10 ^ d.exponent

def Interval.Holds (i : Interval) (v : ℚ) : Prop :=
  if i.closed then i.low * 2 ^ i.unit ≤ v ∧ v ≤ i.high * 2 ^ i.unit
  else i.low * 2 ^ i.unit < v ∧ v < i.high * 2 ^ i.unit

theorem Interval.Holds.bounds {i : Interval} {v : ℚ} (holds : i.Holds v) :
    i.low * 2 ^ i.unit ≤ v ∧ v ≤ i.high * 2 ^ i.unit := by
  unfold Holds at holds
  split at holds
  · exact holds
  · exact ⟨holds.1.le, holds.2.le⟩

/-! ### Rounding a quotient -/

/-- The quotient is nearest to the number, or as near as another number but even. -/
theorem roundDiv_eq {num den m : Nat} (pos : 0 < den)
    (low : 2 * m * den ≤ 2 * num + den) (high : 2 * num ≤ 2 * m * den + den)
    (tie : m % 2 = 1 → 2 * m * den ≠ 2 * num + den ∧ 2 * num ≠ 2 * m * den + den) :
    roundDiv num den = m := by
  have parts := Nat.div_add_mod num den
  have small := Nat.mod_lt num pos
  unfold roundDiv
  generalize num / den = k at *
  generalize num % den = r at *
  subst parts
  rw [Nat.mul_assoc, Nat.mul_comm m den] at low high tie
  have notAbove : k ≤ m := by
    by_contra above
    have next := Nat.mul_le_mul_left den (Nat.not_le.1 above)
    rw [Nat.mul_succ] at next
    omega
  have nearly : m ≤ k + 1 := by
    by_contra below
    have next := Nat.mul_le_mul_left den (Nat.not_le.1 below)
    rw [Nat.mul_succ, Nat.mul_succ] at next
    omega
  rcases Nat.lt_or_ge k m with less | same
  · obtain rfl : m = k + 1 := by omega
    rw [Nat.mul_succ] at low tie
    have half : den ≤ 2 * r := by omega
    rw [if_pos]
    rcases Nat.lt_or_eq_of_le half with more | equal
    · simp [more]
    · -- At a tie the number is even, so the quotient is odd.
      have odd : k % 2 = 1 := by
        by_contra even
        exact (tie (by omega)).1 (by omega)
      simp [← equal, odd]
  · obtain rfl : k = m := by omega
    have half : 2 * r ≤ den := by omega
    rw [if_neg]
    simp only [Bool.or_eq_true, Bool.and_eq_true, decide_eq_true_eq, beq_iff_eq, not_or, not_and]
    refine ⟨by omega, fun equal odd => (tie odd).2 (by omega)⟩

/-- The same with the quotient as a number. -/
theorem roundDiv_of_near {num den m : Nat} (pos : 0 < den) {v : ℚ} (quotient : v = num / den)
    (low : (m : ℚ) - 1 / 2 ≤ v) (high : v ≤ m + 1 / 2)
    (tie : m % 2 = 1 → (m : ℚ) - 1 / 2 ≠ v ∧ v ≠ m + 1 / 2) : roundDiv num den = m := by
  have denPos : (0 : ℚ) < den := by exact_mod_cast pos
  have product : v * den = num := by rw [quotient, div_mul_cancel₀ _ denPos.ne']
  refine roundDiv_eq pos ?_ ?_ ?_
  · have scaled := mul_le_mul_of_nonneg_right low denPos.le
    have : (2 * m * den : ℚ) ≤ 2 * num + den := by linarith
    exact_mod_cast this
  · have scaled := mul_le_mul_of_nonneg_right high denPos.le
    have : (2 * num : ℚ) ≤ 2 * m * den + den := by linarith
    exact_mod_cast this
  · intro odd
    obtain ⟨notLow, notHigh⟩ := tie odd
    constructor
    · intro equal
      have cast : (2 * m * den : ℚ) = 2 * num + den := by exact_mod_cast equal
      refine notLow (mul_right_cancel₀ denPos.ne' ?_)
      linarith
    · intro equal
      have cast : (2 * num : ℚ) = 2 * m * den + den := by exact_mod_cast equal
      refine notHigh (mul_right_cancel₀ denPos.ne' ?_)
      linarith

/-! ### The nearest binary number -/

def leadingBit (num den : Nat) : ℤ :=
  let exponent := Int.ofNat (Nat.log2 num) - Int.ofNat (Nat.log2 den)
  if num * twoTo (-exponent).toNat < den * twoTo exponent.toNat then exponent - 1 else exponent

theorem two_zpow_toNat (k : ℤ) : (2 : ℚ) ^ k = twoTo k.toNat / twoTo (-k).toNat := by
  rw [cast_twoTo, cast_twoTo, zpow_eq_div]

theorem div_lt_two_zpow_iff {den : Nat} (pos : 0 < den) (num : Nat) (k : ℤ) :
    num * twoTo (-k).toNat < den * twoTo k.toNat ↔ (num : ℚ) / den < 2 ^ k := by
  have den0 : (0 : ℚ) < den := by exact_mod_cast pos
  rw [two_zpow_toNat, div_lt_div_iff₀ den0 (by exact_mod_cast twoTo_pos _),
    mul_comm (twoTo k.toNat : ℚ)]
  exact_mod_cast Iff.rfl

theorem leadingBit_spec {num den : Nat} (numPos : 0 < num) (denPos : 0 < den) :
    (2 : ℚ) ^ leadingBit num den ≤ num / den ∧ (num : ℚ) / den < 2 ^ (leadingBit num den + 1) := by
  have numLow : (2 : ℚ) ^ (Nat.log2 num : ℤ) ≤ num := by
    rw [zpow_natCast]
    exact_mod_cast Nat.log2_self_le numPos.ne'
  have numHigh : (num : ℚ) < 2 ^ (Nat.log2 num + 1 : ℤ) := by
    have := @Nat.lt_log2_self num
    rw [← Nat.cast_succ, zpow_natCast]
    exact_mod_cast this
  have denLow : (2 : ℚ) ^ (Nat.log2 den : ℤ) ≤ den := by
    rw [zpow_natCast]
    exact_mod_cast Nat.log2_self_le denPos.ne'
  have denHigh : (den : ℚ) < 2 ^ (Nat.log2 den + 1 : ℤ) := by
    have := @Nat.lt_log2_self den
    rw [← Nat.cast_succ, zpow_natCast]
    exact_mod_cast this
  have den0 : (0 : ℚ) < den := by exact_mod_cast denPos
  have below := div_lt_two_zpow_iff denPos num (Int.ofNat (Nat.log2 num) - Int.ofNat (Nat.log2 den))
  unfold leadingBit
  simp only [below]
  split
  · refine ⟨?_, by simpa using ‹_›⟩
    rw [le_div_iff₀ den0]
    calc (2 : ℚ) ^ ((Nat.log2 num : ℤ) - Nat.log2 den - 1) * den
        ≤ 2 ^ ((Nat.log2 num : ℤ) - Nat.log2 den - 1) * 2 ^ (Nat.log2 den + 1 : ℤ) := by gcongr
      _ = 2 ^ (Nat.log2 num : ℤ) := by rw [← zpow_add₀ two_ne_zero]; congr 1; ring
      _ ≤ num := numLow
  · refine ⟨not_lt.1 ‹_›, ?_⟩
    rw [div_lt_iff₀ den0]
    calc (num : ℚ) < 2 ^ (Nat.log2 num + 1 : ℤ) := numHigh
      _ = 2 ^ ((Nat.log2 num : ℤ) - Nat.log2 den + 1) * 2 ^ (Nat.log2 den : ℤ) := by
        rw [← zpow_add₀ two_ne_zero]; congr 1; ring
      _ ≤ 2 ^ ((Nat.log2 num : ℤ) - Nat.log2 den + 1) * den := by gcongr

/-- The leading bit is where the fraction lies between two powers. -/
theorem leadingBit_eq {num den : Nat} (numPos : 0 < num) (denPos : 0 < den) {k : ℤ}
    (low : (2 : ℚ) ^ k ≤ num / den) (high : (num : ℚ) / den < 2 ^ (k + 1)) :
    leadingBit num den = k := by
  obtain ⟨low', high'⟩ := leadingBit_spec numPos denPos
  have one := (zpow_lt_zpow_iff_right₀ (one_lt_two : (1 : ℚ) < 2)).1 (low.trans_lt high')
  have two := (zpow_lt_zpow_iff_right₀ (one_lt_two : (1 : ℚ) < 2)).1 (low'.trans_lt high)
  omega

/-- A mantissa and a shift as bit patterns have them: without the leading bit only at the smallest
shift. -/
structure Canonical (f : BinaryFormat) (mantissa shift : Nat) : Prop where
  pos : 0 < mantissa
  small : mantissa < 2 * twoTo f.fractionBits
  normal : 0 < shift → twoTo f.fractionBits ≤ mantissa

namespace BinaryFormat

variable {f : BinaryFormat} {mantissa shift : Nat}

def unitOf (f : BinaryFormat) (shift : Nat) : ℚ := 2 ^ (f.minExponent + shift)

theorem unitOf_pos (f : BinaryFormat) (shift : Nat) : 0 < f.unitOf shift :=
  zpow_pos (by norm_num) _

theorem unitOf_succ (f : BinaryFormat) (shift : Nat) :
    f.unitOf (shift + 1) = 2 * f.unitOf shift := by
  rw [unitOf, unitOf, Nat.cast_succ, ← add_assoc, zpow_add_one₀ two_ne_zero, mul_comm]

/-- The interval in units of the number: half a unit on both sides, and a quarter below a power of
two. The ends are admitted only if the mantissa is even. -/
theorem near_of_holds {v : ℚ}
    (holds : (f.interval mantissa shift).Holds v) :
    ((mantissa : ℚ) - 1 / 2) * f.unitOf shift ≤ v ∧ v ≤ (mantissa + 1 / 2) * f.unitOf shift ∧
      (mantissa % 2 = 1 → ((mantissa : ℚ) - 1 / 2) * f.unitOf shift ≠ v ∧
        v ≠ (mantissa + 1 / 2) * f.unitOf shift) ∧
      (mantissa = twoTo f.fractionBits → 0 < shift →
        ((mantissa : ℚ) - 1 / 4) * f.unitOf shift ≤ v) := by
  have unit : (2 : ℚ) ^ (f.interval mantissa shift).unit = f.unitOf shift / 4 := by
    change (2 : ℚ) ^ (f.minExponent + Int.ofNat shift - 2) = _
    rw [zpow_sub₀ two_ne_zero]
    norm_num [unitOf]
  have quarter : 0 ≤ f.unitOf shift / 4 := (div_pos (f.unitOf_pos shift) (by norm_num)).le
  have high : ((f.interval mantissa shift).high : ℚ) = 4 * mantissa + 2 := by
    simp [interval]
  have low : (4 * mantissa - 2 : ℚ) ≤ (f.interval mantissa shift).low := by
    have : 4 * mantissa ≤ (f.interval mantissa shift).low + 2 := by
      simp only [interval]
      split <;> omega
    have : (4 * mantissa : ℚ) ≤ (f.interval mantissa shift).low + 2 := by exact_mod_cast this
    linarith
  have lowPower : mantissa = twoTo f.fractionBits → 0 < shift →
      (4 * mantissa - 1 : ℚ) ≤ (f.interval mantissa shift).low := by
    intro power above
    have : 4 * mantissa ≤ (f.interval mantissa shift).low + 1 := by
      simp only [interval, if_pos (And.intro power above)]
      omega
    have : (4 * mantissa : ℚ) ≤ (f.interval mantissa shift).low + 1 := by exact_mod_cast this
    linarith
  have closed : (f.interval mantissa shift).closed = (mantissa % 2 == 0) := rfl
  -- The ends of the interval are counted in quarters of a unit.
  have lowScaled := mul_le_mul_of_nonneg_right low quarter
  obtain ⟨lower, upper⟩ := holds.bounds
  rw [unit] at lower upper
  rw [high] at upper
  refine ⟨by linarith, by linarith, fun odd => ?_, fun power above => ?_⟩
  · have isOpen : (f.interval mantissa shift).closed = false := by rw [closed, odd]; rfl
    rw [Interval.Holds, isOpen, if_neg Bool.false_ne_true, unit, high] at holds
    constructor
    · have := holds.1
      apply ne_of_lt
      linarith
    · have := holds.2
      apply ne_of_lt
      linarith
  · have := mul_le_mul_of_nonneg_right (lowPower power above) quarter
    linarith

theorem fraction_mul_unitOf (f : BinaryFormat) (k : Nat) :
    (twoTo f.fractionBits : ℚ) * f.unitOf k = 2 ^ (f.fractionBits + (f.minExponent + k)) := by
  rw [cast_twoTo, ← zpow_natCast, unitOf, ← zpow_add₀ two_ne_zero]

theorem nearest_of_leadingBit {num den : Nat} (k : Nat)
    (place : (leadingBit num den - f.fractionBits - f.minExponent).toNat = k) :
    f.nearest num den = f.pack (roundDiv (num * twoTo (-(f.minExponent + (k : ℤ))).toNat)
      (den * twoTo (f.minExponent + (k : ℤ)).toNat)) k := by
  subst place
  rfl

/-- A power of two is packed as twice that power with the unit before it. -/
theorem pack_carry (f : BinaryFormat) (k : Nat) :
    f.pack (2 * twoTo f.fractionBits) k = f.pack (twoTo f.fractionBits) (k + 1) := by
  have carry : k * twoTo f.fractionBits + 2 * twoTo f.fractionBits =
      (k + 1) * twoTo f.fractionBits + twoTo f.fractionBits := by ring
  rw [pack, pack, carry]

/-! Rounding a fraction to a multiple of the unit of a shift. -/

section Fraction

variable {num den : Nat} {v : ℚ} (quotient : v = num / den) (k : Nat)

include quotient

theorem roundDiv_of_unit (denPos : 0 < den) {m : Nat} (low : (m - 1 / 2 : ℚ) * f.unitOf k ≤ v)
    (high : v ≤ (m + 1 / 2) * f.unitOf k)
    (tie : m % 2 = 1 → (m - 1 / 2 : ℚ) * f.unitOf k ≠ v ∧ v ≠ (m + 1 / 2) * f.unitOf k) :
    roundDiv (num * twoTo (-(f.minExponent + (k : ℤ))).toNat)
      (den * twoTo (f.minExponent + (k : ℤ)).toNat) = m := by
  have unit := f.unitOf_pos k
  refine roundDiv_of_near (Nat.mul_pos denPos (twoTo_pos _)) (v := v / f.unitOf k) ?_ ?_ ?_
    fun odd => ?_
  · rw [quotient, unitOf, two_zpow_toNat]
    push_cast
    field_simp
  · rwa [le_div_iff₀ unit]
  · rwa [div_le_iff₀ unit]
  · rw [ne_eq, ne_eq, eq_div_iff unit.ne', div_eq_iff unit.ne']
    exact tie odd

/-- The place of the leading bit of a fraction between two multiples of the unit. -/
theorem leadingBit_of_unit (numPos : 0 < num) (denPos : 0 < den)
    (low : (twoTo f.fractionBits : ℚ) * f.unitOf k ≤ v)
    (high : v < 2 * (twoTo f.fractionBits * f.unitOf k)) :
    leadingBit num den = f.fractionBits + (f.minExponent + k) := by
  rw [fraction_mul_unitOf, quotient] at low high
  refine leadingBit_eq numPos denPos low ?_
  rwa [zpow_add_one₀ two_ne_zero, mul_comm]

/-- Below the normal numbers the unit does not get smaller. -/
theorem leadingBit_lt_of_unit (numPos : 0 < num) (denPos : 0 < den)
    (below : v < twoTo f.fractionBits * f.unitOf k) :
    leadingBit num den < f.fractionBits + (f.minExponent + k) := by
  rw [fraction_mul_unitOf, quotient] at below
  have start := (leadingBit_spec numPos denPos).1.trans_lt below
  exact (zpow_lt_zpow_iff_right₀ (one_lt_two : (1 : ℚ) < 2)).1 start

variable {k}

/-- Right below a power of two the unit is half as large, and rounding carries. -/
theorem nearest_below_power (numPos : 0 < num) (denPos : 0 < den)
    (low : (twoTo f.fractionBits - 1 / 4 : ℚ) * f.unitOf (k + 1) ≤ v)
    (below : v < twoTo f.fractionBits * f.unitOf (k + 1)) :
    f.nearest num den = f.pack (twoTo f.fractionBits) (k + 1) := by
  rw [f.unitOf_succ] at low below
  have unit := f.unitOf_pos k
  have one : f.unitOf k ≤ twoTo f.fractionBits * f.unitOf k :=
    le_mul_of_one_le_left unit.le (by exact_mod_cast twoTo_pos f.fractionBits)
  have place := leadingBit_of_unit quotient k numPos denPos (by linarith) (by linarith)
  have carried : roundDiv (num * twoTo (-(f.minExponent + (k : ℤ))).toNat)
      (den * twoTo (f.minExponent + (k : ℤ)).toNat) = 2 * twoTo f.fractionBits := by
    refine roundDiv_of_unit quotient k denPos ?_ ?_ fun odd => absurd odd (by omega)
    · push_cast
      linarith
    · push_cast
      linarith
  rw [nearest_of_leadingBit k (by omega), carried, pack_carry]

end Fraction

/-- A fraction in the interval of a number is nearest to it. -/
theorem nearest_of_holds (canonical : Canonical f mantissa shift) {num den : Nat}
    (numPos : 0 < num) (denPos : 0 < den)
    (holds : (f.interval mantissa shift).Holds (num / den)) :
    f.nearest num den = f.pack mantissa shift := by
  obtain ⟨v, quotient⟩ : ∃ v, v = (num : ℚ) / den := ⟨_, rfl⟩
  rw [← quotient] at holds
  obtain ⟨low, high, tie, power⟩ := near_of_holds holds
  have pos := f.unitOf_pos shift
  have small : (mantissa : ℚ) + 1 ≤ 2 * twoTo f.fractionBits := by exact_mod_cast canonical.small
  have rounded := roundDiv_of_unit quotient shift denPos low high tie
  rcases le_or_gt ((twoTo f.fractionBits : ℚ) * f.unitOf shift) v with normal | below
  · have atMost := mul_le_mul_of_nonneg_right small pos.le
    have place := leadingBit_of_unit quotient shift numPos denPos normal (by linarith)
    rw [nearest_of_leadingBit shift (by omega), rounded]
  · rcases Nat.eq_zero_or_pos shift with rfl | above
    · have place := leadingBit_lt_of_unit quotient 0 numPos denPos below
      rw [nearest_of_leadingBit 0 (by omega), rounded]
    · obtain ⟨k, rfl⟩ := Nat.exists_eq_succ_of_ne_zero above.ne'
      have isPower : mantissa = twoTo f.fractionBits := by
        by_contra other
        have more : (twoTo f.fractionBits : ℚ) + 1 ≤ mantissa := by
          exact_mod_cast lt_of_le_of_ne (canonical.normal above) (Ne.symm other)
        have atLeast := mul_le_mul_of_nonneg_right more pos.le
        linarith
      have quarter := power isPower above
      rw [isPower] at quarter ⊢
      exact nearest_below_power quotient numPos denPos quarter below

end BinaryFormat

end JvmPatch.Decimal
