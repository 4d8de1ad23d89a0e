import JvmPatch.Proofs.Decimal.Digits
import JvmPatch.Proofs.Decimal.Rounding
import Mathlib.Data.List.TakeWhile

/-! The search for the shortest decimal ends in the interval of the number: on the finest grid that
is tried, the steps are smaller than the distance between binary numbers. -/

set_option autoImplicit false

namespace JvmPatch.Decimal

/-! ### Grids -/

theorem gridFraction_eq (unit place : ℤ) (x : Nat) :
    ((gridFraction unit place x).1 : ℚ) / (gridFraction unit place x).2 =
      x * 2 ^ unit / 10 ^ place := by
  have tens : (tenTo (-place).toNat : ℚ) / tenTo place.toNat = (10 ^ place)⁻¹ := by
    rw [zpow_eq_div, cast_tenTo, cast_tenTo, inv_div]
  have twos : (twoTo unit.toNat : ℚ) / twoTo (-unit).toNat = 2 ^ unit := by
    rw [zpow_eq_div, cast_twoTo, cast_twoTo]
  have two0 : (twoTo (-unit).toNat : ℚ) ≠ 0 := by exact_mod_cast (twoTo_pos _).ne'
  have ten0 : (tenTo place.toNat : ℚ) ≠ 0 := by exact_mod_cast (tenTo_pos _).ne'
  rw [div_eq_mul_inv (x * 2 ^ unit : ℚ), ← tens, ← twos]
  simp only [gridFraction]
  push_cast
  field_simp

theorem gridFraction_pos (unit place : ℤ) (x : Nat) : 0 < (gridFraction unit place x).2 :=
  Nat.mul_pos (twoTo_pos _) (tenTo_pos _)

section Grid

variable (unit place : ℤ) (x k : Nat)

theorem gridFraction_le_iff : (gridFraction unit place x).1 ≤ k * (gridFraction unit place x).2 ↔
    (x * 2 ^ unit : ℚ) ≤ k * 10 ^ place := by
  have den : (0 : ℚ) < (gridFraction unit place x).2 := by
    exact_mod_cast gridFraction_pos unit place x
  rw [← div_le_iff₀ (zpow_pos (by norm_num) place), ← gridFraction_eq, div_le_iff₀ den]
  exact_mod_cast Iff.rfl

theorem le_gridFraction_iff : k * (gridFraction unit place x).2 ≤ (gridFraction unit place x).1 ↔
    (k * 10 ^ place : ℚ) ≤ x * 2 ^ unit := by
  have den : (0 : ℚ) < (gridFraction unit place x).2 := by
    exact_mod_cast gridFraction_pos unit place x
  rw [← le_div_iff₀ (zpow_pos (by norm_num) place), ← gridFraction_eq, le_div_iff₀ den]
  exact_mod_cast Iff.rfl

end Grid

theorem Interval.holds_of_contains {i : Interval} {place : ℤ} {k : Nat}
    (inside : i.contains place k = true) : i.Holds (k * 10 ^ place) := by
  unfold Interval.contains at inside
  unfold Interval.Holds
  cases closed : i.closed with
  | true =>
    simpa [closed, gridFraction_le_iff, le_gridFraction_iff] using inside
  | false =>
    simpa [closed, ← not_le, gridFraction_le_iff, le_gridFraction_iff] using inside

theorem Interval.contains_of_strict {i : Interval} {place : ℤ} {k : Nat}
    (low : (i.low * 2 ^ i.unit : ℚ) < k * 10 ^ place)
    (high : (k * 10 ^ place : ℚ) < i.high * 2 ^ i.unit) :
    i.contains place k = true := by
  unfold Interval.contains
  cases closed : i.closed with
  | true =>
    simpa [gridFraction_le_iff, le_gridFraction_iff] using And.intro low.le high.le
  | false =>
    simpa [← not_le, gridFraction_le_iff, le_gridFraction_iff] using And.intro low high

/-- What a grid offers lies in the interval. -/
theorem Interval.contains_of_hit {i : Interval} {place : ℤ} {k : Nat}
    (hit : i.hit? place = some k) :
    i.contains place k = true := by
  unfold Interval.hit? at hit
  dsimp only at hit
  split at hit
  · rename_i below above
    cases hit
    split
    · exact above
    · exact below
  · cases hit
    assumption
  · cases hit
    assumption
  · cases hit

theorem Interval.hit_isSome {i : Interval} {place : ℤ}
    (near : i.contains place (i.below place) = true ∨ i.contains place (i.below place + 1) = true) :
    ∃ k, i.hit? place = some k := by
  unfold Interval.hit?
  dsimp only
  rcases near with below | above
  · rw [below]
    cases i.contains place (i.below place + 1) <;> exact ⟨_, rfl⟩
  · rw [above]
    cases i.contains place (i.below place) <;> exact ⟨_, rfl⟩

/-- The search ends at the last grid at the latest. -/
theorem Interval.search_holds {i : Interval} {tries : Nat} {place : ℤ}
    (last : ∃ k, i.hit? (place - tries) = some k) : i.Holds (i.search (tries + 1) place).toRat := by
  induction tries generalizing place with
  | zero =>
    obtain ⟨k, hit⟩ := last
    rw [Nat.cast_zero, sub_zero] at hit
    simp only [Interval.search, hit]
    exact holds_of_contains (contains_of_hit hit)
  | succ tries ih =>
    rw [Interval.search]
    cases hit : i.hit? place with
    | some k => exact holds_of_contains (contains_of_hit hit)
    | none =>
      refine ih ?_
      obtain ⟨k, hit⟩ := last
      refine ⟨k, ?_⟩
      rwa [Nat.cast_succ, add_comm, ← sub_sub] at hit

/-- The points of a grid next to a number. -/
theorem Interval.below_spec (i : Interval) (place : ℤ) :
    (i.below place * 10 ^ place : ℚ) ≤ i.middle * 2 ^ i.unit ∧
      (i.middle * 2 ^ i.unit : ℚ) < (i.below place + 1 : Nat) * 10 ^ place := by
  have parts := Nat.div_add_mod (gridFraction i.unit place i.middle).1
    (gridFraction i.unit place i.middle).2
  have small := Nat.mod_lt (gridFraction i.unit place i.middle).1
    (gridFraction_pos i.unit place i.middle)
  constructor
  · rw [← le_gridFraction_iff]
    exact Nat.div_mul_le_self _ _
  · rw [← not_le, ← le_gridFraction_iff, not_le]
    exact Nat.lt_mul_of_div_lt (Nat.lt_succ_self _) (gridFraction_pos _ _ _)

theorem digitCount_pos (n : Nat) : 0 < digitCount n := Nat.length_toDigits_pos

theorem lt_tenTo_digitCount (n : Nat) : n < tenTo (digitCount n) :=
  (Nat.length_toDigits_le_iff (by decide) (digitCount_pos n)).1 le_rfl

theorem tenTo_digitCount_le {n : Nat} (pos : 0 < n) : tenTo (digitCount n - 1) ≤ n := by
  rcases Nat.eq_zero_or_pos (digitCount n - 1) with single | more
  · rw [single]
    exact pos
  · by_contra less
    have short := (Nat.length_toDigits_le_iff (by decide) more).2 (Nat.lt_of_not_le less)
    have count := digitCount_pos n
    unfold digitCount at *
    omega

/-- The place of the leading digit is not above it. -/
theorem Interval.leadingPlace_le {i : Interval} (pos : 0 < i.middle) :
    (10 ^ i.leadingPlace : ℚ) ≤ i.middle * 2 ^ i.unit := by
  have value := gridFraction_eq i.unit 0 i.middle
  rw [zpow_zero, div_one] at value
  have denPos := gridFraction_pos i.unit 0 i.middle
  have numPos : 0 < (gridFraction i.unit 0 i.middle).1 :=
    Nat.mul_pos (Nat.mul_pos pos (twoTo_pos _)) (tenTo_pos _)
  unfold Interval.leadingPlace
  dsimp only
  generalize (gridFraction i.unit 0 i.middle).1 = num at *
  generalize (gridFraction i.unit 0 i.middle).2 = den at *
  have den0 : (0 : ℚ) < den := by exact_mod_cast denPos
  rw [← value, le_div_iff₀ den0]
  split
  · have whole := tenTo_digitCount_le (Nat.div_pos ‹den ≤ num› denPos)
    have place : (Int.ofNat (digitCount (num / den)) - 1) =
        ((digitCount (num / den) - 1 : Nat) : ℤ) := by
      have := digitCount_pos (num / den)
      change (digitCount (num / den) : ℤ) - 1 = _
      omega
    rw [place, zpow_natCast, ← cast_tenTo]
    have bound : tenTo (digitCount (num / den) - 1) * den ≤ num :=
      (Nat.mul_le_mul_right den whole).trans (Nat.div_mul_le_self _ _)
    exact_mod_cast bound
  · -- The reciprocal has its leading digit at least at the opposite place.
    have ceiling : den ≤ (den + num - 1) / num * num := by
      have parts := Nat.div_add_mod (den + num - 1) num
      have small := Nat.mod_lt (den + num - 1) numPos
      rw [Nat.mul_comm] at parts
      omega
    have digits := lt_tenTo_digitCount ((den + num - 1) / num - 1)
    generalize digitCount ((den + num - 1) / num - 1) = t at *
    change (10 : ℚ) ^ (-(t : ℤ)) * den ≤ num
    rw [zpow_neg, zpow_natCast, ← cast_tenTo, inv_mul_le_iff₀ (by exact_mod_cast tenTo_pos t)]
    have bound : den ≤ tenTo t * num := ceiling.trans (Nat.mul_le_mul_right num (by omega))
    exact_mod_cast bound

/-! ### The shortest decimal -/

/-- The digits that are tried suffice for a format. -/
def BinaryFormat.HasDigits (f : BinaryFormat) : Prop :=
  2 * twoTo f.fractionBits < tenTo (f.maxDigits - 1)

instance (f : BinaryFormat) : Decidable f.HasDigits :=
  inferInstanceAs (Decidable (2 * twoTo f.fractionBits < tenTo (f.maxDigits - 1)))

/-- The zeros at the end of the digits say by which power of ten a number can be divided. -/
theorem tenTo_trailingZeros_dvd (n : Nat) :
    tenTo ((digitsOf n).reverse.takeWhile (· == '0')).length ∣ n := by
  have split := List.takeWhile_append_dropWhile (p := (· == '0')) (l := (digitsOf n).reverse)
  have zeros : (digitsOf n).reverse.takeWhile (· == '0') =
      List.replicate ((digitsOf n).reverse.takeWhile (· == '0')).length '0' :=
    List.eq_replicate_of_mem fun c member => by simpa using List.mem_takeWhile_imp member
  have digits := congrArg List.reverse split
  rw [List.reverse_append, List.reverse_reverse] at digits
  generalize (digitsOf n).reverse.takeWhile (· == '0') = run at *
  have value := Nat.ofDigitChars_ten_toDigits (n := n)
  rw [show Nat.toDigits 10 n = _ from digits.symm, zeros, List.reverse_replicate,
    Nat.ofDigitChars_append, Nat.ofDigitChars_replicate_zero] at value
  exact ⟨_, value.symm⟩

theorem Scientific.toRat_normalize (d : Scientific) : d.normalize.toRat = d.toRat := by
  unfold Scientific.normalize
  have divides := tenTo_trailingZeros_dvd d.coefficient
  unfold digitsOf at divides
  dsimp only
  generalize ((Nat.toDigits 10 d.coefficient).reverse.takeWhile (· == '0')).length = zeros at *
  split
  · rfl
  · obtain ⟨k, factor⟩ := divides
    have ten : (10 : ℚ) ^ d.exponent * 10 ^ zeros = 10 ^ (d.exponent + (zeros : ℤ)) := by
      rw [zpow_add₀ (by norm_num), zpow_natCast]
    change ((d.coefficient / tenTo zeros : Nat) : ℚ) * 10 ^ (d.exponent + (zeros : ℤ)) = _
    rw [Scientific.toRat, ← ten, factor, Nat.mul_div_cancel_left k (tenTo_pos zeros), Nat.cast_mul,
      cast_tenTo]
    ring

namespace BinaryFormat

variable {f : BinaryFormat} {mantissa shift : Nat}

theorem zpow_interval_unit : (2 : ℚ) ^ (f.interval mantissa shift).unit = f.unitOf shift / 4 := by
  change (2 : ℚ) ^ (f.minExponent + Int.ofNat shift - 2) = _
  rw [zpow_sub₀ two_ne_zero]
  norm_num [unitOf]

/-- A number that is near to a binary number, by a step that is less than the distance to its
neighbours, lies in the interval. -/
theorem contains_of_near (canonical : Canonical f mantissa shift) {place : ℤ} {k : Nat}
    (step : (10 ^ place : ℚ) * (2 * twoTo f.fractionBits) < mantissa * f.unitOf shift)
    (low : (mantissa * f.unitOf shift : ℚ) ≤ k * 10 ^ place + 10 ^ place / 2)
    (high : (k * 10 ^ place : ℚ) ≤ mantissa * f.unitOf shift + 10 ^ place / 2) :
    (f.interval mantissa shift).contains place k = true := by
  have unit := f.unitOf_pos shift
  have fraction : (1 : ℚ) ≤ twoTo f.fractionBits := by exact_mod_cast twoTo_pos f.fractionBits
  have small : (mantissa : ℚ) + 1 ≤ 2 * twoTo f.fractionBits := by exact_mod_cast canonical.small
  have pos : (0 : ℚ) < 10 ^ place := zpow_pos (by norm_num) _
  have narrow : (10 ^ place : ℚ) < f.unitOf shift := by
    by_contra wide
    nlinarith
  refine Interval.contains_of_strict ?_ ?_
  · rw [zpow_interval_unit]
    simp only [interval]
    split
    · rename_i power
      have half : 2 * (10 ^ place : ℚ) < f.unitOf shift := by
        have : (mantissa : ℚ) = twoTo f.fractionBits := by exact_mod_cast power.1
        by_contra wide
        nlinarith
      have four : ((4 * mantissa - 1 : Nat) : ℚ) = 4 * mantissa - 1 := by
        have := canonical.pos
        rw [Nat.cast_sub (by omega)]
        push_cast
        ring
      rw [four]
      linarith
    · have four : ((4 * mantissa - 2 : Nat) : ℚ) = 4 * mantissa - 2 := by
        have := canonical.pos
        rw [Nat.cast_sub (by omega)]
        push_cast
        ring
      rw [four]
      linarith
  · rw [zpow_interval_unit]
    simp only [interval]
    push_cast
    linarith

theorem shortest_holds (enough : f.HasDigits) (canonical : Canonical f mantissa shift) :
    (f.interval mantissa shift).Holds (f.shortest mantissa shift).toRat := by
  have value : ((f.interval mantissa shift).middle * 2 ^ (f.interval mantissa shift).unit : ℚ) =
      mantissa * f.unitOf shift := by
    rw [zpow_interval_unit]
    simp only [interval]
    push_cast
    ring
  have leading := Interval.leadingPlace_le (i := f.interval mantissa shift)
    (Nat.mul_pos (by decide) canonical.pos)
  have count : f.maxDigits = f.maxDigits - 1 + 1 := by
    unfold maxDigits
    omega
  unfold HasDigits at enough
  rw [shortest, Scientific.toRat_normalize, count]
  generalize f.maxDigits - 1 = tries at *
  refine Interval.search_holds (Interval.hit_isSome ?_)
  generalize placed : (f.interval mantissa shift).leadingPlace - (tries : ℤ) = place
  have step : (10 ^ place : ℚ) * (2 * twoTo f.fractionBits) < mantissa * f.unitOf shift := by
    have more : (2 * twoTo f.fractionBits : ℚ) < 10 ^ tries := by
      rw [← cast_tenTo]
      exact_mod_cast enough
    have whole : (10 ^ place : ℚ) * 10 ^ tries = 10 ^ (f.interval mantissa shift).leadingPlace := by
      rw [← zpow_natCast, ← zpow_add₀ (by norm_num), ← placed, sub_add_cancel]
    calc (10 ^ place : ℚ) * (2 * twoTo f.fractionBits)
        < 10 ^ place * 10 ^ tries := mul_lt_mul_of_pos_left more (zpow_pos (by norm_num) _)
      _ ≤ mantissa * f.unitOf shift := by rw [whole, ← value]; exact leading
  obtain ⟨lower, upper⟩ := (f.interval mantissa shift).below_spec place
  rw [value] at lower upper
  rw [Nat.cast_succ] at upper
  -- The nearer of the two points is at most half a step away.
  rcases le_total (mantissa * f.unitOf shift : ℚ)
      ((f.interval mantissa shift).below place * 10 ^ place + 10 ^ place / 2)
    with nearBelow | nearAbove
  · have pos : (0 : ℚ) < 10 ^ place := zpow_pos (by norm_num) _
    exact .inl (contains_of_near canonical step nearBelow (by linarith))
  · refine .inr (contains_of_near canonical step ?_ ?_)
    · rw [Nat.cast_succ]
      have pos : (0 : ℚ) < 10 ^ place := zpow_pos (by norm_num) _
      linarith
    · rw [Nat.cast_succ]
      linarith

end BinaryFormat

end JvmPatch.Decimal
