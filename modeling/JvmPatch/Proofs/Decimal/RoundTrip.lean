import JvmPatch.Proofs.Decimal.Shortest

/-! The text of a finite binary number is read as that number. The text need not be read as the
decimal that it was written for, but as one with the same value. -/

set_option autoImplicit false

namespace JvmPatch.Decimal

/-! ### Reading decimals -/

theorem splitDigits_append {digits : List Char} (rest : List Char)
    (all : ∀ c ∈ digits, c.isDigit = true) (stop : ∀ c ∈ rest.head?, c.isDigit = false) :
    splitDigits (digits ++ rest) = (digits, rest) := by
  have inside : ∀ c ∈ digits, (digit? c).isSome = true := fun c member => by
    rw [digit?_isSome_iff, all c member]
  have after : rest.takeWhile (fun c => (digit? c).isSome) = [] ∧
      rest.dropWhile (fun c => (digit? c).isSome) = rest := by
    cases rest with
    | nil => exact ⟨rfl, rfl⟩
    | cons c s =>
      have no : ¬(digit? c).isSome = true := by rw [digit?_isSome_iff, stop c rfl]; decide
      exact ⟨List.takeWhile_cons_of_neg no, List.dropWhile_cons_of_neg no⟩
  rw [splitDigits, List.span_eq_takeWhile_dropWhile, List.takeWhile_append_of_pos inside,
    List.dropWhile_append_of_pos inside, after.1, after.2, List.append_nil]

theorem splitDigits_all {digits : List Char} (all : ∀ c ∈ digits, c.isDigit = true) :
    splitDigits digits = (digits, []) := by
  have split := splitDigits_append [] all (fun _ head => by cases head)
  rwa [List.append_nil] at split

theorem readExponent?_toString (n : Int) : readExponent? ('e' :: (toString n).toList) = some n := by
  rw [toList_toString_int]
  have digits := splitDigits_all fun c member => isDigit_of_mem_digitsOf (n := n.natAbs) member
  have notEmpty : (digitsOf n.natAbs).isEmpty = false :=
    List.isEmpty_eq_false_iff.2 (digitsOf_ne_nil _)
  split
  · have read : readExponent? ('e' :: '-' :: digitsOf n.natAbs) = some (-(n.natAbs : ℤ)) := by
      simp [readExponent?, digits, notEmpty, digitsValue_digitsOf]
    rw [read]
    congr
    omega
  · obtain ⟨c, s, split, -, notPlus, notMinus⟩ := head_digitsOf n.natAbs
    have value := digitsValue_digitsOf n.natAbs
    rw [split] at digits value ⊢
    have read : readExponent? ('e' :: c :: s) = some (n.natAbs : ℤ) := by
      simp [readExponent?, notPlus, notMinus, digits, value]
    rw [read]
    congr
    omega

/-- Digits with a point are read as a number with as many places as there are digits after it. -/
theorem readScientific?_point (whole fraction rest : List Char) {e : ℤ} (notEmpty : whole ≠ [])
    (isWhole : ∀ c ∈ whole, c.isDigit = true) (isFraction : ∀ c ∈ fraction, c.isDigit = true)
    (stop : ∀ c ∈ rest.head?, c.isDigit = false) (exponent : readExponent? rest = some e) :
    readScientific? (whole ++ '.' :: (fraction ++ rest)) =
      some ⟨digitsValue (whole ++ fraction), e - fraction.length⟩ := by
  have first := splitDigits_append ('.' :: (fraction ++ rest)) isWhole (by simp [Char.isDigit])
  have second := splitDigits_append rest isFraction stop
  simp [readScientific?, first, second, exponent, notEmpty]

/-- Digits without a point. -/
theorem readScientific?_whole {whole s : List Char} {c : Char} {e : ℤ} (notEmpty : whole ≠ [])
    (isWhole : ∀ c ∈ whole, c.isDigit = true) (stop : c.isDigit = false) (noPoint : c ≠ '.')
    (exponent : readExponent? (c :: s) = some e) :
    readScientific? (whole ++ c :: s) = some ⟨digitsValue whole, e⟩ := by
  have first := splitDigits_append (c :: s) isWhole (by simp [stop])
  simp [readScientific?, first, exponent, notEmpty, noPoint]

theorem isDigit_of_mem_replicate {n : Nat} {c : Char} (member : c ∈ List.replicate n '0') :
    c.isDigit = true := by
  rw [(List.mem_replicate.1 member).2]
  decide

theorem digitsValue_zeros_append (k n : Nat) :
    digitsValue (List.replicate k '0' ++ digitsOf n) = n := by
  have all : ∀ c ∈ List.replicate k '0' ++ digitsOf n, c.isDigit = true := fun c member =>
    (List.mem_append.1 member).elim isDigit_of_mem_replicate isDigit_of_mem_digitsOf
  rw [digitsValue_eq all, Nat.ofDigitChars_append, Nat.ofDigitChars_replicate_zero, Nat.mul_zero,
    Nat.ofDigitChars_ten_toDigits]

theorem digitsValue_append_zeros (k n : Nat) :
    digitsValue (digitsOf n ++ List.replicate k '0') = n * tenTo k := by
  have all : ∀ c ∈ digitsOf n ++ List.replicate k '0', c.isDigit = true := fun c member =>
    (List.mem_append.1 member).elim isDigit_of_mem_digitsOf isDigit_of_mem_replicate
  rw [digitsValue_eq all, Nat.ofDigitChars_append, Nat.ofDigitChars_replicate_zero,
    Nat.ofDigitChars_ten_toDigits, Nat.mul_comm, tenTo, Nat.pow_eq]

namespace Scientific

/-- A text is read as a decimal of the same value. -/
def IsRead (d : Scientific) (s : List Char) : Prop :=
  ∃ read, readScientific? s = some read ∧ read.toRat = d.toRat

variable {d : Scientific}

/-- Digits with a point, possibly with more zeros at the end. -/
theorem isRead_point (whole fraction : List Char) (zeros : Nat) (notEmpty : whole ≠ [])
    (isWhole : ∀ c ∈ whole, c.isDigit = true) (isFraction : ∀ c ∈ fraction, c.isDigit = true)
    (value : digitsValue (whole ++ fraction) = d.coefficient * tenTo zeros)
    (places : d.exponent = zeros - fraction.length) : d.IsRead (whole ++ '.' :: fraction) := by
  have read := readScientific?_point whole fraction [] notEmpty isWhole isFraction (by simp) rfl
  rw [List.append_nil] at read
  refine ⟨_, read, ?_⟩
  have ten : (10 : ℚ) ^ d.exponent = 10 ^ zeros * 10 ^ (0 - (fraction.length : ℤ)) := by
    rw [← zpow_natCast, ← zpow_add₀ (by norm_num), places]
    congr 1
    omega
  rw [toRat, toRat, value, ten, Nat.cast_mul, cast_tenTo, mul_assoc]

theorem isRead_positional (d : Scientific) : d.IsRead d.positional.toList := by
  have all : ∀ c ∈ Nat.toDigits 10 d.coefficient, c.isDigit = true :=
    fun _ => isDigit_of_mem_digitsOf
  have length : 0 < (Nat.toDigits 10 d.coefficient).length := digitCount_pos _
  unfold positional
  simp only [Int.ofNat_eq_natCast]
  split
  · rename_i small
    simp only [String.toList_append, String.toList_ofList]
    refine isRead_point ['0'] (List.replicate _ '0' ++ Nat.toDigits 10 d.coefficient) 0
      (by simp) (by simp [Char.isDigit])
      (fun c member => (List.mem_append.1 member).elim isDigit_of_mem_replicate (all c)) ?_ ?_
    · exact (digitsValue_zeros_append (_ + 1) _).trans (Nat.mul_one _).symm
    · rw [List.length_append, List.length_replicate]
      omega
  split
  · rename_i positive fractional
    simp only [String.toList_append, String.toList_ofList, List.append_assoc]
    refine isRead_point _ ((Nat.toDigits 10 d.coefficient).drop _) 0 ?_
      (fun c member => all c (List.mem_of_mem_take member))
      (fun c member => all c (List.mem_of_mem_drop member)) ?_ ?_
    · rw [ne_eq, ← List.length_eq_zero_iff, List.length_take]
      omega
    · rw [List.take_append_drop]
      exact (digitsValue_digitsOf _).trans (Nat.mul_one _).symm
    · rw [List.length_drop]
      omega
  · simp only [String.toList_append, String.toList_ofList]
    refine isRead_point _ ['0'] (d.exponent.toNat + 1) (by simp)
      (fun c member => (List.mem_append.1 member).elim (all c) isDigit_of_mem_replicate)
      (by simp [Char.isDigit]) ?_ ?_
    · rw [List.append_assoc, ← List.replicate_one, List.replicate_append_replicate]
      exact digitsValue_append_zeros _ _
    · rw [List.length_singleton]
      omega

theorem isRead_exponential (d : Scientific) : d.IsRead d.exponential.toList := by
  have all : ∀ c ∈ digitsOf d.coefficient, c.isDigit = true := fun _ => isDigit_of_mem_digitsOf
  have length : 0 < (digitsOf d.coefficient).length := digitCount_pos _
  have value := digitsValue_digitsOf d.coefficient
  have exponent := readExponent?_toString ((digitsOf d.coefficient).length + d.exponent - 1)
  unfold exponential
  unfold digitsOf at *
  generalize Nat.toDigits 10 d.coefficient = digits at *
  cases digits with
  | nil => cases length
  | cons c fraction =>
    cases fraction with
    | nil =>
      have read := readScientific?_whole (List.cons_ne_nil c []) all (by decide)
        (by decide) exponent
      rw [value] at read
      have place : ([c].length : ℤ) + d.exponent - 1 = d.exponent := by simp
      exact ⟨⟨d.coefficient, [c].length + d.exponent - 1⟩, by simpa using read, by rw [place]⟩
    | cons f fraction =>
      have read := readScientific?_point [c] (f :: fraction) _ (by simp)
        (fun d member => all d (by simp_all)) (fun d member => all d (.tail _ member))
        (by simp [Char.isDigit]) exponent
      rw [List.singleton_append, List.singleton_append, value] at read
      have place : ((c :: f :: fraction).length : ℤ) + d.exponent - 1 - (f :: fraction).length =
          d.exponent := by
        simp only [List.length_cons]
        omega
      exact ⟨⟨d.coefficient, (c :: f :: fraction).length + d.exponent - 1 - (f :: fraction).length⟩,
        by simpa using read, by rw [place]⟩

end Scientific

theorem Layout.isRead_magnitude (l : Layout) (d : Scientific) :
    d.IsRead (l.magnitude d).toList := by
  unfold magnitude
  dsimp only
  split
  · exact d.isRead_positional
  · exact d.isRead_exponential

/-! ### Reading binary numbers -/

namespace BinaryFormat

variable {f : BinaryFormat}

/-- What is used of a format: the digits that are tried suffice, and the exponents reach as far down
as the fraction is long. -/
structure Regular (f : BinaryFormat) : Prop where
  digits : f.HasDigits
  exponent : 1 < f.exponentBits
  fraction : f.fractionBits ≤ twoTo (f.exponentBits - 1)

theorem single_regular : Regular single := ⟨by decide, by decide, by decide⟩

theorem double_regular : Regular double := ⟨by decide, by decide, by decide⟩

theorem two_pow_le_ten_pow (n : Nat) : (2 : ℚ) ^ n ≤ 10 ^ n :=
  pow_le_pow_left₀ (by norm_num) (by norm_num) n

/-- The leading digit of a decimal says between which powers of ten it lies. -/
theorem toRat_bounds {d : Scientific} (pos : 0 < d.coefficient) :
    (10 : ℚ) ^ (digitCount d.coefficient + d.exponent - 1) ≤ d.toRat ∧
      d.toRat < 10 ^ (digitCount d.coefficient + d.exponent) := by
  have count := digitCount_pos d.coefficient
  have low := tenTo_digitCount_le pos
  have high := lt_tenTo_digitCount d.coefficient
  have unit : (0 : ℚ) < 10 ^ d.exponent := zpow_pos (by norm_num) _
  constructor
  · have place : (digitCount d.coefficient + d.exponent - 1 : ℤ) =
        (digitCount d.coefficient - 1 : Nat) + d.exponent := by omega
    rw [place, zpow_add₀ (by norm_num), zpow_natCast, ← cast_tenTo]
    exact mul_le_mul_of_nonneg_right (by exact_mod_cast low) unit.le
  · rw [zpow_add₀ (by norm_num), zpow_natCast, ← cast_tenTo]
    exact mul_lt_mul_of_pos_right (by exact_mod_cast high) unit

/-- Numbers of the format lie within the powers of two that its exponents allow. -/
theorem unit_bounds (regular : f.Regular) {shift : Nat} (small : shift + 2 < twoTo f.exponentBits) :
    (2 : ℚ) * (2 ^ twoTo f.exponentBits)⁻¹ ≤ f.unitOf shift / 2 ∧
      2 * twoTo f.fractionBits * f.unitOf shift ≤ 2 ^ twoTo f.exponentBits := by
  have half : twoTo f.exponentBits = 2 * twoTo (f.exponentBits - 1) := by
    rw [← twoTo_succ, Nat.sub_add_cancel regular.exponent.le]
  have long := regular.fraction
  have least : f.minExponent = 2 - (twoTo (f.exponentBits - 1) : ℤ) - f.fractionBits := rfl
  have more {a b : ℤ} : a ≤ b → (2 : ℚ) ^ a ≤ 2 ^ b := zpow_le_zpow_right₀ one_le_two
  constructor
  · calc (2 : ℚ) * (2 ^ twoTo f.exponentBits)⁻¹
        = 2 ^ (-(twoTo f.exponentBits : ℤ) + 1) := by
          rw [zpow_add_one₀ two_ne_zero, zpow_neg, zpow_natCast, mul_comm]
      _ ≤ 2 ^ (f.minExponent + shift - 1) := more (by omega)
      _ = f.unitOf shift / 2 := by rw [zpow_sub_one₀ two_ne_zero, unitOf, div_eq_mul_inv]
  · calc (2 : ℚ) * twoTo f.fractionBits * f.unitOf shift
        = 2 ^ ((f.fractionBits : ℤ) + 1 + (f.minExponent + shift)) := by
          rw [zpow_add₀ two_ne_zero, zpow_add_one₀ two_ne_zero, cast_twoTo, zpow_natCast, unitOf,
            mul_comm (2 : ℚ)]
      _ ≤ 2 ^ (twoTo f.exponentBits : ℤ) := more (by omega)
      _ = 2 ^ twoTo f.exponentBits := zpow_natCast _ _

/-- A decimal between neighbours of a number is read as the number. -/
theorem ofScientific_of_holds (regular : f.Regular) {mantissa shift : Nat}
    (canonical : Canonical f mantissa shift) (small : shift + 2 < twoTo f.exponentBits)
    {d : Scientific} (holds : (f.interval mantissa shift).Holds d.toRat) :
    f.ofScientific d = f.pack mantissa shift := by
  obtain ⟨low, high, -, -⟩ := near_of_holds holds
  obtain ⟨least, most⟩ := unit_bounds regular small
  have unit := f.unitOf_pos shift
  have one : (1 : ℚ) ≤ mantissa := by exact_mod_cast canonical.pos
  have bound : (mantissa : ℚ) + 1 ≤ 2 * twoTo f.fractionBits := by exact_mod_cast canonical.small
  have above : f.unitOf shift / 2 ≤ d.toRat := by nlinarith
  have below : d.toRat < 2 ^ twoTo f.exponentBits := by nlinarith
  have pos : 0 < d.coefficient := by
    rw [Nat.pos_iff_ne_zero]
    intro zero
    rw [Scientific.toRat, zero, Nat.cast_zero, zero_mul] at above
    linarith
  obtain ⟨digitsLow, digitsHigh⟩ := toRat_bounds pos
  have tens := two_pow_le_ten_pow (twoTo f.exponentBits)
  have two : (0 : ℚ) < 2 ^ twoTo f.exponentBits := by positivity
  unfold ofScientific
  simp only [Int.ofNat_eq_natCast]
  rw [if_neg pos.ne', if_neg ?large, if_neg ?tiny]
  case large =>
    intro large
    have power : (10 : ℚ) ^ twoTo f.exponentBits ≤
        10 ^ (digitCount d.coefficient + d.exponent - 1) := by
      rw [← zpow_natCast]
      exact zpow_le_zpow_right₀ (by norm_num) (by omega)
    linarith
  case tiny =>
    intro tiny
    have power : (10 : ℚ) ^ (digitCount d.coefficient + d.exponent) ≤
        (10 ^ twoTo f.exponentBits)⁻¹ := by
      rw [← zpow_natCast, ← zpow_neg]
      exact zpow_le_zpow_right₀ (by norm_num) (by omega)
    have inverse : ((10 : ℚ) ^ twoTo f.exponentBits)⁻¹ ≤ (2 ^ twoTo f.exponentBits)⁻¹ :=
      inv_anti₀ two tens
    have positive : (0 : ℚ) < (2 ^ twoTo f.exponentBits)⁻¹ := inv_pos.2 two
    linarith
  refine nearest_of_holds canonical (Nat.mul_pos pos (tenTo_pos _)) (tenTo_pos _) ?_
  have quotient : ((d.coefficient * tenTo d.exponent.toNat : Nat) : ℚ) / tenTo (-d.exponent).toNat =
      d.toRat := by
    rw [Scientific.toRat, zpow_eq_div, Nat.cast_mul, cast_tenTo, cast_tenTo, mul_div_assoc]
  rwa [quotient]

/-- The fields of a bit pattern. -/
theorem fields_of_bits {bits : Nat} (fits : bits < 2 * f.signBit) :
    bits = (if bits / f.signBit % 2 == 1 then f.signBit else 0) +
      (bits / twoTo f.fractionBits % twoTo f.exponentBits * twoTo f.fractionBits +
        bits % twoTo f.fractionBits) := by
  have sign : f.signBit = twoTo f.fractionBits * twoTo f.exponentBits := by
    rw [signBit, twoTo, twoTo, twoTo, Nat.pow_eq, Nat.pow_eq, Nat.pow_eq,
      ← Nat.pow_add, Nat.add_comm]
  have top : bits / f.signBit = bits / twoTo f.fractionBits / twoTo f.exponentBits := by
    rw [sign, Nat.div_div_eq_div_mul]
  have low := Nat.div_add_mod bits (twoTo f.fractionBits)
  have high := Nat.div_add_mod (bits / twoTo f.fractionBits) (twoTo f.exponentBits)
  have two : bits / f.signBit < 2 := Nat.div_lt_of_lt_mul (by rwa [Nat.mul_comm])
  rw [← top] at high
  generalize bits / f.signBit = t at *
  generalize bits / twoTo f.fractionBits % twoTo f.exponentBits = field at *
  rw [← high] at low
  rw [sign]
  have cases : t = 0 ∨ t = 1 := by omega
  rcases cases with rfl | rfl
  · rw [if_neg (by decide)]
    linarith
  · rw [if_pos (by decide)]
    linarith

/-- Infinities differ in their signs only. -/
theorem bits_of_infinite {bits : Nat} (fits : bits < 2 * f.signBit) {negative : Bool}
    (infinite : f.value bits = .infinite negative) :
    bits = (if negative then f.signBit else 0) + f.infinityBits := by
  have fields := fields_of_bits fits
  unfold value at infinite
  dsimp only at infinite
  split at infinite
  · rename_i special
    split at infinite
    · rename_i noFraction
      cases infinite
      rwa [special, noFraction, Nat.add_zero] at fields
    · cases infinite
  · split at infinite <;> cases infinite

/-- The parts of a bit pattern that stands for a finite number. -/
theorem parts_of_finite (regular : f.Regular) {bits : Nat} (fits : bits < 2 * f.signBit)
    {negative : Bool} {mantissa shift : Nat}
    (finite : f.value bits = .finite negative mantissa shift) :
    bits = (if negative then f.signBit else 0) + (shift * twoTo f.fractionBits + mantissa) ∧
      shift + 2 < twoTo f.exponentBits ∧
        (mantissa = 0 ∧ shift = 0 ∨ Canonical f mantissa shift) := by
  have fields := fields_of_bits fits
  have fraction := Nat.mod_lt bits (twoTo_pos f.fractionBits)
  have exponent := Nat.mod_lt (bits / twoTo f.fractionBits) (twoTo_pos f.exponentBits)
  have four : 4 ≤ twoTo f.exponentBits := by
    have : twoTo 2 ≤ twoTo f.exponentBits := Nat.pow_le_pow_right (by decide) regular.exponent
    exact this
  unfold value at finite
  dsimp only at finite
  generalize bits / twoTo f.fractionBits % twoTo f.exponentBits = field at *
  generalize bits % twoTo f.fractionBits = low at *
  split at finite
  · split at finite <;> cases finite
  rename_i notSpecial
  have notSpecial : field ≠ twoTo f.exponentBits - 1 := notSpecial
  split at finite
  · subst field
    cases finite
    refine ⟨by simpa using fields, by omega, ?_⟩
    rcases Nat.eq_zero_or_pos mantissa with zero | pos
    · exact .inl ⟨zero, rfl⟩
    · exact .inr ⟨pos, by omega, fun above => absurd above (lt_irrefl 0)⟩
  · rename_i normal
    cases finite
    obtain ⟨shift, rfl⟩ := Nat.exists_eq_succ_of_ne_zero normal
    refine ⟨?_, by omega, .inr ⟨?_, ?_, ?_⟩⟩
    · refine fields.trans (congrArg _ ?_)
      simp only [Nat.succ_eq_add_one, Nat.add_sub_cancel]
      ring
    · have := twoTo_pos f.fractionBits
      omega
    · omega
    · omega

theorem pack_eq {mantissa shift : Nat} (canonical : Canonical f mantissa shift)
    (small : shift + 2 < twoTo f.exponentBits) :
    f.pack mantissa shift = shift * twoTo f.fractionBits + mantissa := by
  have below : shift * twoTo f.fractionBits + mantissa < f.infinityBits := by
    have bound : (shift + 2) * twoTo f.fractionBits ≤ f.infinityBits :=
      Nat.mul_le_mul_right _ (by unfold specialField; omega)
    have carry : (shift + 2) * twoTo f.fractionBits =
        shift * twoTo f.fractionBits + 2 * twoTo f.fractionBits := Nat.add_mul _ _ _
    have fits := canonical.small
    omega
  rw [pack]
  exact if_neg (Nat.not_le.2 below)

end BinaryFormat

/-! ### Numerals -/

/-- What the texts of numbers have in common: they are words without capital letters that end in a
digit. -/
structure IsNumeral (s : List Char) : Prop where
  chars : ∀ c ∈ s, c.isDigit = true ∨ c = '-' ∨ c = '.' ∨ c = 'e'
  last : ∃ c ∈ s.getLast?, c.isDigit = true

namespace IsNumeral

variable {s : List Char}

theorem append {r : List Char} (front : ∀ c ∈ r, c.isDigit = true ∨ c = '-' ∨ c = '.' ∨ c = 'e')
    (numeral : IsNumeral s) : IsNumeral (r ++ s) where
  chars c member := (List.mem_append.1 member).elim (front c) (numeral.chars c)
  last := by
    obtain ⟨c, last, digit⟩ := numeral.last
    refine ⟨c, ?_, digit⟩
    rw [List.getLast?_append, Option.mem_def.1 last]
    rfl

theorem ofDigits (notEmpty : s ≠ []) (digits : ∀ c ∈ s, c.isDigit = true) : IsNumeral s where
  chars c member := .inl (digits c member)
  last := ⟨s.getLast notEmpty, List.getLast?_eq_some_getLast notEmpty,
    digits _ (List.getLast_mem notEmpty)⟩

theorem digitsOf (n : Nat) : IsNumeral (digitsOf n) :=
  ofDigits (digitsOf_ne_nil n) fun _ => isDigit_of_mem_digitsOf

theorem toString_int (n : Int) : IsNumeral (toString n).toList := by
  rw [toList_toString_int]
  split
  · exact append (r := ['-']) (by simp) (digitsOf _)
  · exact digitsOf _

theorem positional (d : Scientific) : IsNumeral d.positional.toList := by
  have all : ∀ c ∈ Nat.toDigits 10 d.coefficient, c.isDigit = true :=
    fun _ => isDigit_of_mem_digitsOf
  have length : 0 < (Nat.toDigits 10 d.coefficient).length := digitCount_pos _
  unfold Scientific.positional
  simp only [Int.ofNat_eq_natCast]
  split
  · simp only [String.toList_append, String.toList_ofList]
    refine append (by simp [Char.isDigit]) (append (fun c member => .inl ?_) (digitsOf _))
    exact isDigit_of_mem_replicate member
  split
  · simp only [String.toList_append, String.toList_ofList]
    refine append (fun c member => ?_) (ofDigits ?_
      fun c member => all c (List.mem_of_mem_drop member))
    · rcases List.mem_append.1 member with inside | inside
      · exact .inl (all c (List.mem_of_mem_take inside))
      · exact .inr (.inr (.inl (by simpa using inside)))
    · rw [ne_eq, List.drop_eq_nil_iff]
      omega
  · simp only [String.toList_append, String.toList_ofList]
    refine append (fun c member => .inl ?_) (append (r := ['.']) (by simp)
      (ofDigits (s := ['0']) (by simp) (by simp [Char.isDigit])))
    exact (List.mem_append.1 member).elim (all c) isDigit_of_mem_replicate

theorem exponential (d : Scientific) : IsNumeral d.exponential.toList := by
  have all : ∀ c ∈ Nat.toDigits 10 d.coefficient, c.isDigit = true :=
    fun _ => isDigit_of_mem_digitsOf
  unfold Scientific.exponential
  simp only [String.toList_append, String.toList_ofList]
  refine append (fun c member => ?_) (toString_int _)
  rcases List.mem_append.1 member with inside | inside
  · rcases List.mem_append.1 inside with inside | inside
    · exact .inl (all c (List.mem_of_mem_take inside))
    · split at inside
      · simp at inside
      · simp only [String.toList_append, String.toList_ofList] at inside
        rcases List.mem_append.1 inside with inside | inside
        · exact .inr (.inr (.inl (by simpa using inside)))
        · exact .inl (all c (List.mem_of_mem_drop inside))
  · exact .inr (.inr (.inr (by simpa using inside)))

theorem magnitude (l : Layout) (d : Scientific) : IsNumeral (l.magnitude d).toList := by
  unfold Layout.magnitude
  dsimp only
  split
  · exact positional d
  · exact exponential d

theorem toLower_of_isDigit {c : Char} (digit : c.isDigit = true) : c.toLower = c := by
  unfold Char.toLower
  rw [dif_neg]
  rintro ⟨isLetter, -⟩
  have low : 65 ≤ c.toNat := UInt32.le_iff_toNat_le.1 isLetter
  have high : c.toNat ≤ 57 := (Char.isDigit_iff_toNat.1 digit).2
  omega

/-- A numeral is not the name of a special value. -/
theorem readMagnitude? (numeral : IsNumeral s) (f : BinaryFormat) :
    f.readMagnitude? s = (readScientific? s).map f.ofScientific := by
  have noN : 'n' ∉ s.map Char.toLower := by
    intro member
    obtain ⟨c, inside, isN⟩ := List.mem_map.1 member
    rcases numeral.chars c inside with digit | rfl | rfl | rfl
    · rw [toLower_of_isDigit digit] at isN
      rw [isN] at digit
      exact absurd digit (by decide)
    all_goals exact absurd isN (by decide)
  have other : ∀ name : String, 'n' ∈ name.toList → String.ofList (s.map Char.toLower) ≠ name := by
    rintro name hasN rfl
    rw [String.toList_ofList] at hasN
    exact noN hasN
  unfold BinaryFormat.readMagnitude?
  dsimp only
  rw [if_neg (not_or.2 ⟨other "inf" (by decide), other "infinity" (by decide)⟩),
    if_neg (other "nan" (by decide))]

end IsNumeral

/-! ### The text of a binary number -/

namespace BinaryFormat

variable {f : BinaryFormat}

theorem read_unsigned {s : List Char} {d : Scientific} (numeral : IsNumeral s)
    (read : readScientific? s = some d) : f.read s = .ok (f.ofScientific d) := by
  have magnitude := numeral.readMagnitude? f
  rw [read] at magnitude
  cases s with
  | nil => cases numeral.last with | intro c found => cases found.1
  | cons c s =>
    have notPlus : c ≠ '+' := by
      rintro rfl
      exact absurd (numeral.chars '+' (.head _)) (by decide)
    have notMinus : c ≠ '-' := by
      rintro rfl
      cases read
    simp [BinaryFormat.read, notMinus, notPlus, magnitude]

theorem read_negative {s : List Char} {d : Scientific} (numeral : IsNumeral s)
    (read : readScientific? s = some d) :
    f.read ('-' :: s) = .ok (f.signBit + f.ofScientific d) := by
  have magnitude := numeral.readMagnitude? f
  rw [read] at magnitude
  simp [BinaryFormat.read, magnitude]

theorem numeral_zero : IsNumeral "0.0".toList :=
  .append (r := ['0', '.']) (by simp [Char.isDigit])
    (.ofDigits (s := ['0']) (by simp) (by simp [Char.isDigit]))

/-- The text of a finite number is read as the number. -/
theorem read_text (regular : f.Regular) (l : Layout) {bits : Nat} (fits : bits < 2 * f.signBit)
    {negative : Bool} {mantissa shift : Nat}
    (finite : f.value bits = .finite negative mantissa shift) :
    f.read (l.text f bits).toList = .ok bits := by
  obtain ⟨parts, small, zeroOrCanonical⟩ := parts_of_finite regular fits finite
  have magnitude : ∃ d, IsNumeral (if mantissa = 0 then "0.0" else
        l.magnitude (f.shortest mantissa shift)).toList ∧
      readScientific? (if mantissa = 0 then "0.0" else
        l.magnitude (f.shortest mantissa shift)).toList = some d ∧
      f.ofScientific d = shift * twoTo f.fractionBits + mantissa := by
    rcases zeroOrCanonical with ⟨rfl, rfl⟩ | canonical
    · refine ⟨⟨0, -1⟩, ?_⟩
      rw [if_pos rfl]
      exact ⟨numeral_zero, rfl, by simp [ofScientific]⟩
    · rw [if_neg canonical.pos.ne']
      obtain ⟨d, read, same⟩ := l.isRead_magnitude (f.shortest mantissa shift)
      refine ⟨d, .magnitude l _, read, ?_⟩
      have holds := shortest_holds regular.digits canonical
      rw [← same] at holds
      rw [ofScientific_of_holds regular canonical small holds, pack_eq canonical small]
  obtain ⟨d, numeral, read, value⟩ := magnitude
  unfold Layout.text
  rw [finite]
  simp only [String.toList_append]
  cases negative with
  | false =>
    refine (read_unsigned numeral read).trans ?_
    rw [value, parts]
    simp
  | true =>
    refine (read_negative numeral read).trans ?_
    rw [value, parts]
    simp

theorem text_of_infinite {bits : Nat} {negative : Bool}
    (infinite : f.value bits = .infinite negative) :
    (Layout.plain.text f bits).toList = if negative then "-inf".toList else "inf".toList := by
  rw [Layout.text, infinite]
  cases negative <;> rfl

/-- The text of an infinity is read as the infinity. -/
theorem read_text_of_infinite {bits : Nat} (fits : bits < 2 * f.signBit) {negative : Bool}
    (infinite : f.value bits = .infinite negative) :
    f.read (Layout.plain.text f bits).toList = .ok bits := by
  have magnitude : f.readMagnitude? ['i', 'n', 'f'] = some f.infinityBits := by
    rw [readMagnitude?]
    exact if_pos (.inl (by decide))
  rw [text_of_infinite infinite]
  conv_rhs => rw [bits_of_infinite fits infinite]
  cases negative <;> simp [BinaryFormat.read, magnitude]

/-- The text of a finite number is a numeral. -/
theorem numeral_text (l : Layout) {bits : Nat} {negative : Bool} {mantissa shift : Nat}
    (finite : f.value bits = .finite negative mantissa shift) :
    IsNumeral (l.text f bits).toList := by
  unfold Layout.text
  rw [finite]
  simp only [String.toList_append]
  refine .append (fun c member => ?_) ?_
  · cases negative with
    | false => simp at member
    | true => exact .inr (.inl (by simpa using member))
  · split
    · exact numeral_zero
    · exact .magnitude l _

end BinaryFormat

end JvmPatch.Decimal
