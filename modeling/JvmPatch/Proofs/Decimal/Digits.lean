import JvmPatch.Decimal.Reading
import JvmPatch.Constant

/-! Decimal digits are read back as they are written, and so are integers that fit their range. -/

set_option autoImplicit false

namespace JvmPatch.Decimal

theorem digit?_of_isDigit {c : Char} (h : c.isDigit = true) :
    digit? c = some (c.toNat - '0'.toNat) := by
  have bounds : '0' ≤ c ∧ c ≤ '9' := by
    simpa [Char.isDigit, Char.le_def, UInt32.le_iff_toNat_le] using h
  simp [digit?, bounds]

theorem digit?_isSome_iff (c : Char) : (digit? c).isSome = c.isDigit := by
  simp only [digit?, Char.isDigit, Char.le_def]
  split
  · simp_all
  · simp_all

abbrev digitsOf (n : Nat) : List Char := Nat.toDigits 10 n

theorem isDigit_of_mem_digitsOf {n : Nat} {c : Char} (h : c ∈ digitsOf n) : c.isDigit = true :=
  Nat.isDigit_of_mem_toDigits (by decide) (by decide) h

theorem digitsOf_ne_nil (n : Nat) : digitsOf n ≠ [] := Nat.toDigits_ne_nil

theorem digitsValue_eq {s : List Char} (digits : ∀ c ∈ s, c.isDigit = true) :
    digitsValue s = Nat.ofDigitChars 10 s 0 := by
  suffices both : ∀ n,
    s.foldl (fun n c => n * 10 + (digit? c).getD 0) n = Nat.ofDigitChars 10 s n from
    both 0
  induction s with
  | nil => exact fun _ => rfl
  | cons c s ih =>
    intro n
    rw [List.foldl_cons, ih fun d h => digits d (.tail _ h), digit?_of_isDigit (digits c (.head _)),
      Nat.ofDigitChars_cons, Option.getD_some, Nat.mul_comm n 10]

theorem digitsValue_digitsOf (n : Nat) : digitsValue (digitsOf n) = n := by
  rw [digitsValue_eq fun c h => isDigit_of_mem_digitsOf h, Nat.ofDigitChars_ten_toDigits]

/-- Digits that stay within the limit are read to the end. -/
theorem readDigits_eq_ok {limit m : Nat} {overflow : IntegerError} {s : List Char}
    (digits : ∀ c ∈ s, c.isDigit = true) (fits : Nat.ofDigitChars 10 s m ≤ limit) :
    readDigits limit overflow m s = .ok (Nat.ofDigitChars 10 s m) := by
  induction s generalizing m with
  | nil => rfl
  | cons c s ih =>
    have rest : ∀ d ∈ s, d.isDigit = true := fun d h => digits d (.tail _ h)
    rw [Nat.ofDigitChars_cons] at fits ⊢
    -- What has been read so far is at most the whole number.
    have below : 10 * m + (c.toNat - '0'.toNat) ≤ limit := by
      have whole := @Nat.ofDigitChars_eq_ofDigitChars_zero s (10 * m + (c.toNat - '0'.toNat))
      have one := Nat.le_mul_of_pos_left (10 * m + (c.toNat - '0'.toNat))
        (Nat.pow_pos (n := s.length) (show 0 < 10 by decide))
      omega
    simp only [readDigits, digit?_of_isDigit (digits c (.head _)), Nat.mul_comm m 10, if_pos below]
    exact ih rest fits

theorem readMagnitude_digitsOf {limit n : Nat} (overflow : IntegerError) (fits : n ≤ limit) :
    readMagnitude limit overflow (digitsOf n) = .ok n := by
  have notEmpty : (digitsOf n).isEmpty = false := by
    rw [List.isEmpty_eq_false_iff]
    exact digitsOf_ne_nil n
  rw [readMagnitude, notEmpty, if_neg Bool.false_ne_true,
    readDigits_eq_ok (fun c h => isDigit_of_mem_digitsOf h)
      (by rwa [Nat.ofDigitChars_ten_toDigits]), Nat.ofDigitChars_ten_toDigits]

theorem toList_toString_nat (n : Nat) : (toString n).toList = digitsOf n := by
  rw [Nat.toString_eq_ofList_toDigits, String.toList_ofList]

theorem toList_toString_int (n : Int) :
    (toString n).toList = if n < 0 then '-' :: digitsOf n.natAbs else digitsOf n.natAbs := by
  rw [Int.toString_eq_repr]
  cases n with
  | ofNat n =>
    rw [if_neg (by exact Int.not_lt.2 (Int.natCast_nonneg n))]
    exact toList_toString_nat n
  | negSucc n =>
    rw [if_pos (Int.negSucc_lt_zero n)]
    change ("-" ++ toString (n + 1)).toList = _
    rw [String.toList_append, toList_toString_nat]
    rfl

/-- A sign is no digit, so the first character of a number tells how it is read. -/
theorem head_digitsOf (n : Nat) : ∃ c s, digitsOf n = c :: s ∧ c.isDigit = true ∧
    c ≠ '+' ∧ c ≠ '-' := by
  cases digits : digitsOf n with
  | nil => exact absurd digits (digitsOf_ne_nil n)
  | cons c s =>
    have isDigit : c.isDigit = true := isDigit_of_mem_digitsOf (by rw [digits]; exact .head _)
    refine ⟨c, s, rfl, isDigit, ?_, ?_⟩
    · rintro rfl
      exact absurd isDigit (by decide)
    · rintro rfl
      exact absurd isDigit (by decide)

theorem readInteger_digitsOf (range : IntegerRange) {n : Nat} (fits : n ≤ range.largest) :
    readInteger range (digitsOf n) = .ok n := by
  have read := readMagnitude_digitsOf .tooLarge fits
  obtain ⟨c, s, digits, -, notPlus, notMinus⟩ := head_digitsOf n
  rw [digits] at read ⊢
  rw [readInteger, if_neg notPlus, read]
  cases range.negative with
  | none => rfl
  | some limit => simp only [if_neg notMinus]; rfl

theorem readInteger_signed {bits : Nat} {n : Int} (low : -(twoTo (bits - 1) : Int) ≤ n)
    (high : n < twoTo (bits - 1)) :
    readInteger (.signed bits) (toString n).toList = .ok n := by
  rw [toList_toString_int]
  split
  · have fits : n.natAbs ≤ twoTo (bits - 1) := by omega
    rw [readInteger, if_neg (by decide)]
    change (readMagnitude _ _ _).map _ = _
    rw [readMagnitude_digitsOf .tooSmall fits]
    change Except.ok (-(n.natAbs : Int)) = _
    congr
    omega
  · have fits : n.natAbs ≤ (IntegerRange.signed bits).largest := by
      change n.natAbs ≤ twoTo (bits - 1) - 1
      omega
    rw [readInteger_digitsOf _ fits]
    congr
    omega

theorem readInteger_unsigned {bits n : Nat} (fits : n < twoTo bits) :
    readInteger (.unsigned bits) (toString n).toList = .ok n := by
  rw [toList_toString_nat]
  exact readInteger_digitsOf _ (Nat.le_sub_one_of_lt fits)

end JvmPatch.Decimal
