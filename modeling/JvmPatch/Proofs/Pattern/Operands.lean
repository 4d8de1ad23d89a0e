import JvmPatch.Constant
import JvmPatch.Pattern.Compile
import JvmPatch.Proofs.Decimal.RoundTrip
import JvmPatch.Proofs.Text.Words

/-! The texts of numbers are words that are read as these numbers. -/

set_option autoImplicit false

namespace JvmPatch

theorem lowerAscii_of_isDigit {c : Char} (digit : c.isDigit = true) : Text.lowerAscii c = c := by
  rw [Text.lowerAscii, if_neg]
  rintro ⟨isLetter, -⟩
  have low : 65 ≤ c.toNat := UInt32.le_iff_toNat_le.1 isLetter
  have high : c.toNat ≤ 57 := (Char.isDigit_iff_toNat.1 digit).2
  omega

theorem isBlank_of_isDigit {c : Char} (digit : c.isDigit = true) : Text.isBlank c = false := by
  have low : 48 ≤ c.toNat := (Char.isDigit_iff_toNat.1 digit).1
  have high : c.toNat ≤ 57 := (Char.isDigit_iff_toNat.1 digit).2
  by_contra blank
  rw [Bool.not_eq_false] at blank
  simp only [Text.isBlank, Bool.or_eq_true, Bool.and_eq_true, decide_eq_true_eq,
    beq_iff_eq] at blank
  omega

namespace Decimal.IsNumeral

variable {s : List Char}

theorem isWord (numeral : IsNumeral s) : Text.IsWord s where
  ne_nil := by
    obtain ⟨c, last, -⟩ := numeral.last
    rintro rfl
    cases last
  noBlank c member := by
    rcases numeral.chars c member with digit | rfl | rfl | rfl
    · exact isBlank_of_isDigit digit
    all_goals decide

theorem not_mem (numeral : IsNumeral s) {c : Char} (other : c.isDigit = false) (notMinus : c ≠ '-')
    (notPoint : c ≠ '.') (notExponent : c ≠ 'e') : c ∉ s := by
  intro member
  rcases numeral.chars c member with digit | same | same | same
  · exact absurd (other.symm.trans digit) Bool.false_ne_true
  · exact notMinus same
  · exact notPoint same
  · exact notExponent same

theorem ne_star (numeral : IsNumeral s) : s ≠ ['*'] := by
  rintro rfl
  exact numeral.not_mem (by decide) (by decide) (by decide) (by decide) (.head _)

/-- Numbers do not end in a letter that could be dropped. -/
theorem dropSuffix_eq (numeral : IsNumeral s) {small : Char} (letter : small.isDigit = false) :
    Pattern.dropSuffix small s = s := by
  obtain ⟨c, last, digit⟩ := numeral.last
  obtain ⟨front, rfl⟩ := List.getLast?_eq_some_iff.1 last
  have other : (Text.lowerAscii c == small) = false := by
    rw [lowerAscii_of_isDigit digit, beq_eq_false_iff_ne]
    rintro rfl
    exact absurd (letter.symm.trans digit) Bool.false_ne_true
  rw [Pattern.dropSuffix, List.reverse_append, List.reverse_singleton, List.singleton_append,
    List.dropWhile_cons, other, if_neg Bool.false_ne_true, List.reverse_cons, List.reverse_reverse]

end Decimal.IsNumeral

namespace Pattern

variable {α : Type} {read : List Char → Except OperandError α} {token : List Char} {x : α}

theorem orAny_of_ok (ne : token ≠ ['*']) (ok : read token = .ok x) :
    orAny read token = .ok (.is x) := by
  rw [orAny, if_neg ne, ok]
  rfl

theorem integer_signed {bits : Nat} {n : Int} (low : -(Decimal.twoTo (bits - 1) : Int) ≤ n)
    (high : n < Decimal.twoTo (bits - 1)) : integer (.signed bits) (toString n).toList = .ok n := by
  rw [integer, Decimal.readInteger_signed low high]
  rfl

theorem integer_unsigned {bits n : Nat} (fits : n < Decimal.twoTo bits) :
    integer (.unsigned bits) (toString n).toList = .ok (n : Int) := by
  rw [integer, Decimal.readInteger_unsigned fits]
  rfl

theorem int32_text (v : Int32) : int32 (intText v).toList = .ok (.is v) := by
  refine orAny_of_ok (Decimal.IsNumeral.toString_int _).ne_star ?_
  rw [intText, integer_signed v.le_toInt v.toInt_lt]
  exact congrArg Except.ok (Int32.ofInt_toInt v)

theorem int64_text (v : Int64) : int64 (dropSuffix 'l' (longText v).toList) = .ok (.is v) := by
  have numeral := Decimal.IsNumeral.toString_int v.toInt
  rw [longText, numeral.dropSuffix_eq (by decide)]
  refine orAny_of_ok numeral.ne_star ?_
  rw [integer_signed v.le_toInt v.toInt_lt]
  exact congrArg Except.ok (Int64.ofInt_toInt v)

theorem int16_text (v : Int16) : int16 (toString v.toInt).toList = .ok (.is v) := by
  refine orAny_of_ok (Decimal.IsNumeral.toString_int _).ne_star ?_
  rw [integer_signed v.le_toInt v.toInt_lt]
  exact congrArg Except.ok (Int16.ofInt_toInt v)

theorem isNumeral_toString (n : Nat) : Decimal.IsNumeral (toString n).toList := by
  rw [Decimal.toList_toString_nat]
  exact .digitsOf n

theorem uint16_text (v : UInt16) : uint16 (toString v.toNat).toList = .ok (.is v) := by
  refine orAny_of_ok (isNumeral_toString _).ne_star ?_
  rw [integer_unsigned v.toNat_lt]
  exact congrArg Except.ok (UInt16.ofNat_toNat)

theorem uint8_text (v : UInt8) : uint8 (toString v.toNat).toList = .ok (.is v) := by
  refine orAny_of_ok (isNumeral_toString _).ne_star ?_
  rw [integer_unsigned v.toNat_lt]
  exact congrArg Except.ok (UInt8.ofNat_toNat)

theorem single32_text {bits : UInt32} {negative : Bool} {mantissa shift : Nat}
    (finite : Decimal.BinaryFormat.single.value bits.toNat = .finite negative mantissa shift) :
    single32 (dropSuffix 'f' (floatText bits).toList) = .ok (.is bits) := by
  have numeral := Decimal.BinaryFormat.numeral_text .plain finite
  rw [floatText, numeral.dropSuffix_eq (by decide)]
  refine orAny_of_ok numeral.ne_star ?_
  rw [Decimal.BinaryFormat.read_text Decimal.BinaryFormat.single_regular .plain
    bits.toNat_lt finite]
  exact congrArg Except.ok (UInt32.ofNat_toNat)

/-- Double precision numbers are read whole, infinities included. -/
theorem read_doubleText {bits : UInt64}
    (number : Decimal.BinaryFormat.double.value bits.toNat ≠ .nan) :
    dropSuffix 'd' (doubleText bits).toList = (doubleText bits).toList ∧
      (doubleText bits).toList ≠ ['*'] ∧
      Decimal.BinaryFormat.double.read (doubleText bits).toList = .ok bits.toNat := by
  have fits : bits.toNat < 2 * Decimal.BinaryFormat.double.signBit := bits.toNat_lt
  cases value : Decimal.BinaryFormat.double.value bits.toNat with
  | nan => exact absurd value number
  | infinite negative =>
    refine ⟨?_, ?_, Decimal.BinaryFormat.read_text_of_infinite fits value⟩
    · rw [doubleText, Decimal.BinaryFormat.text_of_infinite value]
      cases negative <;> rfl
    · rw [doubleText, Decimal.BinaryFormat.text_of_infinite value]
      cases negative <;> decide
  | finite negative mantissa shift =>
    have numeral := Decimal.BinaryFormat.numeral_text .plain value
    exact ⟨numeral.dropSuffix_eq (by decide), numeral.ne_star,
      Decimal.BinaryFormat.read_text Decimal.BinaryFormat.double_regular .plain fits value⟩

theorem double64_text {bits : UInt64}
    (number : Decimal.BinaryFormat.double.value bits.toNat ≠ .nan) :
    double64 (dropSuffix 'd' (doubleText bits).toList) = .ok (.is bits) := by
  obtain ⟨whole, notStar, isRead⟩ := read_doubleText number
  rw [whole]
  refine orAny_of_ok notStar ?_
  rw [isRead]
  exact congrArg Except.ok (UInt64.ofNat_toNat)

theorem isWord_doubleText {bits : UInt64}
    (number : Decimal.BinaryFormat.double.value bits.toNat ≠ .nan) :
    Text.IsWord (doubleText bits).toList := by
  cases value : Decimal.BinaryFormat.double.value bits.toNat with
  | nan => exact absurd value number
  | infinite negative =>
    rw [doubleText, Decimal.BinaryFormat.text_of_infinite value]
    cases negative <;> decide
  | finite negative mantissa shift => exact (Decimal.BinaryFormat.numeral_text .plain value).isWord

end Pattern

end JvmPatch
