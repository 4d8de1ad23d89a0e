import JvmPatch.Text.ModifiedUtf8

/-! Texts in modified UTF-8 are read back. The reader tries plain UTF-8 first; it gives up on the
forms in which modified UTF-8 differs, and agrees with it on all others. -/

set_option autoImplicit false

namespace JvmPatch.Text

theorem ofNat_toNat_of_lt {n : Nat} (small : n < 256) : (UInt8.ofNat n).toNat = n := by
  rw [UInt8.toNat_ofNat', Nat.mod_eq_of_lt small]

/-- The number of a character is no surrogate. -/
theorem toNat_lt_or_gt (c : Char) : c.toNat < 0xd800 ∨ 0xdfff < c.toNat ∧ c.toNat < 0x110000 :=
  c.valid

/-- A byte that follows the first byte of a character, and the six bits that it holds. -/
structure Continues (b : UInt8) (bits : Nat) : Prop where
  bits_lt : bits < 0x40
  toNat_eq : b.toNat = 0x80 + bits

namespace Continues

variable {b : UInt8} {bits : Nat}

theorem ofNat (bits : Nat) (small : bits < 0x40) : Continues (UInt8.ofNat (0x80 + bits)) bits :=
  ⟨small, ofNat_toNat_of_lt (by omega)⟩

theorem isContinuation (h : Continues b bits) : isContinuation b = true := by
  have := h.bits_lt
  have := h.toNat_eq
  simp only [Text.isContinuation, Bool.and_eq_true, decide_eq_true_eq, UInt8.le_iff_toNat_le]
  exact ⟨by rw [this]; simp, by rw [this]; simp; omega⟩

theorem low6 (h : Continues b bits) : low6 b = bits := by
  have := h.bits_lt
  have := h.toNat_eq
  simp only [Text.low6]
  omega

end Continues

/-! Plain UTF-8. -/

section Utf8

variable {a b c : UInt8} {high mid low : Nat} (s : List UInt8)

theorem decodeUtf8?_one (first : a.toNat ≤ 0x7f) :
    decodeUtf8? (a :: s) = (decodeUtf8? s).map (Char.ofNat a.toNat :: ·) := by
  have one : a ≤ 0x7f := by simpa [UInt8.le_iff_toNat_le] using first
  rw [decodeUtf8?.eq_def]
  simp only [one, if_true]

theorem decodeUtf8?_two (first : a.toNat = 0xc0 + high) (atLeast : 2 ≤ high) (atMost : high < 0x20)
    (second : Continues b low) :
    decodeUtf8? (a :: b :: s) = (decodeUtf8? s).map (Char.ofNat (high * 0x40 + low) :: ·) := by
  have notOne : ¬a ≤ 0x7f := by simp [UInt8.le_iff_toNat_le]; omega
  have two : (0xc2 ≤ a && a ≤ 0xdf) = true := by simp [UInt8.le_iff_toNat_le]; omega
  rw [decodeUtf8?.eq_def]
  simp only [notOne, two, second.isContinuation, second.low6, if_true, if_false, first,
    Nat.add_sub_cancel_left]

theorem decodeUtf8?_three (first : a.toNat = 0xe0 + high) (atMost : high < 0x10)
    (second : Continues b mid) (third : Continues c low)
    (long : 0x800 ≤ high * 0x1000 + mid * 0x40 + low) :
    decodeUtf8? (a :: b :: c :: s) =
      if 0xd800 ≤ high * 0x1000 + mid * 0x40 + low ∧ high * 0x1000 + mid * 0x40 + low ≤ 0xdfff then
        none
      else (decodeUtf8? s).map (Char.ofNat (high * 0x1000 + mid * 0x40 + low) :: ·) := by
  have notOne : ¬a ≤ 0x7f := by simp [UInt8.le_iff_toNat_le]; omega
  have notTwo : (0xc2 ≤ a && a ≤ 0xdf) = false := by simp [UInt8.le_iff_toNat_le]; omega
  have three : (0xe0 ≤ a && a ≤ 0xef) = true := by simp [UInt8.le_iff_toNat_le]; omega
  rw [decodeUtf8?.eq_def]
  simp only [notOne, notTwo, three, second.isContinuation, second.low6, third.isContinuation,
    third.low6, if_true, if_false, first, Nat.add_sub_cancel_left, long, decide_true, Bool.true_and,
    Bool.false_eq_true]
  by_cases surrogate : 0xd800 ≤ high * 0x1000 + mid * 0x40 + low ∧
      high * 0x1000 + mid * 0x40 + low ≤ 0xdfff
  · simp [surrogate]
  · rw [if_neg surrogate, if_pos]
    simp only [Bool.not_eq_true', Bool.and_eq_false_iff, decide_eq_false_iff_not]
    omega

theorem decodeUtf8?_nul : decodeUtf8? (0xc0 :: 0x80 :: s) = none := by
  cases s with
  | nil => rfl
  | cons c s => cases s <;> rfl

end Utf8

/-! Strict modified UTF-8. -/

section Modified

variable {a b c d e f : UInt8} {high mid low : Nat} (s : List UInt8)

theorem decodeModified?_one (atLeast : 1 ≤ a.toNat) (first : a.toNat ≤ 0x7f) :
    decodeModified? (a :: s) = (decodeModified? s).map (Char.ofNat a.toNat :: ·) := by
  have one : (0x01 ≤ a && a ≤ 0x7f) = true := by simp [UInt8.le_iff_toNat_le]; omega
  rw [decodeModified?.eq_def]
  simp only [one, if_true]

theorem decodeModified?_nul :
    decodeModified? (0xc0 :: 0x80 :: s) = (decodeModified? s).map (Char.ofNat 0 :: ·) := by
  rw [decodeModified?.eq_def]
  rfl

theorem decodeModified?_two (first : a.toNat = 0xc0 + high) (atLeast : 2 ≤ high)
    (atMost : high < 0x20) (second : Continues b low) :
    decodeModified? (a :: b :: s) =
      (decodeModified? s).map (Char.ofNat (high * 0x40 + low) :: ·) := by
  have notOne : (0x01 ≤ a && a ≤ 0x7f) = false := by simp [UInt8.le_iff_toNat_le]; omega
  have notNul : (a == 0xc0) = false := by simp [← UInt8.toNat_inj]; omega
  have two : (0xc2 ≤ a && a ≤ 0xdf) = true := by simp [UInt8.le_iff_toNat_le]; omega
  rw [decodeModified?.eq_def]
  simp only [notOne, notNul, two, second.isContinuation, second.low6, if_true, if_false, first,
    Nat.add_sub_cancel_left, Bool.false_eq_true]

theorem decodeModified?_three (first : a.toNat = 0xe0 + high) (atMost : high < 0x10)
    (second : Continues b mid) (third : Continues c low)
    (long : 0x800 ≤ high * 0x1000 + mid * 0x40 + low)
    (plain : ¬(high = 0xd ∧ 0x20 ≤ mid)) :
    decodeModified? (a :: b :: c :: s) =
      (decodeModified? s).map (Char.ofNat (high * 0x1000 + mid * 0x40 + low) :: ·) := by
  have notOne : (0x01 ≤ a && a ≤ 0x7f) = false := by simp [UInt8.le_iff_toNat_le]; omega
  have notNul : (a == 0xc0) = false := by simp [← UInt8.toNat_inj]; omega
  have notTwo : (0xc2 ≤ a && a ≤ 0xdf) = false := by simp [UInt8.le_iff_toNat_le]; omega
  have three : (0xe0 ≤ a && a ≤ 0xef) = true := by simp [UInt8.le_iff_toNat_le]; omega
  have notHigh : (a == 0xed && isHighHalf b) = false := by
    have := second.toNat_eq
    simp [isHighHalf, ← UInt8.toNat_inj, UInt8.le_iff_toNat_le]; omega
  have notLow : (a == 0xed && isLowHalf b) = false := by
    have := second.toNat_eq
    simp [isLowHalf, ← UInt8.toNat_inj, UInt8.le_iff_toNat_le]; omega
  rw [decodeModified?.eq_def]
  simp only [notOne, notNul, notTwo, three, second.isContinuation, second.low6,
    third.isContinuation, third.low6, if_true, if_false, first, Nat.add_sub_cancel_left, notHigh,
    notLow, Bool.true_and, Bool.false_eq_true, Nat.not_lt.2 long]

theorem decodeModified?_pair {highMid highLow lowMid lowLow : Nat}
    (second : Continues b (0x20 + highMid)) (highRange : highMid < 0x10)
    (third : Continues c highLow)
    (fifth : Continues e (0x30 + lowMid)) (sixth : Continues f lowLow) :
    decodeModified? (0xed :: b :: c :: 0xed :: e :: f :: s) =
      (decodeModified? s).map
        (Char.ofNat
          (0x10000 + (highMid * 0x40 + highLow) * 0x400 + (lowMid * 0x40 + lowLow)) :: ·) := by
  have high : isHighHalf b = true := by
    have := second.toNat_eq
    simp [isHighHalf, UInt8.le_iff_toNat_le]; omega
  have low : isLowHalf e = true := by
    have := fifth.toNat_eq
    have := fifth.bits_lt
    simp [isLowHalf, UInt8.le_iff_toNat_le]; omega
  have long : ¬0xd000 + (0x20 + highMid) * 0x40 + highLow < 0x800 := by omega
  have pair : pairChar b c e f =
      Char.ofNat (0x10000 + (highMid * 0x40 + highLow) * 0x400 + (lowMid * 0x40 + lowLow)) := by
    simp only [pairChar, second.low6, third.low6, fifth.low6, sixth.low6]
    exact congrArg Char.ofNat (by omega)
  rw [decodeModified?.eq_def]
  simp [second.isContinuation, third.isContinuation, sixth.isContinuation, second.low6, third.low6,
    high, low, pair, long]

end Modified

theorem encodeUnit_surrogate {n : Nat} (small : n < 0x800) :
    encodeUnit (0xd800 + n) =
      [0xed, UInt8.ofNat (0x80 + (0x20 + n / 0x40)), UInt8.ofNat (0x80 + n % 0x40)] := by
  have notOne : ¬(1 ≤ 0xd800 + n ∧ 0xd800 + n ≤ 0x7f) := by omega
  have notTwo : ¬0xd800 + n ≤ 0x7ff := by omega
  have first : 0xe0 + (0xd800 + n) / 0x1000 = 0xed := by omega
  have second : (0xd800 + n) / 0x40 % 0x40 = 0x20 + n / 0x40 := by omega
  have third : (0xd800 + n) % 0x40 = n % 0x40 := by omega
  rw [encodeUnit, if_neg notOne, if_neg notTwo, first, second, third]
  rfl

/-- The bytes of one character in modified UTF-8, by the place of its number. -/
theorem flatMap_encodeUnit (c : Char) :
    (units16 c).flatMap encodeUnit =
      if c.toNat = 0 then [0xc0, 0x80]
      else if c.toNat ≤ 0x7f then [UInt8.ofNat c.toNat]
      else if c.toNat ≤ 0x7ff then
        [UInt8.ofNat (0xc0 + c.toNat / 0x40), UInt8.ofNat (0x80 + c.toNat % 0x40)]
      else if c.toNat < 0x10000 then
        [UInt8.ofNat (0xe0 + c.toNat / 0x1000), UInt8.ofNat (0x80 + c.toNat / 0x40 % 0x40),
          UInt8.ofNat (0x80 + c.toNat % 0x40)]
      else
        [0xed, UInt8.ofNat (0x80 + (0x20 + (c.toNat - 0x10000) / 0x10000)),
          UInt8.ofNat (0x80 + (c.toNat - 0x10000) / 0x400 % 0x40), 0xed,
          UInt8.ofNat (0x80 + (0x30 + (c.toNat - 0x10000) % 0x400 / 0x40)),
          UInt8.ofNat (0x80 + (c.toNat - 0x10000) % 0x40)] := by
  have range := toNat_lt_or_gt c
  unfold units16
  by_cases wide : c.toNat < 0x10000
  · simp only [wide, if_true, List.flatMap_cons, List.flatMap_nil, List.append_nil, encodeUnit]
    by_cases nul : c.toNat = 0
    · simp [nul]
    · have : 1 ≤ c.toNat := by omega
      simp [nul, this]
  · have high : (c.toNat - 0x10000) / 0x400 / 0x40 = (c.toNat - 0x10000) / 0x10000 := by omega
    have low : 0xdc00 + (c.toNat - 0x10000) % 0x400 =
        0xd800 + (0x400 + (c.toNat - 0x10000) % 0x400) := by omega
    have lowMid : (0x400 + (c.toNat - 0x10000) % 0x400) / 0x40 =
        0x10 + (c.toNat - 0x10000) % 0x400 / 0x40 := by omega
    have lowLow : (0x400 + (c.toNat - 0x10000) % 0x400) % 0x40 = (c.toNat - 0x10000) % 0x40 := by
      omega
    simp only [wide, if_false, List.flatMap_cons, List.flatMap_nil, List.append_nil, low]
    rw [encodeUnit_surrogate (by omega), encodeUnit_surrogate (by omega), high, lowMid, lowLow]
    rw [if_neg (by omega), if_neg (by omega), if_neg (by omega), ← Nat.add_assoc 0x20]
    rfl

/-- Strict reading undoes the encoding of a character. -/
theorem decodeModified?_append (c : Char) (s : List UInt8) :
    decodeModified? ((units16 c).flatMap encodeUnit ++ s) = (decodeModified? s).map (c :: ·) := by
  have range := toNat_lt_or_gt c
  rw [flatMap_encodeUnit]
  split
  case isTrue nul =>
    have : Char.ofNat 0 = c := by rw [← nul, Char.ofNat_toNat]
    exact (decodeModified?_nul s).trans (by rw [this])
  split
  case isTrue one =>
    have first : (UInt8.ofNat c.toNat).toNat = c.toNat := ofNat_toNat_of_lt (by omega)
    have decoded := decodeModified?_one s (a := UInt8.ofNat c.toNat) (by omega) (by omega)
    rwa [first, Char.ofNat_toNat] at decoded
  split
  case isTrue two =>
    have value : c.toNat / 0x40 * 0x40 + c.toNat % 0x40 = c.toNat := by omega
    have decoded := decodeModified?_two s
      (ofNat_toNat_of_lt (n := 0xc0 + c.toNat / 0x40) (by omega)) (by omega)
      (by omega) (.ofNat (c.toNat % 0x40) (by omega))
    rwa [value, Char.ofNat_toNat] at decoded
  split
  case isTrue three =>
    have value : c.toNat / 0x1000 * 0x1000 + c.toNat / 0x40 % 0x40 * 0x40 + c.toNat % 0x40 =
        c.toNat := by omega
    have decoded := decodeModified?_three s
      (ofNat_toNat_of_lt (n := 0xe0 + c.toNat / 0x1000) (by omega)) (by omega)
      (.ofNat (c.toNat / 0x40 % 0x40) (by omega)) (.ofNat (c.toNat % 0x40) (by omega))
      (by omega) (by omega)
    rwa [value, Char.ofNat_toNat] at decoded
  case isFalse =>
    have value : 0x10000 + ((c.toNat - 0x10000) / 0x10000 * 0x40 +
        (c.toNat - 0x10000) / 0x400 % 0x40) * 0x400 +
        ((c.toNat - 0x10000) % 0x400 / 0x40 * 0x40 + (c.toNat - 0x10000) % 0x40) = c.toNat := by
      omega
    have decoded := decodeModified?_pair s
      (.ofNat (0x20 + (c.toNat - 0x10000) / 0x10000) (by omega)) (by omega)
      (.ofNat ((c.toNat - 0x10000) / 0x400 % 0x40) (by omega))
      (.ofNat (0x30 + (c.toNat - 0x10000) % 0x400 / 0x40) (by omega))
      (.ofNat ((c.toNat - 0x10000) % 0x40) (by omega))
    rwa [value, Char.ofNat_toNat] at decoded

/-- Whether modified UTF-8 writes a character as plain UTF-8 does. NUL and the characters beyond
`U+FFFF` have other forms in it. -/
def isWrittenPlainly (c : Char) : Bool := decide (c.toNat ≠ 0 ∧ c.toNat < 0x10000)

/-- Plain reading undoes the encoding of a character, or gives up on the forms that only modified
UTF-8 has. -/
theorem decodeUtf8?_append (c : Char) (s : List UInt8) :
    decodeUtf8? ((units16 c).flatMap encodeUnit ++ s) =
      if isWrittenPlainly c then (decodeUtf8? s).map (c :: ·) else none := by
  have range := toNat_lt_or_gt c
  rw [flatMap_encodeUnit, isWrittenPlainly]
  split
  case isTrue nul =>
    rw [if_neg (by simp [nul])]
    exact decodeUtf8?_nul s
  split
  case isTrue one =>
    have first : (UInt8.ofNat c.toNat).toNat = c.toNat := ofNat_toNat_of_lt (by omega)
    have decoded := decodeUtf8?_one s (a := UInt8.ofNat c.toNat) (by omega)
    rw [first, Char.ofNat_toNat] at decoded
    rw [if_pos (decide_eq_true (by omega))]
    exact decoded
  split
  case isTrue two =>
    have value : c.toNat / 0x40 * 0x40 + c.toNat % 0x40 = c.toNat := by omega
    have decoded := decodeUtf8?_two s (ofNat_toNat_of_lt (n := 0xc0 + c.toNat / 0x40) (by omega))
      (by omega) (by omega) (.ofNat (c.toNat % 0x40) (by omega))
    rw [value, Char.ofNat_toNat] at decoded
    rw [if_pos (decide_eq_true (by omega))]
    exact decoded
  split
  case isTrue three =>
    have value : c.toNat / 0x1000 * 0x1000 + c.toNat / 0x40 % 0x40 * 0x40 + c.toNat % 0x40 =
        c.toNat := by omega
    have decoded := decodeUtf8?_three s
      (ofNat_toNat_of_lt (n := 0xe0 + c.toNat / 0x1000) (by omega)) (by omega)
      (.ofNat (c.toNat / 0x40 % 0x40) (by omega)) (.ofNat (c.toNat % 0x40) (by omega))
      (by omega)
    rw [value, if_neg (by omega), Char.ofNat_toNat] at decoded
    rw [if_pos (decide_eq_true (by omega))]
    exact decoded
  case isFalse wide =>
    have decoded (rest : List UInt8) := decodeUtf8?_three rest
      (show (0xed : UInt8).toNat = 0xe0 + 0xd from rfl) (by omega)
      (.ofNat (0x20 + (c.toNat - 0x10000) / 0x10000) (by omega))
      (.ofNat ((c.toNat - 0x10000) / 0x400 % 0x40) (by omega)) (by omega)
    simp only [if_pos (show 0xd800 ≤ 0xd * 0x1000 +
      (0x20 + (c.toNat - 0x10000) / 0x10000) * 0x40 + (c.toNat - 0x10000) / 0x400 % 0x40 ∧
      0xd * 0x1000 + (0x20 + (c.toNat - 0x10000) / 0x10000) * 0x40 +
        (c.toNat - 0x10000) / 0x400 % 0x40 ≤ 0xdfff by omega)] at decoded
    rw [if_neg (by simp [wide])]
    exact decoded _

theorem encodeModifiedUtf8_cons (c : Char) (s : List Char) :
    encodeModifiedUtf8 (c :: s) = (units16 c).flatMap encodeUnit ++ encodeModifiedUtf8 s :=
  List.flatMap_cons

theorem decodeModified?_encode (s : List Char) :
    decodeModified? (encodeModifiedUtf8 s) = some s := by
  induction s with
  | nil => rfl
  | cons c s ih => rw [encodeModifiedUtf8_cons, decodeModified?_append, ih, Option.map_some]

theorem decodeUtf8?_encode (s : List Char) :
    decodeUtf8? (encodeModifiedUtf8 s) = if s.all isWrittenPlainly then some s else none := by
  induction s with
  | nil => rfl
  | cons c s ih =>
    rw [encodeModifiedUtf8_cons, decodeUtf8?_append, ih, List.all_cons]
    cases isWrittenPlainly c with
    | false => rfl
    | true => cases s.all isWrittenPlainly <;> rfl

theorem decode_encodeModifiedUtf8 (s : List Char) :
    decodeModifiedUtf8 (encodeModifiedUtf8 s) = s := by
  unfold decodeModifiedUtf8
  rw [decodeUtf8?_encode, decodeModified?_encode]
  cases s.all isWrittenPlainly <;> rfl

theorem units16_lt (c : Char) : ∀ u ∈ units16 c, u < 0x10000 := by
  have range := toNat_lt_or_gt c
  intro u member
  unfold units16 at member
  split at member
  · simp only [List.mem_singleton] at member
    omega
  · simp only [List.mem_cons, List.not_mem_nil, or_false] at member
    omega

theorem encodeUnit_bytes {u : Nat} (small : u < 0x10000) : ∀ b ∈ encodeUnit u, 0 < b.toNat ∧
    b.toNat < 0xf0 := by
  have bytes {n : Nat} (positive : 0 < n) (least : n < 0xf0) :
      0 < (UInt8.ofNat n).toNat ∧ (UInt8.ofNat n).toNat < 0xf0 := by
    rw [ofNat_toNat_of_lt (by omega)]
    exact ⟨positive, least⟩
  intro b member
  unfold encodeUnit at member
  split at member
  · rw [List.mem_singleton] at member
    exact member ▸ bytes (by omega) (by omega)
  split at member
  · rcases List.mem_cons.1 member with rfl | member
    · exact bytes (by omega) (by omega)
    · rw [List.mem_singleton] at member
      exact member ▸ bytes (by omega) (by omega)
  · rcases List.mem_cons.1 member with rfl | member
    · exact bytes (by omega) (by omega)
    rcases List.mem_cons.1 member with rfl | member
    · exact bytes (by omega) (by omega)
    · rw [List.mem_singleton] at member
      exact member ▸ bytes (by omega) (by omega)

/-- Every text is read back from its modified UTF-8, in which no byte is zero and none belongs to a
form of four bytes. Plain reading accepts the bytes of exactly those texts in which it means the
same, strict reading accepts all of them, and so the reading that replaces what it cannot decode is
never reached. -/
theorem encodeModifiedUtf8_readings (s : List Char) :
    decodeModifiedUtf8 (encodeModifiedUtf8 s) = s ∧
      decodeUtf8? (encodeModifiedUtf8 s) = (if s.all isWrittenPlainly then some s else none) ∧
      decodeModified? (encodeModifiedUtf8 s) = some s ∧
      ∀ b ∈ encodeModifiedUtf8 s, 0 < b.toNat ∧ b.toNat < 0xf0 := by
  refine ⟨decode_encodeModifiedUtf8 s, decodeUtf8?_encode s, decodeModified?_encode s,
    fun b member => ?_⟩
  obtain ⟨c, -, inside⟩ := List.mem_flatMap.1 member
  obtain ⟨u, unit, byte⟩ := List.mem_flatMap.1 inside
  exact encodeUnit_bytes (units16_lt c u unit) b byte

example : encodeModifiedUtf8 ['\x00', 'é', '😀'] =
    [0xc0, 0x80, 0xc3, 0xa9, 0xed, 0xa0, 0xbd, 0xed, 0xb8, 0x80] := by decide

end JvmPatch.Text
