/-! The text encodings of class files. Writing uses modified UTF-8: every UTF-16 unit is written on
its own, in one to three bytes, and NUL takes two. Reading accepts more than that: plain UTF-8
first, then strict modified UTF-8, and last a reading that replaces what it cannot decode. -/

set_option autoImplicit false

namespace JvmPatch.Text

/-- The UTF-16 units of a character: one, or a surrogate pair from `U+10000` on. -/
def units16 (c : Char) : List Nat :=
  if c.toNat < 0x10000 then [c.toNat]
  else
    let v := c.toNat - 0x10000
    [0xd800 + v / 0x400, 0xdc00 + v % 0x400]

/-- The bytes of one UTF-16 unit in modified UTF-8. -/
def encodeUnit (u : Nat) : List UInt8 :=
  if 1 ≤ u ∧ u ≤ 0x7f then [UInt8.ofNat u]
  else if u ≤ 0x7ff then [UInt8.ofNat (0xc0 + u / 0x40), UInt8.ofNat (0x80 + u % 0x40)]
  else
    [UInt8.ofNat (0xe0 + u / 0x1000), UInt8.ofNat (0x80 + u / 0x40 % 0x40),
      UInt8.ofNat (0x80 + u % 0x40)]

/-- Modified UTF-8: each UTF-16 unit of the text in turn. -/
def encodeModifiedUtf8 (s : List Char) : List UInt8 :=
  s.flatMap fun c => (units16 c).flatMap encodeUnit

/-- A byte that may follow the first byte of a character. -/
def isContinuation (b : UInt8) : Bool := 0x80 ≤ b && b ≤ 0xbf

/-- The six low bits of a byte. -/
def low6 (b : UInt8) : Nat := b.toNat % 0x40

/-- Reads plain UTF-8: the shortest form of each character only, and no surrogate. -/
def decodeUtf8? : List UInt8 → Option (List Char)
  | [] => some []
  | a :: s =>
    if a ≤ 0x7f then (decodeUtf8? s).map (Char.ofNat a.toNat :: ·)
    else
      match s with
      | [] => none
      | b :: s =>
        if 0xc2 ≤ a && a ≤ 0xdf then
          if isContinuation b then
            (decodeUtf8? s).map (Char.ofNat ((a.toNat - 0xc0) * 0x40 + low6 b) :: ·)
          else none
        else
          match s with
          | [] => none
          | c :: s =>
            if 0xe0 ≤ a && a ≤ 0xef then
              let v := (a.toNat - 0xe0) * 0x1000 + low6 b * 0x40 + low6 c
              if isContinuation b && isContinuation c && 0x800 ≤ v &&
                  !(0xd800 ≤ v && v ≤ 0xdfff) then
                (decodeUtf8? s).map (Char.ofNat v :: ·)
              else none
            else
              match s with
              | [] => none
              | d :: s =>
                let v := (a.toNat - 0xf0) * 0x40000 + low6 b * 0x1000 + low6 c * 0x40 + low6 d
                if 0xf0 ≤ a && a ≤ 0xf4 && isContinuation b && isContinuation c &&
                    isContinuation d && 0x10000 ≤ v && v ≤ 0x10ffff then
                  (decodeUtf8? s).map (Char.ofNat v :: ·)
                else none

/-- The character of a surrogate pair whose halves end in the given bytes: the second byte of the
high half lies in `A0`–`AF` and that of the low half in `B0`–`BF`. -/
def pairChar (b c e f : UInt8) : Char :=
  let high := 0xd000 + low6 b * 0x40 + low6 c
  let low := 0xd000 + low6 e * 0x40 + low6 f
  Char.ofNat (0x10000 + (high - 0xd800) * 0x400 + (low - 0xdc00))

/-- The second byte of a high surrogate after `ED`. -/
def isHighHalf (b : UInt8) : Bool := 0xa0 ≤ b && b ≤ 0xaf

/-- The second byte of a low surrogate after `ED`. -/
def isLowHalf (b : UInt8) : Bool := 0xb0 ≤ b && b ≤ 0xbf

/-- Reads strict modified UTF-8: NUL as `C0 80` only, supplementary characters as surrogate pairs
only, everything else in its shortest form. -/
def decodeModified? : List UInt8 → Option (List Char)
  | [] => some []
  | a :: s =>
    if 0x01 ≤ a && a ≤ 0x7f then (decodeModified? s).map (Char.ofNat a.toNat :: ·)
    else
      match s with
      | [] => none
      | b :: s =>
        if a == 0xc0 then
          if b == 0x80 then (decodeModified? s).map (Char.ofNat 0 :: ·) else none
        else if 0xc2 ≤ a && a ≤ 0xdf then
          if isContinuation b then
            (decodeModified? s).map (Char.ofNat ((a.toNat - 0xc0) * 0x40 + low6 b) :: ·)
          else none
        else
          match s with
          | [] => none
          | c :: s =>
            if 0xe0 ≤ a && a ≤ 0xef && isContinuation b && isContinuation c then
              let v := (a.toNat - 0xe0) * 0x1000 + low6 b * 0x40 + low6 c
              if v < 0x800 then none
              else if a == 0xed && isHighHalf b then
                match s with
                | 0xed :: e :: f :: s =>
                  if isLowHalf e && isContinuation f then
                    (decodeModified? s).map (pairChar b c e f :: ·)
                  else none
                | _ => none
              else if a == 0xed && isLowHalf b then none
              else (decodeModified? s).map (Char.ofNat v :: ·)
            else none

/-- The character of a 16-bit value, with a question mark for a surrogate. -/
def unitChar (v : Nat) : Char :=
  if 0xd800 ≤ v ∧ v ≤ 0xdfff then '?' else Char.ofNat v

/-- Reads the first character of a sequence that is in none of the strict forms, and says how many
bytes it takes. A question mark stands for what cannot be read. -/
def lossyChar (a : UInt8) (s : List UInt8) : Char × Nat :=
  let wide : Option (Char × Nat) :=
    match s with
    | b :: c :: 0xed :: e :: f :: _ =>
      if a == 0xed && isHighHalf b && isContinuation c && isLowHalf e && isContinuation f then
        some (pairChar b c e f, 6)
      else none
    | _ => none
  match wide with
  | some r => r
  | none =>
    if a ≤ 0x7f then (Char.ofNat a.toNat, 1)
    else if 0xe0 ≤ a && a ≤ 0xef then
      match s with
      | b :: c :: _ =>
        if isContinuation b && isContinuation c then
          (unitChar ((a.toNat - 0xe0) * 0x1000 + low6 b * 0x40 + low6 c), 3)
        else if isContinuation b then ('?', 2)
        else ('?', 1)
      | [b] => if isContinuation b then ('?', 2) else ('?', 1)
      | [] => ('?', 1)
    else if 0xc0 ≤ a && a ≤ 0xdf then
      match s with
      | b :: _ =>
        if isContinuation b then (Char.ofNat ((a.toNat - 0xc0) * 0x40 + low6 b), 2) else ('?', 1)
      | [] => ('?', 1)
    else ('?', 1)

/-- Reads any bytes, character by character from the left. -/
def decodeLossy : List UInt8 → List Char
  | [] => []
  | a :: s =>
    let r := lossyChar a s
    r.1 :: decodeLossy (s.drop (r.2 - 1))
termination_by s => s.length
decreasing_by simp only [List.length_drop, List.length_cons]; omega

/-- The text of an encoded name or string: plain UTF-8 if the bytes are that, else strict modified
UTF-8, else the reading that replaces what it cannot decode. -/
def decodeModifiedUtf8 (s : List UInt8) : List Char :=
  match decodeUtf8? s with
  | some t => t
  | none =>
    match decodeModified? s with
    | some t => t
    | none => decodeLossy s

end JvmPatch.Text
