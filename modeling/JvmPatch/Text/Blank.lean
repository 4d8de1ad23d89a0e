/-! White space: which characters are blank, trimming, and splitting a text into words and lines.
Blank is the Unicode property `White_Space`, so `U+00A0` and `U+2028` separate words and `U+200B`
does not. A line feed ends a line, together with one carriage return right before it; a carriage
return on its own does not. A text that ends without a line feed still has that last line. -/

set_option autoImplicit false

namespace JvmPatch.Text

/-- A character with the Unicode property `White_Space`. -/
def isBlank (c : Char) : Bool :=
  let n := c.toNat
  (0x09 ≤ n && n ≤ 0x0d) || n == 0x20 || n == 0x85 || n == 0xa0 || n == 0x1680 ||
    (0x2000 ≤ n && n ≤ 0x200a) || n == 0x2028 || n == 0x2029 || n == 0x202f || n == 0x205f ||
    n == 0x3000

def trimStart (s : List Char) : List Char := s.dropWhile isBlank

def trimEnd (s : List Char) : List Char := (s.reverse.dropWhile isBlank).reverse

/-- Drops the blanks at both ends of a text. -/
def trim (s : List Char) : List Char := trimEnd (trimStart s)

/-- A word of a text: its characters, and the text from its first character to the end. -/
structure Word where
  chars : List Char
  tail : List Char
  deriving DecidableEq, Repr

/-- The words that start in a text, where `inside` says that its first character continues a word
that started before. -/
def wordsFrom : Bool → List Char → List Word
  | _, [] => []
  | inside, c :: s =>
    if isBlank c then wordsFrom false s
    else if inside then wordsFrom true s
    else ⟨(c :: s).takeWhile (fun d => !isBlank d), c :: s⟩ :: wordsFrom true s

/-- The maximal runs of characters that are not blank, from left to right. -/
def words (s : List Char) : List Word := wordsFrom false s

/-- A character with the ASCII capital letters made small. -/
def lowerAscii (c : Char) : Char :=
  if 'A' ≤ c ∧ c ≤ 'Z' then Char.ofNat (c.toNat + 32) else c

/-- Two texts that differ at most in the case of ASCII letters. -/
def sameIgnoringCase (a b : List Char) : Bool := a.map lowerAscii == b.map lowerAscii

/-- The lines of a text, without what ends them. -/
def lines : List Char → List (List Char)
  | [] => []
  | '\n' :: s => [] :: lines s
  | '\r' :: '\n' :: s => [] :: lines s
  | c :: s =>
    match lines s with
    | [] => [[c]]
    | l :: ls => (c :: l) :: ls

end JvmPatch.Text
