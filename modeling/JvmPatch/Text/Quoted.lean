/-! String constants in scripts: a text between double quotes, with escapes for the quote, the
backslash, line feed, carriage return and tab. `quote` writes the form and `unquote` reads it. -/

set_option autoImplicit false

namespace JvmPatch.Text

/-- Why a text is not a string constant. -/
inductive QuoteError
  /-- The text does not stand between double quotes. -/
  | unquoted (text : List Char)
  /-- A backslash is followed by a character that it does not escape. -/
  | unknownEscape (c : Char)
  /-- A backslash is the last character. -/
  | danglingEscape
  deriving DecidableEq, Repr

def QuoteError.message : QuoteError → String
  | .unquoted text => "Invalid string " ++ String.ofList text
  | .unknownEscape c => "Unknown escape \\" ++ String.ofList [c]
  | .danglingEscape => "Dangling escape at end of string"

/-- The escaped form of one character. -/
def escape (c : Char) : List Char :=
  if c = '\n' then ['\\', 'n']
  else if c = '\r' then ['\\', 'r']
  else if c = '\t' then ['\\', 't']
  else if c = '\\' then ['\\', '\\']
  else if c = '\"' then ['\\', '\"']
  else [c]

def quote (s : List Char) : List Char := '\"' :: (s.flatMap escape ++ ['\"'])

/-- The character that a backslash and `c` stand for. -/
def escaped? (c : Char) : Option Char :=
  if c = 'n' then some '\n'
  else if c = 'r' then some '\r'
  else if c = 't' then some '\t'
  else if c = '\\' then some '\\'
  else if c = '\"' then some '\"'
  else none

def unescape : List Char → Except QuoteError (List Char)
  | [] => .ok []
  | c :: s =>
    if c = '\\' then
      match s with
      | [] => .error .danglingEscape
      | d :: r =>
        match escaped? d with
        | none => .error (.unknownEscape d)
        | some e => (unescape r).map (e :: ·)
    else (unescape s).map (c :: ·)

/-- The text between a quote at the start and a quote at the end. -/
def unwrap? : List Char → Option (List Char)
  | [] => none
  | c :: s =>
    if c = '\"' then
      match s.getLast? with
      | some d => if d = '\"' then some s.dropLast else none
      | none => none
    else none

/-- Reads a string constant. -/
def unquote (s : List Char) : Except QuoteError (List Char) :=
  match unwrap? s with
  | some inner => unescape inner
  | none => .error (.unquoted s)

end JvmPatch.Text
