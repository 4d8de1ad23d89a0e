import JvmPatch.Descriptor.Basic

/-! Reading descriptors. A reader takes the longest start of a text that is a descriptor, and what
is left over afterwards is an error. -/

set_option autoImplicit false

namespace JvmPatch

inductive DescriptorError
  | endOfInput
  | tooManyDimensions
  | missingSemicolon
  | unrecognizedType
  /-- A closing parenthesis stands where a type is expected. -/
  | closingForType
  /-- A closing parenthesis follows the dimensions of an array. -/
  | closingForElement
  | missingParameters
  | missingResult
  | voidParameter
  /-- Characters follow the descriptor. -/
  | extra (rest : List Char)
  deriving DecidableEq, Repr

def DescriptorError.message : DescriptorError → String
  | .endOfInput => "Unexpected end of input."
  | .tooManyDimensions => "Array has too many dimensions."
  | .missingSemicolon => "Invalid descriptor: Missing semicolon in class name descriptor."
  | .unrecognizedType => "Invalid descriptor: Unrecognized type descriptor."
  | .closingForType => "Invalid descriptor: Invalid descriptor"
  | .closingForElement => "Invalid descriptor: Invalid descriptor."
  | .missingParameters => "Invalid descriptor: Method descriptor must start with '('."
  | .missingResult => "Invalid descriptor: Missing return type."
  | .voidParameter => "void parameter type"
  | .extra rest => "Extra characters found '" ++ String.ofList rest ++ "'"

/-- The text up to the first semicolon and the text after it. -/
def splitSemicolon? : List Char → Option (List Char × List Char)
  | [] => none
  | c :: s =>
    if c = ';' then some ([], s) else (splitSemicolon? s).map fun r => (c :: r.1, r.2)

/-- The primitive type or void with a given letter. -/
def BaseType.ofLetter? (c : Char) : Option BaseType :=
  if c = 'B' then some .byte
  else if c = 'C' then some .char
  else if c = 'D' then some .double
  else if c = 'F' then some .float
  else if c = 'I' then some .int
  else if c = 'J' then some .long
  else if c = 'S' then some .short
  else if c = 'Z' then some .boolean
  else if c = 'V' then some .void
  else none

/-- Reads a base type at the start of a text, after `dims` dimensions. -/
def BaseType.readStart (dims : Nat) : List Char → Except DescriptorError (BaseType × List Char)
  | [] => .error .endOfInput
  | c :: s =>
    if c = 'L' then
      match splitSemicolon? s with
      | some (name, rest) => .ok (.object (String.ofList name), rest)
      | none => .error .missingSemicolon
    else if c = ')' then .error (if dims = 0 then .closingForType else .closingForElement)
    else
      match BaseType.ofLetter? c with
      | some b => .ok (b, s)
      | none => .error .unrecognizedType

/-- Reads a type at the start of a text, of which `dims` dimensions have been read. -/
def TypeDesc.readStartFrom (dims : Nat) : List Char → Except DescriptorError (TypeDesc × List Char)
  | '[' :: s => if dims < 255 then readStartFrom (dims + 1) s else .error .tooManyDimensions
  | s =>
    match BaseType.readStart dims s with
    | .ok (b, rest) => .ok (⟨UInt8.ofNat dims, b⟩, rest)
    | .error e => .error e

def TypeDesc.readStart (s : List Char) : Except DescriptorError (TypeDesc × List Char) :=
  readStartFrom 0 s

/-- Reads the parameters of a method type and the parenthesis after them. Each takes at least one
character, so the length of the text bounds their number. -/
def MethodDesc.readParams : Nat → List Char → Except DescriptorError (List TypeDesc × List Char)
  | 0, _ => .error .endOfInput
  | _ + 1, [] => .error .endOfInput
  | n + 1, c :: s =>
    if c = ')' then .ok ([], s)
    else
      match TypeDesc.readStart (c :: s) with
      | .error e => .error e
      | .ok (t, rest) =>
        match readParams n rest with
        | .error e => .error e
        | .ok (ts, rest) => .ok (t :: ts, rest)

def MethodDesc.readResult : List Char → Except DescriptorError (TypeDesc × List Char)
  | ')' :: _ => .error .missingResult
  | s => TypeDesc.readStart s

def MethodDesc.readStart : List Char → Except DescriptorError (MethodDesc × List Char)
  | '(' :: s =>
    match readParams s.length s with
    | .error e => .error e
    | .ok (params, rest) =>
      match readResult rest with
      | .error e => .error e
      | .ok (result, rest) => .ok (⟨params, result⟩, rest)
  | _ => .error .missingParameters

def TypeDesc.parseChars (s : List Char) : Except DescriptorError TypeDesc :=
  match readStart s with
  | .error e => .error e
  | .ok (t, rest) => if rest.isEmpty then .ok t else .error (.extra rest)

/-- Reads a method type. Its parameters are not void. -/
def MethodDesc.parseChars (s : List Char) : Except DescriptorError MethodDesc :=
  match readStart s with
  | .error e => .error e
  | .ok (m, rest) =>
    if m.params.contains TypeDesc.void then .error .voidParameter
    else if rest.isEmpty then .ok m
    else .error (.extra rest)

def TypeDesc.parse (s : String) : Except DescriptorError TypeDesc := parseChars s.toList

def MethodDesc.parse (s : String) : Except DescriptorError MethodDesc := parseChars s.toList

/-- A text that is not the descriptor of a method, where it has to be one. -/
structure MalformedMethodDesc where
  desc : String
  cause : DescriptorError
  deriving DecidableEq, Repr

def MalformedMethodDesc.message (e : MalformedMethodDesc) : String :=
  "parse method descriptor " ++ e.desc ++ ": " ++ e.cause.message

/-- Reads the descriptor of a method type, and blames the text for an error. -/
def MethodDesc.require (s : String) : Except MalformedMethodDesc MethodDesc :=
  (MethodDesc.parse s).mapError (MalformedMethodDesc.mk s)

/-- Reads the operand of a class instruction: the descriptor of an array, or the plain name of a
class. -/
def TypeDesc.parseOperand (s : String) : Except DescriptorError TypeDesc :=
  match s.toList with
  | '[' :: _ => parse s
  | name => parseChars ('L' :: (name ++ [';']))

end JvmPatch
