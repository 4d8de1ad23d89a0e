import JvmPatch.Script.Command
import JvmPatch.Text.Blank

/-! Reading scripts. A script is read line by line; what has been read so far is the closed blocks
and the block that is open. Blank lines and comments are passed over, but they count. -/

set_option autoImplicit false

namespace JvmPatch

namespace FieldLine

/-- What the words after the descriptor of a field say: the modifiers, and the place of the word
that starts the constant. -/
structure Modifiers where
  isStatic : Bool := false
  isPrivate : Bool := false
  valueAt : Option Nat := none
  deriving DecidableEq, Repr

/-- Reads the words of a field line from the one at `index` on. -/
def modifiersFrom : Nat → List (List Char) → Modifiers → Modifiers
  | _, [], m => m
  | index, w :: ws, m =>
    if Text.sameIgnoringCase w "static".toList then
      modifiersFrom (index + 1) ws { m with isStatic := true }
    else if Text.sameIgnoringCase w "private".toList then
      modifiersFrom (index + 1) ws { m with isPrivate := true }
    else if w = ['='] then { m with valueAt := some (index + 1) }
    else { m with valueAt := some index }

/-- Reads the constant of a field, as its type says. -/
def constant (type : TypeDesc) (text : List Char) : Except ScriptFault Constant :=
  if type.isArray then .error (.constantType type)
  else
    match type.base with
    | .boolean | .byte | .char | .short | .int =>
      match Decimal.readInteger (.signed 32) text with
      | .ok n => .ok (.int (Int32.ofInt n))
      | .error _ => .error (.invalidConstant text)
    | .long =>
      let digits := Pattern.dropSuffix 'l' text
      match Decimal.readInteger (.signed 64) digits with
      | .ok n => .ok (.long (Int64.ofInt n))
      | .error _ => .error (.invalidConstant digits)
    | .float =>
      let digits := Pattern.dropSuffix 'f' text
      match Decimal.BinaryFormat.single.read digits with
      | .ok bits => .ok (.float (UInt32.ofNat bits))
      | .error _ => .error (.invalidConstant digits)
    | .double =>
      let digits := Pattern.dropSuffix 'd' text
      match Decimal.BinaryFormat.double.read digits with
      | .ok bits => .ok (.double (UInt64.ofNat bits))
      | .error _ => .error (.invalidConstant digits)
    | .object name =>
      if name = "java/lang/String" then
        match Text.unquote text with
        | .ok s => .ok (.string (String.ofList s))
        | .error e => .error (.string e)
      else .error (.constantType type)
    | .void => .error (.constantType type)

/-- Reads the constant of a field line, which takes up the rest of the line. -/
def readValue (type : TypeDesc) (c : Command) : Option Nat → Except ScriptFault (Option Constant)
  | none => .ok none
  | some index =>
    let text := Text.trim (c.textFrom index)
    if text.isEmpty then .error .missingConstant else (constant type text).map some

def parse (line : Nat) (c : Command) : Except ScriptFault FieldLine :=
  match c.params with
  | name :: desc :: rest => do
    let type ← (TypeDesc.parseChars desc).mapError .descriptor
    if type = TypeDesc.void then .error .voidField
    else
      let modifiers := modifiersFrom 2 rest {}
      let value ← readValue type c modifiers.valueAt
      pure
        { mode := c.mode
          ident := Ident.ofChars name
          desc := String.ofList desc
          type := type
          isStatic := modifiers.isStatic
          isPrivate := modifiers.isPrivate
          value := value
          line := line }
  | _ => .error (.argumentCount "field")

end FieldLine

namespace MethodBlock

def withModifiers : MethodBlock → List (List Char) → Except ScriptFault MethodBlock
  | m, [] => .ok m
  | m, w :: ws =>
    if Text.sameIgnoringCase w "static".toList then withModifiers { m with isStatic := true } ws
    else if Text.sameIgnoringCase w "private".toList then
      withModifiers { m with isPrivate := true } ws
    else if Text.sameIgnoringCase w "protected".toList then
      withModifiers { m with isProtected := true } ws
    else .error (.unexpected (String.ofList w))

def parseHead (line : Nat) (c : Command) : Except ScriptFault MethodBlock :=
  match c.params with
  | name :: desc :: rest => do
    let type ← (MethodDesc.parseChars desc).mapError .descriptor
    withModifiers
      { mode := c.mode
        ident := Ident.ofChars name
        desc := String.ofList desc
        type := type
        isStatic := false
        isPrivate := false
        isProtected := false
        insns := []
        line := line }
      rest
  | _ => .error (.argumentCount "method")

end MethodBlock

namespace InsnLine

/-- Builds the line of an instruction from its command and the lines of a switch. What is added
has to be an instruction, and what is removed has to be in the method. -/
def ofCommand (line : Nat) (raw : List Char) (c : Command) (kind : PatternKind)
    (lines : List (List Char)) : Except ScriptFault InsnLine := do
  let pattern ← (Pattern.compile kind c.params (c.textFrom 0) lines).mapError .operand
  match c.mode with
  | .add => pattern.checkAddable.mapError .notAddable
  | .remove =>
    if pattern = .any ∨ pattern.isLabel then .error (.notRemovable c.nameText) else pure ()
  | .keep => pure ()
  pure ⟨c.mode, kind, pattern, line, String.ofList raw⟩

end InsnLine

namespace Script

/-- A switch whose last line has not been read. -/
structure OpenSwitch where
  line : Nat
  raw : List Char
  command : Command
  kind : PatternKind
  lines : List (List Char)
  deriving DecidableEq, Repr

/-- The line that closes a switch. It repeats the name as it was written, up to case. -/
def OpenSwitch.closing (s : OpenSwitch) : List Char :=
  s.command.mode.mark :: ("end-".toList ++ s.command.name)

/-- The innermost block that is open, with the blocks around it. -/
inductive OpenBlock
  | none
  | inClass (c : ClassBlock)
  | inMethod (c : ClassBlock) (m : MethodBlock)
  | inSwitch (c : ClassBlock) (m : MethodBlock) (s : OpenSwitch)
  deriving DecidableEq, Repr

structure Reading where
  classes : List ClassBlock := []
  block : OpenBlock := .none
  deriving DecidableEq, Repr

/-- The word that closes a class block. -/
def endOfClass (kind : ClassKind) : String := "end-" ++ kind.keyword

/-- Checks the mode of a line inside a block. -/
def checkNested (outer inner : Mode) (what : String) : Except ScriptFault Unit :=
  if outer ≠ .keep ∧ inner ≠ outer then .error (.nestedMode outer what) else .ok ()

def openClass (line : Nat) (raw : List Char) : Except ScriptFault ClassBlock := do
  let c ← Command.parse raw
  match ClassKind.ofKeyword? c.nameText with
  | none => .error (.unexpected c.nameText)
  | some kind =>
    match c.params with
    | [name] =>
      pure
        { mode := c.mode
          kind := kind
          ident := Ident.ofChars name
          line := line
          supers := []
          interfaces := []
          fields := []
          methods := [] }
    | _ => .error (.argumentCount kind.keyword)

def supertypeLine (c : Command) : Except ScriptFault SupertypeLine :=
  match c.params with
  | [name] => .ok ⟨c.mode, Ident.ofChars name⟩
  | _ => .error (.argumentCount c.nameText)

def classLine (r : Reading) (block : ClassBlock) (line : Nat) (raw : List Char) :
    Except ScriptFault Reading := do
  let c ← Command.parse raw
  checkNested block.mode c.mode "classes"
  let name := c.nameText
  if name = endOfClass block.kind then
    pure { classes := r.classes ++ [block], block := .none }
  else if name = "super" then
    let s ← supertypeLine c
    pure { r with block := .inClass { block with supers := block.supers ++ [s] } }
  else if name = "interface" then
    let s ← supertypeLine c
    pure { r with block := .inClass { block with interfaces := block.interfaces ++ [s] } }
  else if name = "field" then
    let f ← FieldLine.parse line c
    pure { r with block := .inClass { block with fields := block.fields ++ [f] } }
  else if name = "method" then
    let m ← MethodBlock.parseHead line c
    pure { r with block := .inMethod block m }
  else .error (.unexpected name)

def methodLine (r : Reading) (block : ClassBlock) (m : MethodBlock) (line : Nat)
    (raw : List Char) : Except ScriptFault Reading := do
  let c ← Command.parse raw
  checkNested m.mode c.mode "methods"
  if c.nameText = "end-method" then
    pure { r with block := .inClass { block with methods := block.methods ++ [m] } }
  else
    match PatternKind.ofName? c.name with
    | none => .error (.unknownInstruction c.nameText)
    | some kind =>
      if kind.takesLines then
        pure { r with block := .inSwitch block m ⟨line, raw, c, kind, []⟩ }
      else
        let insn ← InsnLine.ofCommand line raw c kind []
        pure { r with block := .inMethod block { m with insns := m.insns ++ [insn] } }

/-- Reads a line inside a switch. Faults of a switch show at its first line. -/
def switchLine (r : Reading) (block : ClassBlock) (m : MethodBlock) (s : OpenSwitch)
    (raw : List Char) : Except ScriptError Reading :=
  if Text.sameIgnoringCase raw s.closing then
    match InsnLine.ofCommand s.line s.raw s.command s.kind s.lines with
    | .error fault => .error ⟨s.line, fault⟩
    | .ok insn => .ok { r with block := .inMethod block { m with insns := m.insns ++ [insn] } }
  else .ok { r with block := .inSwitch block m { s with lines := s.lines ++ [raw] } }

def isPassedOver : List Char → Bool
  | [] => true
  | '/' :: '/' :: _ => true
  | _ => false

/-- Reads a trimmed line that is not passed over. -/
def significantLine (r : Reading) (line : Nat) (raw : List Char) : Except ScriptError Reading :=
  let located := fun (x : Except ScriptFault Reading) => x.mapError (ScriptError.mk line)
  match r.block with
  | .none => located ((openClass line raw).map fun c => { r with block := .inClass c })
  | .inClass c => located (classLine r c line raw)
  | .inMethod c m => located (methodLine r c m line raw)
  | .inSwitch c m s => switchLine r c m s raw

/-- Reads lines, the first of which has the number `line + 1`. -/
def readLines : Reading → Nat → List (List Char) → Except ScriptError Reading
  | r, _, [] => .ok r
  | r, line, l :: ls =>
    let raw := Text.trim l
    if isPassedOver raw then readLines r (line + 1) ls
    else
      match significantLine r (line + 1) raw with
      | .error e => .error e
      | .ok r => readLines r (line + 1) ls

/-- The line that would close the innermost block. -/
def missingEnd? : OpenBlock → Option String
  | .none => none
  | .inClass c => some (String.ofList [c.mode.mark] ++ endOfClass c.kind)
  | .inMethod _ m => some (String.ofList [m.mode.mark] ++ "end-method")
  | .inSwitch _ _ s => some (String.ofList s.closing)

/-- Reads a script. A block that is still open at the end is reported at the last line. -/
def parse (text : String) : Except ScriptError Script :=
  let lines := Text.lines text.toList
  match readLines {} 0 lines with
  | .error e => .error e
  | .ok r =>
    match missingEnd? r.block with
    | some closing => .error ⟨lines.length, .missingEnd closing⟩
    | none => .ok ⟨r.classes⟩

end Script

end JvmPatch
