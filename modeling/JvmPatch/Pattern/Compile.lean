import JvmPatch.Decimal.Reading
import JvmPatch.Descriptor.Parser
import JvmPatch.Pattern.Basic
import JvmPatch.Pattern.Mnemonic
import JvmPatch.Text.Blank
import JvmPatch.Text.Quoted

/-! Building a pattern from its mnemonic and the words and lines that follow it. -/

set_option autoImplicit false

namespace JvmPatch

/-- Why the operands of a pattern are refused. -/
inductive OperandError
  | argumentCount (what : String) (expected found : Nat)
  | integer (token : List Char) (cause : Decimal.IntegerError)
  | float (token : List Char) (cause : Decimal.FloatError)
  /-- Labels have to be weak names. -/
  | strongLabel (token : List Char)
  /-- A line of a lookup switch lacks the colon between key and label. -/
  | notACase (line : List Char)
  | descriptor (cause : DescriptorError)
  | voidElement (token : List Char)
  | string (cause : Text.QuoteError)
  deriving DecidableEq, Repr

def inApostrophes (s : List Char) : String := "'" ++ String.ofList s ++ "'"

def OperandError.message : OperandError → String
  | .argumentCount what expected found =>
    s!"Incorrect number of arguments for {what}: expected {expected}, found {found}"
  | .integer token cause => "Invalid number " ++ inApostrophes token ++ ": " ++ cause.message
  | .float token cause => "Invalid number " ++ inApostrophes token ++ ": " ++ cause.message
  | .strongLabel token => "Non-weak label " ++ String.ofList token
  | .notACase line => "Expected key:label, found " ++ inApostrophes line
  | .descriptor cause => cause.message
  | .voidElement token => "Invalid type for new-array " ++ String.ofList token
  | .string cause => cause.message

namespace Pattern

/-- A word that is the star is any value, and another word is read as one value. -/
def orAny {α : Type} (read : List Char → Except OperandError α) (token : List Char) :
    Except OperandError (Operand α) :=
  if token = ['*'] then .ok .any else (read token).map .is

def integer (range : Decimal.IntegerRange) (token : List Char) : Except OperandError Int :=
  (Decimal.readInteger range token).mapError (.integer token)

/-- Reads a signed 32-bit integer. -/
def int32 (token : List Char) : Except OperandError (Operand Int32) :=
  orAny (fun t => (integer (.signed 32) t).map Int32.ofInt) token

/-- Reads a signed 64-bit integer. -/
def int64 (token : List Char) : Except OperandError (Operand Int64) :=
  orAny (fun t => (integer (.signed 64) t).map Int64.ofInt) token

/-- Reads a signed 16-bit integer. -/
def int16 (token : List Char) : Except OperandError (Operand Int16) :=
  orAny (fun t => (integer (.signed 16) t).map Int16.ofInt) token

/-- Reads an unsigned 16-bit integer. -/
def uint16 (token : List Char) : Except OperandError (Operand UInt16) :=
  orAny (fun t => (integer (.unsigned 16) t).map fun n => UInt16.ofNat n.toNat) token

/-- Reads an unsigned 8-bit integer. -/
def uint8 (token : List Char) : Except OperandError (Operand UInt8) :=
  orAny (fun t => (integer (.unsigned 8) t).map fun n => UInt8.ofNat n.toNat) token

/-- Reads a single precision number. -/
def single32 (token : List Char) : Except OperandError (Operand UInt32) :=
  orAny
    (fun t => ((Decimal.BinaryFormat.single.read t).map UInt32.ofNat).mapError (.float t)) token

/-- Reads a double precision number. -/
def double64 (token : List Char) : Except OperandError (Operand UInt64) :=
  orAny
    (fun t => ((Decimal.BinaryFormat.double.read t).map UInt64.ofNat).mapError (.float t)) token

/-- Drops a letter in either case, any number of times, from the end of a word. -/
def dropSuffix (small : Char) (token : List Char) : List Char :=
  (token.reverse.dropWhile fun c => Text.lowerAscii c == small).reverse

def labelRef (token : List Char) : Except OperandError LabelRef :=
  match token with
  | ['*'] => .ok .any
  | '~' :: name => .ok (.weak (String.ofList name))
  | _ => .error (.strongLabel token)

def typeDesc (token : List Char) : Except OperandError TypeDesc :=
  (TypeDesc.parseChars token).mapError .descriptor

def methodDesc (token : List Char) : Except OperandError MethodDesc :=
  (MethodDesc.parseChars token).mapError .descriptor

def classOperand (token : List Char) : Except OperandError TypeDesc :=
  (TypeDesc.parseOperand (String.ofList token)).mapError .descriptor

def elementType (token : List Char) : Except OperandError TypeDesc := do
  let t ← typeDesc token
  if t = TypeDesc.void then .error (.voidElement token) else pure t

/-- Reads a string constant, which is the rest of its line. -/
def stringOperand (text : List Char) : Except OperandError (Operand String) :=
  orAny (fun t => ((Text.unquote t).map String.ofList).mapError .string) (Text.trim text)

/-- The text before the first colon and the text after it. -/
def splitColon? : List Char → Option (List Char × List Char)
  | [] => none
  | c :: s => if c = ':' then some ([], s) else (splitColon? s).map fun r => (c :: r.1, r.2)

def switchCase (line : List Char) : Except OperandError (Operand Int32 × LabelRef) :=
  match splitColon? line with
  | none => .error (.notACase line)
  | some (key, target) => do
    let key ← int32 (Text.trim key)
    let target ← labelRef (Text.trim target)
    pure (key, target)

/-- Reads the catch type of an exception region. -/
def catchType (token : List Char) : Except OperandError (Option TypeDesc) :=
  if token = "null".toList then .ok none else (classOperand token).map some

/-- Builds a pattern of a kind from the words after the mnemonic, the text that starts with the
first of them, and the lines that belong to a switch. -/
def compile (kind : PatternKind) (params : List (List Char)) (text : List Char)
    (lines : List (List Char)) : Except OperandError Pattern :=
  let wrong := fun (what : String) (expected : Nat) =>
    Except.error (OperandError.argumentCount what expected params.length)
  let name := kind.name?.getD "instruction"
  match kind, params with
  | .any, [] => .ok .any
  | .any, _ => wrong "any" 0
  | .label, [l] => do pure (.label (← labelRef l))
  | .label, _ => wrong "label" 1
  | .single op, [] => .ok (.single op)
  | .single _, _ => wrong name 0
  | .pushInt, [n] => do pure (.pushInt (← int32 n))
  | .pushInt, _ => wrong "push-int" 1
  | .pushLong, [n] => do pure (.pushLong (← int64 (dropSuffix 'l' n)))
  | .pushLong, _ => wrong "push-long" 1
  | .pushFloat, [n] => do pure (.pushFloat (← single32 (dropSuffix 'f' n)))
  | .pushFloat, _ => wrong "push-float" 1
  | .pushDouble, [n] => do pure (.pushDouble (← double64 (dropSuffix 'd' n)))
  | .pushDouble, _ => wrong "push-double" 1
  | .pushString, _ => do pure (.pushString (← stringOperand text))
  | .pushClass, [t] => do pure (.pushClass (← orAny classOperand t))
  | .pushClass, _ => wrong "push-class" 1
  | .var op, [n] => do pure (.var op (← uint16 n))
  | .var _, _ => wrong name 1
  | .incInt, [n, d] => do pure (.incInt (← uint16 n) (← int16 d))
  | .incInt, _ => wrong "inc-int" 2
  | .jump op, [l] => do pure (.jump op (← labelRef l))
  | .jump _, _ => wrong name 1
  | .switchTable, [low, high, default] => do
    pure (.tableSwitch (← int32 low) (← int32 high) (← labelRef default)
      (← lines.mapM fun l => labelRef (Text.trim l)))
  | .switchTable, _ => wrong "switch-table" 3
  | .switchLookup, [default] => do
    let cases ← lines.mapM switchCase
    pure (.lookupSwitch (← labelRef default) cases)
  | .switchLookup, _ => wrong "switch-lookup" 1
  | .tryCatch, [start, stop, handler, ty] => do
    let ty ← catchType ty
    pure (.tryCatch (← labelRef start) (← labelRef stop) (← labelRef handler) ty)
  | .tryCatch, _ => wrong "try-catch" 4
  | .ret, [] => .ok .ret
  | .ret, _ => wrong "return" 0
  | .field op, [owner, name, desc] => do
    pure (.field op (Ident.ofChars owner) (Ident.ofChars name) (← typeDesc desc)
      (String.ofList desc))
  | .field _, _ => wrong "field instruction" 3
  | .invoke op, [owner, name, desc] => do
    pure (.invoke op (Ident.ofChars owner) (Ident.ofChars name) (← methodDesc desc)
      (String.ofList desc))
  | .invoke _, _ => wrong "invoke instruction" 3
  | .type op, [t] => do pure (.type op (← orAny classOperand t))
  | .type _, _ => wrong name 1
  | .newArray, [t] => do pure (.newArray (← orAny elementType t))
  | .newArray, _ => wrong "new-array" 1
  | .newArrayMulti, [t, n] => do
    let ty ← orAny typeDesc t
    pure (.newArrayMulti ty (← uint8 n))
  | .newArrayMulti, _ => wrong "new-array-multi" 2

end Pattern

end JvmPatch
