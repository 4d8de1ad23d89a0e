import JvmPatch.Pattern.Compile
import JvmPatch.Script.Basic

/-! What can be wrong with a script. -/

set_option autoImplicit false

namespace JvmPatch

/-- Why a line of a script is refused. -/
inductive ScriptFault
  | emptyLine
  | unknownMode (c : Char)
  | missingName
  /-- A line that has no place where it stands. -/
  | unexpected (word : String)
  | argumentCount (keyword : String)
  /-- The text ends before the line that closes a block. -/
  | missingEnd (line : String)
  /-- Everything inside an added or removed block has to have the mode of the block. -/
  | nestedMode (outer : Mode) (what : String)
  | descriptor (cause : DescriptorError)
  | voidField
  | missingConstant
  | invalidConstant (text : List Char)
  | string (cause : Text.QuoteError)
  | constantType (type : TypeDesc)
  | unknownInstruction (name : String)
  | operand (cause : OperandError)
  | notAddable (cause : AddError)
  | notRemovable (name : String)
  deriving DecidableEq, Repr

def ScriptFault.message : ScriptFault → String
  | .emptyLine => "empty line"
  | .unknownMode c =>
    "Unknown mode " ++ inApostrophes [c] ++ ", expected one of '.', '+', '-'"
  | .missingName => "Missing command name"
  | .unexpected word => "Unexpected " ++ word
  | .argumentCount keyword => "Incorrect number of arguments for " ++ keyword
  | .missingEnd line => "Missing " ++ line
  | .nestedMode outer what =>
    let state := if outer = .add then "added " else "removed "
    "In " ++ state ++ what ++ " everything must be " ++ String.ofList [outer.mark]
  | .descriptor cause => cause.message
  | .voidField => "Fields cannot be void"
  | .missingConstant => "Missing constant value"
  | .invalidConstant text => "Invalid constant " ++ inApostrophes text ++ " for field type"
  | .string cause => cause.message
  | .constantType type => "Constant values are not supported for " ++ type.text
  | .unknownInstruction name => "Unknown instruction " ++ name
  | .operand cause => cause.message
  | .notAddable cause => cause.message
  | .notRemovable name => name ++ " cannot be removed"

/-- A fault and the line at which it shows. -/
structure ScriptError where
  line : Nat
  fault : ScriptFault
  deriving DecidableEq, Repr

def atLine (line : Nat) (message : String) : String := "line " ++ toString line ++ ": " ++ message

def ScriptError.message (e : ScriptError) : String := atLine e.line e.fault.message

end JvmPatch
