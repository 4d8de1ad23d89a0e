import JvmPatch.Script.Error

/-! A line of a script, split into its mode, its name and the words after the name. -/

set_option autoImplicit false

namespace JvmPatch

/-- A line of a script. The name has small letters only. -/
structure Command where
  mode : Mode
  name : List Char
  args : List Text.Word
  deriving DecidableEq, Repr

namespace Command

/-- Splits a line. The name follows the mark without a blank. -/
def parse : List Char → Except ScriptFault Command
  | [] => .error .emptyLine
  | c :: s =>
    match Mode.ofMark? c with
    | none => .error (.unknownMode c)
    | some mode =>
      match s with
      | [] => .error .missingName
      | d :: _ =>
        if Text.isBlank d then .error .missingName
        else
          match Text.words s with
          | [] => .error .missingName
          | name :: args => .ok ⟨mode, name.chars.map Text.lowerAscii, args⟩

def nameText (c : Command) : String := String.ofList c.name

/-- The words after the name. -/
def params (c : Command) : List (List Char) := c.args.map Text.Word.chars

/-- The text from a word to the end of the line, empty if there are fewer words. -/
def textFrom (c : Command) (index : Nat) : List Char :=
  match c.args[index]? with
  | some w => w.tail
  | none => []

end Command

end JvmPatch
