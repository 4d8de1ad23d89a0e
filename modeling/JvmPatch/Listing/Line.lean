import JvmPatch.Listing.Labels
import JvmPatch.Pattern.Mnemonic
import JvmPatch.Descriptor.Basic
import JvmPatch.Text.Quoted

/-! Instructions and exception regions as lines of scripts. -/

set_option autoImplicit false

namespace JvmPatch

/-- What a listing shows for an instruction, without the mark of its mode. -/
structure ListedInsn where
  line : String
  /-- The lines of a switch. -/
  lines : List String := []
  /-- The name of the line that closes a switch. -/
  closing : Option String := none
  /-- Scripts cannot express the instruction, so it is shown as a comment. -/
  isComment : Bool := false
  deriving DecidableEq, Repr

namespace ListedInsn

/-- An instruction that scripts cannot express. -/
def unsupported (detail : String) : ListedInsn :=
  { line := "unsupported " ++ detail, isComment := true }

/-- A line of words, the first of which is the mnemonic of a kind. -/
def ofKind (kind : PatternKind) (operands : List String) : Option ListedInsn :=
  kind.name?.map fun name => { line := " ".intercalate (name :: operands) }

/-- A string constant as a script writes it. -/
def quoted (s : String) : String := String.ofList (Text.quote s.toList)

/-- The line for an instruction that pushes a constant. -/
def ofConstant : Constant → String
  | .int value => "push-int " ++ intText value
  | .long value => "push-long " ++ longText value
  | .float bits => "push-float " ++ floatText bits
  | .double bits => "push-double " ++ doubleText bits
  | .string value => "push-string " ++ quoted value
  | .classRef name => "push-class " ++ name

/-- The element type of an array of references, from the operand of its instruction. -/
def elementType (operand : String) : String :=
  if operand.toList.head? = some '[' then operand else "L" ++ operand ++ ";"

/-- What a listing shows for an instruction. Line markers and labels without a name are not
shown. -/
def ofInsn (names : LabelNames) : Insn → Option ListedInsn
  | .line _ => none
  | .label l => (names.name? l).map fun name => { line := "label ~" ++ name }
  | .simple op =>
    if op.isReturn then some { line := "return" }
    else
      match ofKind (.single op) [] with
      | some listed => some listed
      | none => some (unsupported ("opcode 0x" ++ op.hex))
  | .push value => some { line := ofConstant value }
  | .var op index => ofKind (.var op) [toString index.toNat]
  | .iinc index delta =>
    some { line := "inc-int " ++ toString index.toNat ++ " " ++ toString delta.toInt }
  | .field op owner name desc => ofKind (.field op) [owner, name, desc]
  | .invoke op owner name desc _ => ofKind (.invoke op) [owner, name, desc]
  | .type op className =>
    if op = Opcode.anewarray then some { line := "new-array " ++ elementType className }
    else ofKind (.type op) [className]
  | .newArray code =>
    match TypeDesc.ofArrayCode? code with
    | some ty => some { line := "new-array " ++ ty.text }
    | none => some (unsupported ("newarray type " ++ toString code.toNat))
  | .multiNewArray desc dims =>
    some { line := "new-array-multi " ++ desc ++ " " ++ toString dims.toNat }
  | .jump op target => ofKind (.jump op) [names.operand target]
  | .tableSwitch low high default targets =>
    some
      { line := " ".intercalate
          ["switch-table", intText low, intText high, names.operand default]
        lines := targets.map names.operand
        closing := some "switch-table" }
  | .lookupSwitch default pairs =>
    some
      { line := "switch-lookup " ++ names.operand default
        lines := pairs.map fun p => intText p.1 ++ ":" ++ names.operand p.2
        closing := some "switch-lookup" }
  | .foreign _ detail => some (unsupported detail)

end ListedInsn

def Region.listed (names : LabelNames) (r : Region) : String :=
  " ".intercalate ["try-catch", names.operand r.start, names.operand r.stop,
    names.operand r.handler, r.catchType.getD "null"]

end JvmPatch
