import JvmPatch.Insn.Basic
import JvmPatch.Text.Invisible

/-! The form in which messages show an instruction: the name of its kind and its operands. -/

set_option autoImplicit false

namespace JvmPatch

/-- A character within double quotes in a message. -/
def dumpChar (c : Char) : List Char :=
  if c = '\n' then ['\\', 'n']
  else if c = '\r' then ['\\', 'r']
  else if c = '\t' then ['\\', 't']
  else if c = '\\' then ['\\', '\\']
  else if c = '\"' then ['\\', '\"']
  else if c.toNat = 0 then ['\\', '0']
  else if Text.isInvisible c then
    '\\' :: 'u' :: '\x7b' :: (Nat.toDigits 16 c.toNat ++ ['\x7d'])
  else [c]

/-- A string within double quotes in a message. -/
def dumpString (s : String) : String :=
  String.ofList ('\"' :: (s.toList.flatMap dumpChar ++ ['\"']))

def dumpUnary (kind operand : String) : String := kind ++ "(" ++ operand ++ ")"

def dumpRecord (kind : String) (fields : List (String × String)) : String :=
  kind ++ " \x7b " ++ ", ".intercalate (fields.map fun f => f.1 ++ ": " ++ f.2) ++ " \x7d"

def dumpList (items : List String) : String := "[" ++ ", ".intercalate items ++ "]"

def Constant.dump : Constant → String
  | .int value => dumpUnary "Int" (intText value)
  | .long value => dumpUnary "Long" (longText value)
  | .float bits => dumpUnary "Float" (floatText bits)
  | .double bits => dumpUnary "Double" (doubleText bits)
  | .string value => dumpUnary "String" (dumpString value)
  | .classRef name => dumpUnary "Class" (dumpString name)

def Label.dump (l : Label) : String := dumpUnary "LabelId" (toString l.index)

def Insn.dump : Insn → String
  | .label l => dumpUnary "Label" l.dump
  | .line number => dumpUnary "Line" (toString number.toNat)
  | .simple op => dumpUnary "Simple" (toString op.toNat)
  | .push value => dumpUnary "Push" value.dump
  | .var op index =>
    dumpRecord "Var" [("opcode", toString op.toNat), ("index", toString index.toNat)]
  | .iinc index delta =>
    dumpRecord "Iinc" [("index", toString index.toNat), ("delta", toString delta.toInt)]
  | .field op owner name desc =>
    dumpRecord "Field" [("opcode", toString op.toNat), ("owner", dumpString owner),
      ("name", dumpString name), ("descriptor", dumpString desc)]
  | .invoke op owner name desc isInterface =>
    dumpRecord "Invoke" [("opcode", toString op.toNat), ("owner", dumpString owner),
      ("name", dumpString name), ("descriptor", dumpString desc),
      ("interface", toString isInterface)]
  | .type op className =>
    dumpRecord "Type" [("opcode", toString op.toNat), ("class", dumpString className)]
  | .newArray code => dumpUnary "NewArray" (toString code.toNat)
  | .multiNewArray desc dims =>
    dumpRecord "MultiNewArray" [("descriptor", dumpString desc), ("dims", toString dims.toNat)]
  | .jump op target => dumpRecord "Jump" [("opcode", toString op.toNat), ("target", target.dump)]
  | .tableSwitch low high default targets =>
    dumpRecord "TableSwitch" [("low", intText low), ("high", intText high),
      ("default", default.dump), ("targets", dumpList (targets.map Label.dump))]
  | .lookupSwitch default pairs =>
    dumpRecord "LookupSwitch" [("default", default.dump),
      ("pairs", dumpList (pairs.map fun p => "(" ++ intText p.1 ++ ", " ++ p.2.dump ++ ")"))]
  | .foreign op detail =>
    dumpRecord "Opaque" [("opcode", toString op.toNat), ("detail", dumpString detail)]

end JvmPatch
