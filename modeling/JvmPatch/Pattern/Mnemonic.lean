import JvmPatch.Opcode

/-! The mnemonics of scripts. Each names a kind of pattern. -/

set_option autoImplicit false

namespace JvmPatch

/-- A kind of pattern, with the code of the instructions that it is for where one kind serves
several. -/
inductive PatternKind
  | any
  | label
  | pushInt
  | pushLong
  | pushFloat
  | pushDouble
  | pushString
  | pushClass
  | single (op : Opcode)
  | var (op : Opcode)
  | incInt
  | jump (op : Opcode)
  | switchTable
  | switchLookup
  | tryCatch
  | ret
  | field (op : Opcode)
  | invoke (op : Opcode)
  | type (op : Opcode)
  | newArray
  | newArrayMulti
  deriving DecidableEq, Repr

namespace PatternKind

def mnemonics : List (String × PatternKind) :=
  [("any", .any), ("label", .label), ("nop", .single Opcode.nop),
    ("push-null", .single Opcode.aconstNull), ("push-int", .pushInt), ("push-long", .pushLong),
    ("push-float", .pushFloat), ("push-double", .pushDouble), ("try-catch", .tryCatch),
    ("push-string", .pushString), ("push-class", .pushClass),
    ("load-int", .var Opcode.iload), ("load-long", .var Opcode.lload),
    ("load-float", .var Opcode.fload), ("load-double", .var Opcode.dload),
    ("load-object", .var Opcode.aload),
    ("array-load-int", .single Opcode.iaload), ("array-load-long", .single Opcode.laload),
    ("array-load-float", .single Opcode.faload), ("array-load-double", .single Opcode.daload),
    ("array-load-object", .single Opcode.aaload), ("array-load-byte", .single Opcode.baload),
    ("array-load-char", .single Opcode.caload), ("array-load-short", .single Opcode.saload),
    ("store-int", .var Opcode.istore), ("store-long", .var Opcode.lstore),
    ("store-float", .var Opcode.fstore), ("store-double", .var Opcode.dstore),
    ("store-object", .var Opcode.astore),
    ("array-store-int", .single Opcode.iastore), ("array-store-long", .single Opcode.lastore),
    ("array-store-float", .single Opcode.fastore), ("array-store-double", .single Opcode.dastore),
    ("array-store-object", .single Opcode.aastore), ("array-store-byte", .single Opcode.bastore),
    ("array-store-char", .single Opcode.castore), ("array-store-short", .single Opcode.sastore),
    ("pop", .single Opcode.pop), ("pop2", .single Opcode.pop2), ("dup", .single Opcode.dup),
    ("dup-x1", .single Opcode.dupX1), ("dup-x2", .single Opcode.dupX2),
    ("dup2", .single Opcode.dup2), ("dup2-x1", .single Opcode.dup2X1),
    ("dup2-x2", .single Opcode.dup2X2), ("swap", .single Opcode.swap),
    ("add-int", .single 0x60), ("add-long", .single 0x61), ("add-float", .single 0x62),
    ("add-double", .single 0x63), ("sub-int", .single 0x64), ("sub-long", .single 0x65),
    ("sub-float", .single 0x66), ("sub-double", .single 0x67), ("mul-int", .single 0x68),
    ("mul-long", .single 0x69), ("mul-float", .single 0x6a), ("mul-double", .single 0x6b),
    ("div-int", .single 0x6c), ("div-long", .single 0x6d), ("div-float", .single 0x6e),
    ("div-double", .single 0x6f), ("rem-int", .single 0x70), ("rem-long", .single 0x71),
    ("rem-float", .single 0x72), ("rem-double", .single 0x73),
    ("neg-int", .single Opcode.ineg), ("neg-long", .single Opcode.lneg),
    ("neg-float", .single Opcode.fneg), ("neg-double", .single Opcode.dneg),
    ("shift-left-int", .single Opcode.ishl), ("shift-left-long", .single Opcode.lshl),
    ("shift-right-int", .single Opcode.ishr), ("shift-right-long", .single Opcode.lshr),
    ("ushift-right-int", .single Opcode.iushr), ("ushift-right-long", .single Opcode.lushr),
    ("and-int", .single Opcode.iand), ("and-long", .single Opcode.land),
    ("or-int", .single Opcode.ior), ("or-long", .single Opcode.lor),
    ("xor-int", .single Opcode.ixor), ("xor-long", .single Opcode.lxor),
    ("inc-int", .incInt),
    ("convert-int-long", .single Opcode.i2l), ("convert-int-float", .single Opcode.i2f),
    ("convert-int-double", .single Opcode.i2d), ("convert-long-int", .single Opcode.l2i),
    ("convert-long-float", .single Opcode.l2f), ("convert-long-double", .single Opcode.l2d),
    ("convert-float-int", .single Opcode.f2i), ("convert-float-long", .single Opcode.f2l),
    ("convert-float-double", .single Opcode.f2d), ("convert-double-int", .single Opcode.d2i),
    ("convert-double-long", .single Opcode.d2l), ("convert-double-float", .single Opcode.d2f),
    ("convert-int-byte", .single Opcode.i2b), ("convert-int-char", .single Opcode.i2c),
    ("convert-int-short", .single Opcode.i2s),
    ("compare-long", .single Opcode.lcmp), ("compare-float", .single Opcode.fcmpl),
    ("compare-float-inv", .single Opcode.fcmpg), ("compare-double", .single Opcode.dcmpl),
    ("compare-double-inv", .single Opcode.dcmpg),
    ("if-zero", .jump 0x99), ("if-not-zero", .jump 0x9a), ("if-less-zero", .jump 0x9b),
    ("if-greater-equal-zero", .jump 0x9c), ("if-greater-zero", .jump 0x9d),
    ("if-less-equal-zero", .jump 0x9e), ("if-equal-int", .jump 0x9f),
    ("if-not-equal-int", .jump 0xa0), ("if-less-int", .jump 0xa1),
    ("if-greater-equal-int", .jump 0xa2), ("if-greater-int", .jump 0xa3),
    ("if-less-equal-int", .jump 0xa4), ("if-equal-object", .jump 0xa5),
    ("if-not-equal-object", .jump 0xa6), ("goto", .jump Opcode.goto), ("jsr", .jump Opcode.jsr),
    ("ret", .var Opcode.ret), ("switch-table", .switchTable), ("switch-lookup", .switchLookup),
    ("return", .ret),
    ("get-static", .field Opcode.getstatic), ("put-static", .field Opcode.putstatic),
    ("get-field", .field Opcode.getfield), ("put-field", .field Opcode.putfield),
    ("invoke-virtual", .invoke Opcode.invokevirtual),
    ("invoke-special", .invoke Opcode.invokespecial),
    ("invoke-static", .invoke Opcode.invokestatic),
    ("invoke-interface", .invoke Opcode.invokeinterface),
    ("new", .type Opcode.new), ("new-array", .newArray),
    ("length-array", .single Opcode.arraylength), ("throw", .single Opcode.athrow),
    ("check-cast", .type Opcode.checkcast), ("instance-of", .type Opcode.instanceof),
    ("monitor-enter", .single Opcode.monitorenter), ("monitor-exit", .single Opcode.monitorexit),
    ("new-array-multi", .newArrayMulti), ("if-null", .jump Opcode.ifnull),
    ("if-not-null", .jump Opcode.ifnonnull)]

/-- A mnemonic as it is looked up: small letters, and hyphens for underscores. -/
def normalize (s : List Char) : List Char :=
  s.map fun c =>
    if c = '_' then '-' else if 'A' ≤ c ∧ c ≤ 'Z' then Char.ofNat (c.toNat + 32) else c

/-- The kind that a mnemonic names. Case and the choice of hyphen or underscore do not matter. -/
def ofName? (s : List Char) : Option PatternKind :=
  mnemonics.lookup (String.ofList (normalize s))

def name? (k : PatternKind) : Option String :=
  (mnemonics.find? fun m => m.2 == k).map Prod.fst

/-- Switches have further lines, up to the one that ends them. -/
def takesLines : PatternKind → Bool
  | .switchTable | .switchLookup => true
  | _ => false

end PatternKind

end JvmPatch
