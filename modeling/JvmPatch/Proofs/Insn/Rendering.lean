import JvmPatch.ClassFile.Reader
import JvmPatch.ClassFile.Writer
import JvmPatch.Insn.Basic
import Mathlib.Data.List.Forall2

/-! When two method bodies say the same, and when a class that is read says the same as the class
that was written. Labels are names of places and may differ; what they name is the instruction that
stands after them, or the end. -/

set_option autoImplicit false

namespace JvmPatch

namespace Opcode

/-- The instructions that access a local variable by its index. -/
def isLocalAccess (op : Opcode) : Bool := op.isLoadOrStore || op == ret

def isFieldAccess (op : Opcode) : Bool := between getstatic putfield op

/-- The instructions that call a method by its name. -/
def isCall (op : Opcode) : Bool := between invokevirtual invokeinterface op

/-- The instructions whose only operand is a class. -/
def isClassOp (op : Opcode) : Bool :=
  op == new || op == anewarray || op == checkcast || op == instanceof

end Opcode

namespace Insn

/-- The code of the instruction belongs to its form, and a table switch has one target for each of
its values. -/
def WellFormed : Insn → Prop
  | .simple op => op.isPlain = true
  | .var op _ => op.isLocalAccess = true
  | .field op .. => op.isFieldAccess = true
  | .invoke op .. => op.isCall = true
  | .type op _ => op.isClassOp = true
  | .jump op _ => op.isShortJump = true
  | .tableSwitch low high _ targets => high.toInt - low.toInt + 1 = targets.length
  | _ => True

/-- The instruction with other labels. The cases of a lookup switch are put in the order of their
keys; cases of one key stay in their order. -/
def renamed (rename : Label → Label) : Insn → Insn
  | .jump op target => .jump op (rename target)
  | .tableSwitch low high default targets =>
    .tableSwitch low high (rename default) (targets.map rename)
  | .lookupSwitch default pairs =>
    .lookupSwitch (rename default)
      ((pairs.mergeSort fun a b => a.1 ≤ b.1).map fun p => (p.1, rename p.2))
  | insn => insn

theorem renamed_of_branchTargets_eq_nil (rename : Label → Label) {insn : Insn}
    (still : insn.branchTargets = []) : insn.renamed rename = insn := by
  cases insn <;> first | rfl | cases still

@[simp] theorem isPseudo_renamed (rename : Label → Label) (insn : Insn) :
    (insn.renamed rename).isPseudo = insn.isPseudo := by
  cases insn <;> rfl

end Insn

def Region.renamed (rename : Label → Label) (r : Region) : Region :=
  ⟨rename r.start, rename r.stop, rename r.handler, r.catchType⟩

/-- The real instructions, each with the source lines that are marked between it and the one before.
Lines after the last instruction are left out; `pending` are those marked before the list. -/
def numbered (pending : List UInt16) : List Insn → List (List UInt16 × Insn)
  | [] => []
  | .label _ :: insns => numbered pending insns
  | .line number :: insns => numbered (pending ++ [number]) insns
  | insn :: insns => (pending, insn) :: numbered [] insns

/-- The number of real instructions before a label, if the label is placed. -/
def place? (l : Label) : List Insn → Option Nat
  | [] => none
  | insn :: insns =>
    if insn = .label l then some 0
    else (place? l insns).map fun n => if insn.isPseudo then n else n + 1

/-- The instructions of a body are well-formed, and no label is placed twice. -/
structure Code.WellFormed (code : Code) : Prop where
  insns : ∀ insn ∈ code.insns, insn.WellFormed
  once : code.placedLabels.Nodup

/-- A body says the same as another one under other labels: the same instructions on the same lines,
the same regions in order, and each label that is used stands where it stood. -/
structure Code.Renders (code read : Code) (rename : Label → Label) : Prop where
  insns : numbered [] read.insns =
    (numbered [] code.insns).map fun s => (s.1, s.2.renamed rename)
  regions : read.regions = code.regions.map (Region.renamed rename)
  places : ∀ l ∈ code.usedLabels,
    ∃ n, place? l code.insns = some n ∧ place? (rename l) read.insns = some n

/-! ### Classes -/

/-- The field has no flags but those that are read, and its value is one that a field can hold. -/
structure FieldDecl.WellFormed (f : FieldDecl) : Prop where
  access : f.access &&& Access.fieldFlags = f.access
  value : ∀ name, f.value ≠ some (.classRef name)

/-- The method has no flags but those that are read, and its body is well-formed. -/
structure MethodDecl.WellFormed (m : MethodDecl) : Prop where
  access : m.access &&& Access.methodFlags = m.access
  code : ∀ code ∈ m.code, code.WellFormed

/-- The class has no flags but those that are read, and its members are well-formed. -/
structure ClassFile.WellFormed (file : ClassFile) : Prop where
  access : file.header.access &&& Access.classFlags = file.header.access
  fields : ∀ f ∈ file.fields, f.WellFormed
  methods : ∀ m ∈ file.methods, m.WellFormed

/-- A method is read as it was written: its body under other labels, the rest the same. -/
structure MethodDecl.Renders (m read : MethodDecl) : Prop where
  name : read.name = m.name
  desc : read.desc = m.desc
  access : read.access = m.access
  exceptions : read.exceptions = m.exceptions
  code : Option.Rel (fun code read => ∃ rename, code.Renders read rename) m.code read.code

/-- The header of a class under the version that it is written with: a version above 50 becomes
50.0. -/
def ClassHeader.written (header : ClassHeader) : ClassHeader :=
  if 50 < header.major then { header with major := 50, minor := 0 } else header

/-- A class is read as it was written. -/
structure ClassFile.Renders (file read : ClassFile) : Prop where
  header : read.header = file.header.written
  fields : read.fields = file.fields
  methods : List.Forall₂ MethodDecl.Renders file.methods read.methods

end JvmPatch
