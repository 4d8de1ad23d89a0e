import JvmPatch.Insn.Basic

/-! Names for the labels of a method body in listings. Labels that nothing refers to have none. -/

set_option autoImplicit false

namespace JvmPatch

def letterDigit (n : Nat) : Char := Char.ofNat ('A'.toNat + n)

/-- A number in base 26, with letters for digits. -/
def letters (n : Nat) : List Char :=
  if n < 26 then [letterDigit n] else letters (n / 26) ++ [letterDigit (n % 26)]
termination_by n
decreasing_by omega

/-- The labels of a body that have names, in the order in which the names are given. -/
structure LabelNames where
  labels : List Label
  deriving DecidableEq, Repr

namespace LabelNames

/-- The labels that an instruction brings up, given those that something refers to. -/
def mentioned (used : List Label) : Insn → List Label
  | .label l => if used.contains l then [l] else []
  | insn => insn.branchTargets

/-- Names the labels that the exception regions and the branches of a body refer to, in the order
in which a listing shows them. -/
def ofCode (code : Code) : LabelNames :=
  let inRegions := code.regions.flatMap Region.labels
  let inBody := code.insns.flatMap (mentioned code.usedLabels)
  ⟨(inRegions ++ inBody).eraseDups⟩

/-- The name of the label with a given number among those that have names. -/
def nameAt (index : Nat) : String := "label-" ++ String.ofList (letters index)

def name? (names : LabelNames) (l : Label) : Option String := (names.labels.idxOf? l).map nameAt

def operand (names : LabelNames) (l : Label) : String :=
  "~" ++ (names.name? l).getD ("label-" ++ toString l.index)

end LabelNames

end JvmPatch
