import JvmPatch.Insn.Dump
import JvmPatch.Pattern.Match
import JvmPatch.Script.Error

/-! Finding the lines of a method block in a method body. The lines match instructions one after the
other; after a line that stands for any number of instructions, the next line matches at the first
place from which the lines up to the next such line can be found, too. -/

set_option autoImplicit false

namespace JvmPatch

/-- Why the lines of a block are not in a body. -/
inductive WalkFault
  | noRegion (line : Nat)
  | outOfInsns (line : Nat)
  | mismatch (line : Nat) (text : String) (insn : Insn)
  | leftOver
  deriving DecidableEq, Repr

/-- A line of a script as messages show it. -/
def InsnLine.shown (l : InsnLine) : String := String.ofList (Text.trim l.text.toList)

def WalkFault.message : WalkFault → String
  | .noRegion line => atLine line "no exception region matches"
  | .outOfInsns line => atLine line "ran out of instructions"
  | .mismatch line text insn => atLine line (text ++ " does not match " ++ insn.dump)
  | .leftOver => "instructions left after the last pattern"

/-- A line that has to be found, and its number within the block. -/
structure SoughtLine where
  index : Nat
  line : InsnLine
  deriving DecidableEq, Repr

/-- What has been found: the bindings, and the places of the lines. -/
structure Found where
  scope : Scope
  positions : Table Nat Nat
  deriving DecidableEq, Repr

/-- The result of following the lines from some place on. -/
inductive WalkOutcome
  | matched (found : Found)
  /-- Another place for the line after the latest line for any instructions may do better. -/
  | stuck (fault : WalkFault)
  /-- That line has no other place. -/
  | failed (fault : WalkFault)
  deriving DecidableEq, Repr

namespace SoughtLine

/-- The lines of a block that have to be found, with their numbers. -/
def ofBlock (lines : List InsnLine) : List SoughtLine :=
  (lines.zipIdx.filter fun e => e.1.mode != .add).map fun e => ⟨e.2, e.1⟩

/-- Lines pass over line markers, and over labels unless they are for a label. -/
def passesOver (l : SoughtLine) : Insn → Bool
  | .line _ => true
  | .label _ => !l.line.pattern.isLabel
  | _ => false

def matchAt (cx : BodyContext) (l : SoughtLine) (place : Nat) (insn : Insn) (found : Found) :
    Option Found :=
  match cx.matchInsn l.line.pattern insn found.scope with
  | (true, scope) => some ⟨scope, found.positions.insert l.index place⟩
  | (false, _) => none

/-- How the lines after one are followed: from a place on, with the instructions there. -/
abbrev Rest := Nat → List Insn → Found → WalkOutcome

/-- Matches the line with the next instruction, and goes on with the lines after it. -/
def step (cx : BodyContext) (l : SoughtLine) (rest : Rest) : Rest
  | _, [], _ => .stuck (.outOfInsns l.line.line)
  | place, insn :: insns, found =>
    if l.passesOver insn then step cx l rest (place + 1) insns found
    else
      match l.matchAt cx place insn found with
      | some found => rest (place + 1) insns found
      | none => .stuck (.mismatch l.line.line l.line.shown insn)

/-- Matches the line with the first instruction from which the lines after it can be found. Once an
instruction has matched, there is no going back to lines before this one. -/
def seek (cx : BodyContext) (l : SoughtLine) (rest : Rest) (again : Bool) : Rest
  | _, [], _ =>
    if again then .failed (.outOfInsns l.line.line) else .stuck (.outOfInsns l.line.line)
  | place, insn :: insns, found =>
    if l.passesOver insn then seek cx l rest again (place + 1) insns found
    else
      match l.matchAt cx place insn found with
      | none => seek cx l rest again (place + 1) insns found
      | some next =>
        match rest (place + 1) insns next with
        | .stuck _ => seek cx l rest true (place + 1) insns found
        | outcome => outcome

end SoughtLine

/-- Follows the lines. `afterAny` says whether any number of instructions may come first. -/
def followLines (cx : BodyContext) : Bool → List SoughtLine → SoughtLine.Rest
  | afterAny, [], _, insns, found =>
    if afterAny || insns.all Insn.isPseudo then .matched found else .stuck .leftOver
  | afterAny, l :: ls, place, insns, found =>
    if l.line.pattern = .any then followLines cx true ls place insns found
    else if afterAny then l.seek cx (followLines cx false ls) false place insns found
    else l.step cx (followLines cx false ls) place insns found

/-- Finds regions for the lines that are for regions, each on its own. -/
def findRegions (cx : BodyContext) (regions : List Region) : List SoughtLine → Scope →
    Table Nat Nat → Except WalkFault (Scope × Table Nat Nat)
  | [], scope, found => .ok (scope, found)
  | l :: ls, scope, found =>
    match (cx.findRegion l.line.pattern regions).run scope with
    | (some region, scope) => findRegions cx regions ls scope (found.insert l.index region)
    | (none, _) => .error (.noRegion l.line.line)

/-- Finds the lines of a block in a body: first those for regions, then those for instructions. -/
def walk (cx : BodyContext) (lines : List InsnLine) (code : Code) (scope : Scope) :
    Except WalkFault (Scope × MethodMatch) := do
  let (forRegions, forInsns) :=
    (SoughtLine.ofBlock lines).partition fun l => l.line.pattern.isTryCatch
  let (scope, regions) ← findRegions cx code.regions forRegions scope .empty
  match followLines cx false forInsns 0 code.insns ⟨scope, .empty⟩ with
  | .matched found => .ok (found.scope, ⟨found.positions, regions⟩)
  | .stuck fault | .failed fault => .error fault

end JvmPatch
