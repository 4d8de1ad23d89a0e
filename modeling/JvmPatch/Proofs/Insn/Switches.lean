import JvmPatch.Proofs.Insn.Rendering
import JvmPatch.Proofs.Pattern.Giving
import JvmPatch.Proofs.Script.Parsing
import Mathlib.Data.List.Nodup

/-! Switches. A table switch is well-formed if it has a target for every value between its bounds,
and a lookup switch if its keys are distinct. -/

set_option autoImplicit false

namespace JvmPatch

namespace Insn

/-- A switch is well-formed. -/
def SwitchFormed : Insn → Prop
  | .tableSwitch low high _ targets => high.toInt - low.toInt + 1 = targets.length
  | .lookupSwitch _ pairs => (pairs.map Prod.fst).Nodup
  | _ => True

def isSwitch : Insn → Bool
  | .tableSwitch .. | .lookupSwitch .. => true
  | _ => false

@[simp] theorem isSwitch_renamed (rename : Label → Label) (insn : Insn) :
    (insn.renamed rename).isSwitch = insn.isSwitch := by
  cases insn <;> rfl

end Insn

namespace Pattern

def SwitchFormed : Pattern → Prop
  | .tableSwitch (.is low) (.is high) _ targets => high.toInt - low.toInt + 1 = targets.length
  | .lookupSwitch _ cases => (cases.map Prod.fst).Nodup
  | _ => True

theorem Gives.switchFormed {p : Pattern} {insn : Insn} (gives : p.Gives insn)
    (formed : p.SwitchFormed) : insn.SwitchFormed := by
  cases gives with
  | tableSwitch same =>
    rw [Insn.SwitchFormed, same]
    exact formed
  | @lookupSwitch _ _ _ pairs same =>
    rw [SwitchFormed, ← same] at formed
    rw [Insn.SwitchFormed]
    have keys : (pairs.map Prod.fst).map Operand.is = pairs.map fun p => Operand.is p.1 :=
      List.map_map
    exact List.Nodup.of_map Operand.is (keys ▸ formed)
  | _ => trivial

/-- What is added for a pattern is well-formed. -/
theorem Gives.wellFormed {p : Pattern} {insn : Insn} (gives : p.Gives insn)
    (regular : p.isRegular = true) (formed : p.SwitchFormed) : insn.WellFormed := by
  cases gives with
  | tableSwitch same =>
    rw [Insn.WellFormed, same]
    exact formed
  | ret isReturn =>
    rw [Insn.WellFormed, Opcode.isPlain, isReturn]
    simp
  | newObjectArray => rfl
  | single | var | jump | field | invoke | type => exact regular
  | _ => trivial

end Pattern

def Code.SwitchesFormed (code : Code) : Prop := ∀ insn ∈ code.insns, insn.SwitchFormed

def Code.switches (code : Code) : List Insn := code.insns.filter Insn.isSwitch

theorem switches_numbered (pending : List UInt16) (insns : List Insn) :
    ((numbered pending insns).map Prod.snd).filter Insn.isSwitch = insns.filter Insn.isSwitch := by
  induction insns generalizing pending with
  | nil => rfl
  | cons insn insns ih =>
    cases insn with
    | label | line => exact ih _
    | _ => simp [numbered, Insn.isSwitch, List.filter_cons, ih]

/-- Two bodies have the same switches with the same targets: under other labels, the same bounds or
keys, and each target stands where it stood. -/
structure Code.SameSwitches (code read : Code) (rename : Label → Label) : Prop where
  switches : read.switches = code.switches.map (Insn.renamed rename)
  places : ∀ insn ∈ code.switches, ∀ l ∈ insn.branchTargets,
    ∃ n, place? l code.insns = some n ∧ place? (rename l) read.insns = some n

theorem Code.Renders.sameSwitches {code read : Code} {rename : Label → Label}
    (renders : code.Renders read rename) : code.SameSwitches read rename := by
  constructor
  · have same := congrArg (fun s => (s.map Prod.snd).filter Insn.isSwitch) renders.insns
    have moved : ((numbered [] code.insns).map fun s => (s.1, s.2.renamed rename)).map Prod.snd =
        ((numbered [] code.insns).map Prod.snd).map (Insn.renamed rename) := by
      rw [List.map_map, List.map_map]
      rfl
    rw [switches_numbered, moved, List.filter_map] at same
    rw [switches, switches, same, ← switches_numbered [] code.insns]
    exact congrArg _ (List.filter_congr fun insn _ => by simp)
  · intro insn member l target
    refine renders.places l (List.mem_append_left _ ?_)
    exact List.mem_flatMap.2 ⟨insn, List.mem_of_mem_filter member, target⟩

/-- Two methods are the same but for the other instructions of their bodies. -/
structure MethodDecl.SameSwitches (m read : MethodDecl) : Prop where
  name : read.name = m.name
  desc : read.desc = m.desc
  code : Option.Rel (fun code read => ∃ rename, code.SameSwitches read rename) m.code read.code

theorem MethodDecl.Renders.sameSwitches {m read : MethodDecl} (renders : m.Renders read) :
    m.SameSwitches read := by
  refine ⟨renders.name, renders.desc, ?_⟩
  have code := renders.code
  generalize m.code = before, read.code = after at code ⊢
  cases code with
  | some same =>
    obtain ⟨rename, renders⟩ := same
    exact .some ⟨rename, renders.sameSwitches⟩
  | none => exact .none

end JvmPatch
