import JvmPatch.Proofs.ClassFile.Locals
import JvmPatch.Proofs.Descriptor

/-! The slots that a call takes off the operand stack. There are three counts of them: in 16-bit
arithmetic for the effect of the call, up to 65535 for the parameters, and in one byte for the calls
of interface methods. They agree with the number of slots as far as it fits into 16 bits, and the
byte is refused where it does not fit. -/

set_option autoImplicit false

namespace JvmPatch

/-- The slots of a value: two for the 64-bit types. -/
def TypeDesc.width (t : TypeDesc) : Nat := if t = ofBase .long ∨ t = ofBase .double then 2 else 1

theorem TypeDesc.toNat_slots {t : TypeDesc} (used : t ≠ .void) : t.slots.toNat = t.width := by
  obtain ⟨dims, base⟩ := t
  by_cases array : dims = 0
  · subst array
    cases base with
    | void => exact absurd rfl used
    | object name =>
      rw [width, if_neg (by simp [ofBase])]
      rfl
    | _ => rfl
  · have dimensional : (⟨dims, base⟩ : TypeDesc).isArray = true := by simpa [isArray] using array
    rw [width, if_neg (by simp [ofBase, array]), slots, if_pos dimensional]
    rfl

namespace MethodDesc

/-- The slots of the arguments of a call: those of the parameters, and one for the receiver if there
is one. -/
def callSlots (m : MethodDesc) (isStatic : Bool) : Nat :=
  (if isStatic then 0 else 1) + (m.params.map TypeDesc.width).sum

theorem sum_slots {types : List TypeDesc} (used : TypeDesc.void ∉ types) :
    (types.map fun t => t.slots.toNat).sum = (types.map TypeDesc.width).sum := by
  refine congrArg List.sum (List.map_congr_left fun t member => TypeDesc.toNat_slots ?_)
  rintro rfl
  exact used member

theorem slotCount_eq_callSlots {m : MethodDesc} (used : TypeDesc.void ∉ m.params)
    (isStatic : Bool) :
    m.slotCount isStatic = m.callSlots isStatic := by
  rw [slotCount, callSlots, sum_slots used]

/-- Sums of 16-bit numbers are right up to a multiple of 65536. -/
theorem toNat_foldl_add (types : List TypeDesc) (n : UInt16) :
    (types.foldl (fun n t => n + t.slots) n).toNat =
      (n.toNat + (types.map fun t => t.slots.toNat).sum) % 65536 := by
  induction types generalizing n with
  | nil =>
    have := n.toNat_lt
    simp only [List.foldl_nil, List.map_nil, List.sum_nil]
    omega
  | cons t types ih =>
    rw [List.foldl_cons, ih, UInt16.toNat_add, List.map_cons, List.sum_cons]
    omega

theorem toNat_argumentSlots (m : MethodDesc) (isStatic : Bool) :
    (m.argumentSlots isStatic).toNat = m.slotCount isStatic % 65536 := by
  have none : (0 : UInt16).toNat = 0 := rfl
  rw [argumentSlots, UInt16.toNat_add, toNat_foldl_add, slotCount, none]
  cases isStatic with
  | true =>
    simp only [if_true, none]
    omega
  | false =>
    have one : (1 : UInt16).toNat = 1 := rfl
    simp only [Bool.false_eq_true, if_false, one]
    omega

/-- While the slots fit into 16 bits, so does every sum on the way to them. -/
theorem toNat_foldl_add_of_isPrefix {m : MethodDesc} (used : TypeDesc.void ∉ m.params)
    {isStatic : Bool} (fits : m.callSlots isStatic ≤ 65535) {types : List TypeDesc}
    (first : types <+: m.params) :
    (types.foldl (fun n t => n + t.slots) (0 : UInt16)).toNat = (types.map TypeDesc.width).sum := by
  obtain ⟨rest, whole⟩ := first
  have some : TypeDesc.void ∉ types := fun member => used (whole ▸ List.mem_append_left rest member)
  have sum : (m.params.map TypeDesc.width).sum = (types.map TypeDesc.width).sum +
      (rest.map TypeDesc.width).sum := by
    rw [← whole, List.map_append, List.sum_append]
  have bound : (m.params.map TypeDesc.width).sum ≤ 65535 := Nat.le_trans (Nat.le_add_left _ _) fits
  have none : (0 : UInt16).toNat = 0 := rfl
  rw [toNat_foldl_add, sum_slots some, none]
  omega

theorem require_of_parse {text : String} {m : MethodDesc} (parsed : MethodDesc.parse text = .ok m) :
    MethodDesc.require text = .ok m := by
  rw [require, parsed, mapError_ok]

end MethodDesc

theorem Bytecode.interfaceSlots_eq {text : String} {m : MethodDesc}
    (parsed : MethodDesc.parse text = .ok m) (used : TypeDesc.void ∉ m.params) :
    interfaceSlots text =
      if m.callSlots false ≤ 255 then .ok [UInt8.ofNat (m.callSlots false), 0]
        else .error .interfaceArguments := by
  have counted := m.toNat_parameterSlots false
  rw [MethodDesc.slotCount_eq_callSlots used] at counted
  have full : (255 : UInt16).toNat = 255 := rfl
  rw [interfaceSlots, MethodDesc.require_of_parse parsed, mapError_ok, ok_bind, asByte?]
  by_cases few : m.callSlots false ≤ 255
  · have same : (m.parameterSlots false).toNat = m.callSlots false := by omega
    have short : m.parameterSlots false ≤ 255 := UInt16.le_iff_toNat_le.2 (by omega)
    have narrow : (m.parameterSlots false).toUInt8 = UInt8.ofNat (m.callSlots false) := by
      rw [← same]
      rfl
    rw [if_pos few, if_pos short, narrow]
    rfl
  · have long : ¬m.parameterSlots false ≤ 255 := fun short => by
      have := UInt16.le_iff_toNat_le.1 short
      omega
    rw [if_neg few, if_neg long]

namespace Insn

/-- The counts of the slots that a call takes off the stack. The effect of the call has the number
of slots up to a multiple of 65536, and the count of the parameters has it up to 65535. So both are
right and equal exactly if the number fits into 16 bits, and then no sum on the way is too large.
Calls of interface methods with more than 255 slots are refused. -/
theorem stackEffect_arguments {text : String} {m : MethodDesc}
    (accepted : MethodDesc.parse text = .ok m) (op : Opcode) (owner name : String)
    (isInterface : Bool) :
    let isStatic := op == Opcode.invokestatic
    ∃ pop, (Insn.invoke op owner name text isInterface).stackEffect = .ok ⟨pop, m.result.slots⟩ ∧
      pop.toNat = m.callSlots isStatic % 65536 ∧
      (m.parameterSlots isStatic).toNat = min 65535 (m.callSlots isStatic) ∧
      (m.callSlots isStatic ≤ 65535 ↔ pop = m.parameterSlots isStatic ∧
        pop.toNat = m.callSlots isStatic) ∧
      (m.callSlots isStatic ≤ 65535 → ∀ types, types <+: m.params →
        (types.foldl (fun n t => n + t.slots) (0 : UInt16)).toNat =
          (types.map TypeDesc.width).sum) ∧
      Bytecode.interfaceSlots text =
        if m.callSlots false ≤ 255 then .ok [UInt8.ofNat (m.callSlots false), 0]
          else .error .interfaceArguments := by
  intro isStatic
  have used : TypeDesc.void ∉ m.params := (MethodDesc.parseChars_eq_ok_iff.1 accepted).2.1
  have popped := m.toNat_argumentSlots isStatic
  have counted := m.toNat_parameterSlots isStatic
  rw [MethodDesc.slotCount_eq_callSlots used] at popped counted
  refine ⟨m.argumentSlots isStatic, ?_, popped, counted, ⟨fun fits => ?_, fun ⟨_, exact_⟩ => ?_⟩,
    fun fits types first => MethodDesc.toNat_foldl_add_of_isPrefix used fits first,
    Bytecode.interfaceSlots_eq accepted used⟩
  · rw [stackEffect, MethodDesc.require_of_parse accepted]
  · rw [Nat.mod_eq_of_lt (by omega)] at popped
    rw [Nat.min_eq_right fits] at counted
    exact ⟨UInt16.toNat_inj.1 (popped.trans counted.symm), popped⟩
  · have := (m.argumentSlots isStatic).toNat_lt
    omega

theorem stackEffect_arguments_mixed :
    MethodDesc.parse "(JI[DLa/B;)D" =
        .ok ⟨[.ofBase .long, .ofBase .int, ⟨1, .double⟩, .object "a/B"], .ofBase .double⟩ ∧
      ∃ pop, (Insn.invoke Opcode.invokeinterface "a/A" "m" "(JI[DLa/B;)D" true).stackEffect =
        .ok ⟨pop, 2⟩ ∧ pop.toNat = 6 := by
  have parsed : MethodDesc.parse "(JI[DLa/B;)D" =
      .ok ⟨[.ofBase .long, .ofBase .int, ⟨1, .double⟩, .object "a/B"], .ofBase .double⟩ := by
        decide +kernel
  obtain ⟨pop, effect, popped, -⟩ :=
    stackEffect_arguments parsed Opcode.invokeinterface "a/A" "m" true
  exact ⟨parsed, pop, effect, popped⟩

/-- A method type of 32768 parameters that take two slots each. -/
def manyDoubles : MethodDesc := ⟨List.replicate 32768 (.ofBase .double), .void⟩

theorem callSlots_replicate (n : Nat) :
    (MethodDesc.mk (List.replicate n (.ofBase .double)) .void).callSlots true = 2 * n := by
  have two : (TypeDesc.ofBase .double).width = 2 := rfl
  simp only [MethodDesc.callSlots, List.map_replicate, two, if_true, List.sum_replicate_nat]
  omega

theorem parse_manyDoubles : MethodDesc.parse manyDoubles.text = .ok manyDoubles := by
  rw [MethodDesc.parse, MethodDesc.text, String.toList_ofList, MethodDesc.parseChars_eq_ok_iff]
  refine ⟨⟨fun t member => ?_, trivial⟩, fun member => ?_, rfl⟩
  · rw [List.eq_of_mem_replicate member]
    trivial
  · exact absurd (List.eq_of_mem_replicate member) (by decide)

/-- A body that calls a method before anything is on the stack. -/
def callsOnEmptyStack (desc : String) : Code :=
  { insns := [.invoke Opcode.invokestatic "a/A" "m" desc false, .simple Opcode.voidReturn] }

theorem stackDepth_callsOnEmptyStack {desc : String}
    (effect : (Insn.invoke Opcode.invokestatic "a/A" "m" desc false).stackEffect = .ok ⟨0, 0⟩) :
    (callsOnEmptyStack desc).stackDepth = .ok 0 := by
  have first : StackDepth.arriveAll (callsOnEmptyStack desc) ⟨#[none, none], 0⟩ [⟨0, 0⟩] =
      .ok (⟨#[some 0, none], 0⟩, [⟨1, 0⟩]) := by
    simp only [StackDepth.arriveAll, StackDepth.arrive, callsOnEmptyStack,
      List.getElem?_cons_zero, effect]
    rfl
  change (StackDepth.follow (callsOnEmptyStack desc) 3 ⟨#[none, none], 0⟩ [⟨0, 0⟩] >>=
    fun p => pure p.deepest) = _
  rw [StackDepth.follow, first]
  rfl

/-- A call whose arguments take 65536 slots takes none off the stack, and a body with it on an empty
stack is accepted. The count of the parameters stops at 65535. -/
theorem arguments_wrapAround :
    MethodDesc.parse manyDoubles.text = .ok manyDoubles ∧ manyDoubles.callSlots true = 65536 ∧
      (Insn.invoke Opcode.invokestatic "a/A" "m" manyDoubles.text false).stackEffect = .ok ⟨0, 0⟩ ∧
      manyDoubles.parameterSlots true = 65535 ∧
      (callsOnEmptyStack manyDoubles.text).stackDepth = .ok 0 := by
  have used : TypeDesc.void ∉ manyDoubles.params :=
    (MethodDesc.parseChars_eq_ok_iff.1 parse_manyDoubles).2.1
  have slots : manyDoubles.callSlots true = 65536 := callSlots_replicate 32768
  have popped := manyDoubles.toNat_argumentSlots true
  have counted := manyDoubles.toNat_parameterSlots true
  rw [MethodDesc.slotCount_eq_callSlots used, slots] at popped counted
  have effect : (Insn.invoke Opcode.invokestatic "a/A" "m" manyDoubles.text false).stackEffect =
      .ok ⟨0, 0⟩ := by
    have none : manyDoubles.argumentSlots true = 0 := UInt16.toNat_inj.1 popped
    rw [stackEffect, MethodDesc.require_of_parse parse_manyDoubles]
    change Except.ok (StackEffect.mk (manyDoubles.argumentSlots true) 0) = _
    rw [none]
  exact ⟨parse_manyDoubles, slots, effect, UInt16.toNat_inj.1 counted,
    stackDepth_callsOnEmptyStack effect⟩

end Insn

end JvmPatch
