import JvmPatch.Proofs.ClassFile.RoundTrip

/-! The number of local variables of a written body. It suffices for the receiver, the parameters
and every access of a local variable, as far as 16 bits can count: what would need more is written
with 65535 all the same. -/

set_option autoImplicit false

namespace JvmPatch

/-- The local variables that an instruction accesses. A long or double number takes two. -/
def Insn.slots : Insn → List Nat
  | .var op index =>
    if op = Opcode.lload ∨ op = Opcode.dload ∨ op = Opcode.lstore ∨ op = Opcode.dstore then
      [index.toNat, index.toNat + 1]
    else [index.toNat]
  | .iinc index _ => [index.toNat]
  | _ => []

/-- The local variables of the receiver and the parameters. -/
def MethodDesc.slotCount (m : MethodDesc) (isStatic : Bool) : Nat :=
  (if isStatic then 0 else 1) + (m.params.map fun t => t.slots.toNat).sum

theorem toNat_foldl_slots (types : List TypeDesc) (n : UInt16) :
    (types.foldl (fun n t => if n.toNat + t.slots.toNat ≤ 65535 then n + t.slots
      else 65535) n).toNat =
      min 65535 (n.toNat + (types.map fun t => t.slots.toNat).sum) := by
  induction types generalizing n with
  | nil =>
    have := n.toNat_lt
    simp only [List.foldl_nil, List.map_nil, List.sum_nil]
    omega
  | cons t types ih =>
    rw [List.foldl_cons, ih, List.map_cons, List.sum_cons]
    split
    · rename_i fits
      have sum : (n + t.slots).toNat = n.toNat + t.slots.toNat := by
        rw [UInt16.toNat_add, Nat.mod_eq_of_lt (by omega)]
      omega
    · have full : (65535 : UInt16).toNat = 65535 := rfl
      omega

theorem MethodDesc.toNat_parameterSlots (m : MethodDesc) (isStatic : Bool) :
    (m.parameterSlots isStatic).toNat = min 65535 (m.slotCount isStatic) := by
  rw [parameterSlots, toNat_foldl_slots, slotCount]
  cases isStatic <;> rfl

namespace Bytecode

theorem le_max_both (a b : UInt16) : a ≤ max a b ∧ b ≤ max a b := by
  rw [show max a b = if a ≤ b then b else a from rfl]
  split
  · exact ⟨‹_›, UInt16.le_refl b⟩
  · exact ⟨UInt16.le_refl a, UInt16.le_of_lt (UInt16.not_le.1 ‹_›)⟩

theorem le_foldl_max {n m : UInt16} {counts : List UInt16} (within_ : n ≤ m ∨ n ∈ counts) :
    n ≤ counts.foldl max m := by
  induction counts generalizing m with
  | nil => exact within_.resolve_right List.not_mem_nil
  | cons c counts ih =>
    rw [List.foldl_cons]
    apply ih
    rcases within_ with below | member
    · exact .inl (UInt16.le_trans below (le_max_both m c).1)
    · rcases List.mem_cons.1 member with rfl | later
      · exact .inl (le_max_both m n).2
      · exact .inr later

theorem le_countLocals (code : Code) (parameters : UInt16) :
    parameters ≤ countLocals code parameters :=
  le_foldl_max (.inl (UInt16.le_refl _))

theorem lt_localsAfter? {insn : Insn} {n : Nat} (touched : n ∈ insn.slots) (small : n < 65535) :
    ∃ after, localsAfter? insn = some after ∧ n < after.toNat := by
  have all : (65535 : UInt16).toNat = 65535 := rfl
  cases insn with
  | var op index =>
    refine ⟨_, rfl, ?_⟩
    have bound : ∀ width : UInt16, n < index.toNat + width.toNat →
        n < (if index.toNat + width.toNat ≤ 65535 then index + width else 65535).toNat := by
      intro width lt
      split
      · rwa [UInt16.toNat_add, Nat.mod_eq_of_lt (by omega)]
      · exact all ▸ small
    apply bound
    simp only [Insn.slots] at touched
    split at touched
    · rename_i wide
      rw [if_pos wide]
      have : n = index.toNat ∨ n = index.toNat + 1 := by simpa using touched
      show n < index.toNat + 2
      omega
    · rename_i narrow
      rw [if_neg narrow]
      obtain rfl := List.mem_singleton.1 touched
      exact Nat.lt_succ_self _
  | iinc index delta =>
    refine ⟨_, rfl, ?_⟩
    obtain rfl := List.mem_singleton.1 touched
    split
    · have one : (1 : UInt16).toNat = 1 := rfl
      rw [UInt16.toNat_add, one, Nat.mod_eq_of_lt (by omega)]
      exact Nat.lt_succ_self _
    · exact all ▸ small
  | _ => cases touched

theorem lt_countLocals {code : Code} {insn : Insn} (member : insn ∈ code.insns) {n : Nat}
    (touched : n ∈ insn.slots) (small : n < 65535) (parameters : UInt16) :
    n < (countLocals code parameters).toNat := by
  obtain ⟨after, counted, lt⟩ := lt_localsAfter? touched small
  have bound : after ≤ countLocals code parameters :=
    le_foldl_max (.inr (List.mem_filterMap.2 ⟨insn, member, counted⟩))
  exact lt_of_lt_of_le lt (UInt16.le_iff_toNat_le.1 bound)

end Bytecode

/-- A written body has local variables for the receiver, the parameters and all accesses, up to the
number 65535. -/
structure MethodDecl.HasRoom (m : MethodDecl) (code : Code) (raw : Bytecode.RawCode) : Prop where
  parameters : ∃ type, MethodDesc.require m.desc = .ok type ∧
    min 65535 (type.slotCount m.isStatic) ≤ raw.maxLocals.toNat
  accesses : ∀ insn ∈ code.insns, ∀ n ∈ insn.slots, n < 65535 → n < raw.maxLocals.toNat

theorem ClassWriter.CountsLocals.hasRoom {m : MethodDecl} {code : Code} {raw : Bytecode.RawCode}
    (counts : CountsLocals m.desc m.isStatic code raw) : m.HasRoom code raw := by
  obtain ⟨type, required, locals⟩ := counts
  refine ⟨⟨type, required, ?_⟩, fun insn member n touched small => ?_⟩
  · rw [← type.toNat_parameterSlots, locals]
    exact UInt16.le_iff_toNat_le.1 (Bytecode.le_countLocals code _)
  · rw [locals]
    exact Bytecode.lt_countLocals member touched small _

/-- The methods of a class that is encoded anew have room for their local variables. -/
theorem ClassSet.store_locals {set : ClassSet} {id : ClassId} {bytes : Bytes}
    (encodes : (set.classAt id).modified = true ∨ (set.classAt id).source = none)
    (stored : set.store id = .ok bytes) :
    ∃ raw, ClassLayout.split? bytes = some raw ∧
      List.Forall₂ (fun m written => List.Forall₂ m.HasRoom m.code.toList
        (written.attributes.filterMap ClassWriter.bodyIn?)) (set.classFile id).methods
          raw.methods := by
  have encoded : (set.classFile id).encode = .ok bytes := by
    unfold store at stored
    dsimp only at stored
    split at stored
    · exact mapError_eq_ok stored
    · rename_i unmodified
      rw [encodes.resolve_left unmodified] at stored
      exact mapError_eq_ok stored
  obtain ⟨raw, split, written, -⟩ := ClassFile.split_encode encoded
  exact ⟨raw, split, written.imp fun m w as => as.locals.imp fun _ _ counts => counts.hasRoom⟩

/-- A class with a static method that takes a long number and loads a variable of two slots. -/
def ClassSet.loading (op : Opcode) (index : UInt16) : ClassSet :=
  let body : Code := { insns := [.var op index, .simple Opcode.pop2, .simple Opcode.voidReturn] }
  let file : ClassFile :=
    { header := ⟨"a/A", some "java/lang/Object", [], 33, 50, 0, none⟩
      fields := []
      methods := [⟨"m", "(J)V", 9, [], some body⟩] }
  (({} : ClassSet).insert? file none false).getD {}

theorem ClassSet.store_locals_loading : ∃ bytes raw,
    (loading Opcode.dload 258).store ⟨0⟩ = .ok bytes ∧ ClassLayout.split? bytes = some raw ∧
      List.Forall₂ (fun m written => List.Forall₂ m.HasRoom m.code.toList
        (written.attributes.filterMap ClassWriter.bodyIn?))
        ((loading Opcode.dload 258).classFile ⟨0⟩).methods raw.methods := by
  have succeeds : ((loading Opcode.dload 258).store ⟨0⟩).toOption.isSome = true := by decide +kernel
  cases stored : (loading Opcode.dload 258).store ⟨0⟩ with
  | error e => simp [stored, Except.toOption] at succeeds
  | ok bytes =>
    obtain ⟨raw, split, room⟩ := store_locals (.inr (by decide +kernel)) stored
    exact ⟨bytes, raw, rfl, split, room⟩

/-- The last index of all is written with 65535 local variables, none of which has that index. -/
theorem ClassSet.store_lacks_room :
    ((loading Opcode.lload 65535).store ⟨0⟩).toOption.bind (fun bytes =>
      (ClassLayout.split? bytes).map fun raw => raw.methods.flatMap fun m =>
        (m.attributes.filterMap ClassWriter.bodyIn?).map Bytecode.RawCode.maxLocals) =
          some [65535] ∧
      (Insn.var Opcode.lload 65535).slots = [65535, 65536] := by
  exact ⟨by decide +kernel, by decide⟩

end JvmPatch
