import JvmPatch.Bytecode.Encode
import JvmPatch.Proofs.BigEndian
import JvmPatch.Proofs.ClassFile.Pool
import JvmPatch.Proofs.Insn.Rendering
import JvmPatch.Proofs.Steps
import Mathlib.Tactic.IntervalCases

/-! Instructions without branches: the bytes of each have the length that their code announces, and
are decoded to the instruction again, wherever they stand. -/

set_option autoImplicit false
set_option maxRecDepth 8000

namespace JvmPatch.Bytecode

/-! ### Operands are read from where they were written -/

theorem natAt_append (before field after : List UInt8) :
    natAt field.length before.length (before ++ (field ++ after)) = .ok (bigEndian field) := by
  simp [natAt]

theorem u8At_append (before : List UInt8) (b : UInt8) (after : List UInt8) :
    u8At before.length (before ++ b :: after) = .ok b := by
  have read : natAt 1 before.length (before ++ b :: after) = .ok (bigEndian [b]) :=
    natAt_append before [b] after
  rw [u8At, read, ok_map, ofNat_bigEndian_singleton]

theorem u16At_append (before : List UInt8) (n : UInt16) (after : List UInt8) :
    u16At before.length (before ++ (bytes16 n ++ after)) = .ok n := by
  have read := natAt_append before (bytes16 n) after
  rw [length_bytes16] at read
  rw [u16At, read, ok_map, ofNat_bigEndian_bytes16]

theorem i16At_append (before : List UInt8) (n : Int16) (after : List UInt8) :
    i16At before.length (before ++ (bytes16 n.toUInt16 ++ after)) = .ok n := by
  rw [i16At, u16At_append]
  rfl

theorem i32At_append (before : List UInt8) (n : Int32) (after : List UInt8) :
    i32At before.length (before ++ (bytes32 n.toUInt32 ++ after)) = .ok n := by
  have read := natAt_append before (bytes32 n.toUInt32) after
  rw [length_bytes32] at read
  rw [i32At, read, ok_map, ofNat_bigEndian_bytes32]
  rfl

/-- A count is written like a signed number that is not negative. -/
theorem toBigEndian_four {n : Nat} (small : n < 2147483648) :
    toBigEndian 4 n = bytes32 (Int32.ofInt n).toUInt32 := by
  have word : (Int32.ofInt n).toUInt32 = UInt32.ofNat n := rfl
  rw [bytes32, word, UInt32.toNat_ofNat', Nat.mod_eq_of_lt (by omega)]

theorem toUInt16_of_asByte? {n : UInt16} {b : UInt8} (short : asByte? n = some b) :
    b.toUInt16 = n := by
  unfold asByte? at short
  split at short
  · rename_i small
    cases short
    apply UInt16.toNat_inj.1
    have : n.toNat ≤ 255 := UInt16.le_iff_toNat_le.1 small
    rw [UInt8.toNat_toUInt16, UInt16.toNat_toUInt8]
    omega
  · cases short

theorem widen_byte {n : Int32} (atLeast : -128 ≤ n.toInt) (below : n.toInt < 128) :
    n.toUInt32.toUInt8.toInt8.toInt32 = n := by
  have narrow : n.toUInt32.toUInt8.toInt8 = n.toInt8 :=
    Int8.toBitVec_inj.1 (BitVec.signExtend_eq_setWidth_of_le n.toBitVec (by decide)).symm
  rw [narrow]
  apply Int32.toInt_inj.1
  rw [Int8.toInt_toInt32, Int32.toInt_toInt8]
  exact Int.bmod_eq_of_le (by omega) (by omega)

theorem widen_short {n : Int32} (atLeast : -32768 ≤ n.toInt) (below : n.toInt < 32768) :
    n.toUInt32.toUInt16.toInt16.toInt32 = n := by
  have narrow : n.toUInt32.toUInt16.toInt16 = n.toInt16 :=
    Int16.toBitVec_inj.1 (BitVec.signExtend_eq_setWidth_of_le n.toBitVec (by decide)).symm
  rw [narrow]
  apply Int32.toInt_inj.1
  rw [Int16.toInt_toInt32, Int32.toInt_toInt16]
  exact Int.bmod_eq_of_le (by omega) (by omega)

theorem widen_byte_to_short {n : Int16} (atLeast : -128 ≤ n.toInt) (below : n.toInt < 128) :
    n.toUInt16.toUInt8.toInt8.toInt16 = n := by
  have narrow : n.toUInt16.toUInt8.toInt8 = n.toInt8 :=
    Int8.toBitVec_inj.1 (BitVec.signExtend_eq_setWidth_of_le n.toBitVec (by decide)).symm
  rw [narrow]
  apply Int16.toInt_inj.1
  rw [Int8.toInt_toInt16, Int16.toInt_toInt8]
  exact Int.bmod_eq_of_le (by omega) (by omega)

/-! ### Instructions -/

theorem forall_opcode {P : Opcode → Prop} (each : ∀ n < 256, P (UInt8.ofNat n)) (op : Opcode) :
    P op := by
  rw [← UInt8.ofNat_toNat (x := op)]
  exact each _ op.toNat_lt

def isBranch (op : Opcode) : Bool :=
  op.isShortJump || op.isWideJump || op == Opcode.tableswitch || op == Opcode.lookupswitch

/-- The bytes of an instruction without branches. -/
structure Straight (pool : Pool) (insn : Insn) (content : List UInt8) : Prop where
  nonempty : content ≠ []
  length : ∀ offset after, length offset (content ++ after) = .ok content.length
  branches : ∀ offset, (Tile.mk offset content).branches = .ok []
  decodes : ∀ targets offset, decodeInsn pool targets ⟨offset, content⟩ = .ok insn

theorem length_of_fixed {op : Opcode} {n : Nat} (fixed : fixedLength? op = some n) (offset : Nat)
    (operands : List UInt8) : length offset (op :: operands) = .ok n := by
  simp only [Bytecode.length, fixed]

theorem branches_of_not_isBranch {op : Opcode} (still : isBranch op = false) (offset : Nat)
    (operands : List UInt8) : (Tile.mk offset (op :: operands)).branches = .ok [] := by
  simp only [isBranch, Bool.or_eq_false_iff, beq_eq_false_iff_ne] at still
  obtain ⟨⟨⟨short, wide⟩, table⟩, lookup⟩ := still
  simp [Tile.branches, Tile.op, short, wide, table, lookup]
  rfl

theorem Straight.of_fixed {pool : Pool} {insn : Insn} {op : Opcode} {operands : List UInt8}
    (fixed : fixedLength? op = some (operands.length + 1)) (still : isBranch op = false)
    (decodes : ∀ targets offset, decodeInsn pool targets ⟨offset, op :: operands⟩ = .ok insn) :
    Straight pool insn (op :: operands) where
  nonempty := by simp
  length offset after := length_of_fixed fixed offset (operands ++ after)
  branches offset := branches_of_not_isBranch still offset operands
  decodes := decodes

/-- Whether the operands of an instruction stand in its own bytes, or its code implies them. -/
def hasOwnOperand (op : Opcode) : Bool :=
  Opcode.between Opcode.iconstM1 Opcode.dconst1 op || op == Opcode.bipush || op == Opcode.sipush ||
    op.isLoadOrStore || op == Opcode.ret || Opcode.between Opcode.iload0 Opcode.aload3 op ||
    Opcode.between Opcode.istore0 Opcode.astore3 op || op == Opcode.iinc || op == Opcode.wide ||
    op == Opcode.newarray

theorem between_sub_between : ∀ op : Opcode,
    Opcode.between Opcode.iconstM1 Opcode.dconst1 op = false →
      Opcode.between Opcode.iconstM1 Opcode.iconst5 op = false ∧
      Opcode.between Opcode.lconst0 Opcode.lconst1 op = false ∧
      Opcode.between Opcode.fconst0 Opcode.fconst2 op = false ∧
      Opcode.between Opcode.dconst0 Opcode.dconst1 op = false :=
  forall_opcode (by decide)

theorem decodeOwn?_of_not_hasOwnOperand {op : Opcode} (without : hasOwnOperand op = false)
    (offset : Nat) (operands : List UInt8) :
    decodeOwn? ⟨offset, op :: operands⟩ =
      if op.isPlain then some (.ok (.simple op)) else none := by
  simp only [hasOwnOperand, Bool.or_eq_false_iff, beq_eq_false_iff_ne] at without
  obtain ⟨⟨⟨⟨⟨⟨⟨⟨⟨const, bipush⟩, sipush⟩, access⟩, ret⟩, load⟩, store⟩, iinc⟩, wide⟩, newarray⟩ :=
    without
  obtain ⟨iconst, lconst, fconst, dconst⟩ := between_sub_between _ const
  simp [decodeOwn?, Tile.op, iconst, lconst, fconst, dconst, bipush, sipush, access, ret, load,
    store, iinc, wide, newarray]

theorem decodeInsn_of_own {pool : Pool} {targets : List Nat} {t : Tile} {insn : Insn}
    (own : decodeOwn? t = some (.ok insn)) : decodeInsn pool targets t = .ok insn := by
  simp only [decodeInsn, own]
  rfl

/-- Whether an instruction refers to the constant pool. -/
def isPooled (op : Opcode) : Bool :=
  Opcode.between Opcode.ldc Opcode.ldc2W op || Opcode.between Opcode.getstatic Opcode.new op ||
    op == Opcode.anewarray || op == Opcode.checkcast || op == Opcode.instanceof ||
    op == Opcode.multianewarray

theorem isPooled_cases : ∀ op : Opcode, isPooled op = true →
    isBranch op = false ∧ hasOwnOperand op = false ∧ op.isPlain = false :=
  forall_opcode (by decide)

theorem decodeInsn_of_isPooled {op : Opcode} (pooled : isPooled op = true) (pool : Pool)
    (targets : List Nat) (offset : Nat) (operands : List UInt8) :
    decodeInsn pool targets ⟨offset, op :: operands⟩ =
      decodePooled pool ⟨offset, op :: operands⟩ := by
  obtain ⟨still, without, notPlain⟩ := isPooled_cases op pooled
  simp only [isBranch, Bool.or_eq_false_iff, beq_eq_false_iff_ne] at still
  obtain ⟨⟨⟨short, wide⟩, table⟩, lookup⟩ := still
  simp only [decodeInsn, decodeOwn?_of_not_hasOwnOperand without, notPlain, decodeBranch?, Tile.op,
    List.headD_cons, short, wide, table, lookup, Bool.false_eq_true, if_false]

/-! Instructions without operands. -/

theorem isPlain_cases : ∀ op : Opcode, op.isPlain = true →
    fixedLength? op = some 1 ∧ isBranch op = false ∧ hasOwnOperand op = false :=
  forall_opcode (by decide)

theorem straight_simple (pool : Pool) {op : Opcode} (plain : op.isPlain = true) :
    Straight pool (.simple op) [op] := by
  obtain ⟨fixed, still, without⟩ := isPlain_cases op plain
  refine .of_fixed fixed still fun targets offset => decodeInsn_of_own ?_
  rw [decodeOwn?_of_not_hasOwnOperand without, if_pos plain]

/-! Instructions that refer to the constant pool. -/

theorem poolIndex_of_withIndex (op : Opcode) (index : UInt16) (offset : Nat)
    (after : List UInt8) :
    poolIndex 1 ⟨offset, op :: (bytes16 index ++ after)⟩ = .ok index := by
  have read := u16At_append [op] index after
  rw [List.singleton_append] at read
  rw [poolIndex]
  show (u16At 1 (op :: (bytes16 index ++ after))).mapError _ = _
  rw [show 1 = [op].length from rfl, read]
  rfl

theorem isFieldAccess_cases : ∀ op : Opcode, op.isFieldAccess = true →
    isPooled op = true ∧ fixedLength? op = some 3 ∧ op ≠ Opcode.ldc ∧
      ¬(op = Opcode.ldcW ∨ op = Opcode.ldc2W) :=
  forall_opcode (by decide)

theorem isCall_cases : ∀ op : Opcode, op.isCall = true →
    isPooled op = true ∧ fixedLength? op = some (if op = Opcode.invokeinterface then 5 else 3) ∧
      op ≠ Opcode.ldc ∧ ¬(op = Opcode.ldcW ∨ op = Opcode.ldc2W) ∧ op.isFieldAccess = false :=
  forall_opcode (by decide)

theorem isClassOp_cases : ∀ op : Opcode, op.isClassOp = true →
    isPooled op = true ∧ fixedLength? op = some 3 ∧ op ≠ Opcode.ldc ∧
      ¬(op = Opcode.ldcW ∨ op = Opcode.ldc2W) ∧ op.isFieldAccess = false ∧ op.isCall = false ∧
      op ≠ Opcode.invokedynamic :=
  forall_opcode (by decide)

theorem straight_field {pool : Pool} {op : Opcode} {index : UInt16} {owner name desc : String}
    (access : op.isFieldAccess = true)
    (found : pool.member index = .ok ⟨owner, name, desc, false⟩) :
    Straight pool (.field op owner name desc) (withIndex op index) := by
  obtain ⟨pooled, fixed, ldc, ldcW⟩ := isFieldAccess_cases op access
  refine .of_fixed (by simpa using fixed) (isPooled_cases op pooled).1 fun targets offset => ?_
  have index := poolIndex_of_withIndex op index offset []
  rw [List.append_nil] at index
  rw [Opcode.isFieldAccess] at access
  rw [decodeInsn_of_isPooled pooled]
  simp only [decodePooled, Tile.op, List.headD_cons, ldc, ldcW, access, if_true, if_false, index,
    ok_bind, found, Pool.within_ok]
  rfl

theorem straight_invoke {pool : Pool} {op : Opcode} {index : UInt16} {owner name desc : String}
    {isInterface : Bool} {slots : List UInt8} (call : op.isCall = true)
    (found : pool.member index = .ok ⟨owner, name, desc, isInterface⟩)
    (extra : slots.length = if op = Opcode.invokeinterface then 2 else 0) :
    Straight pool (.invoke op owner name desc isInterface) (withIndex op index ++ slots) := by
  obtain ⟨pooled, fixed, ldc, ldcW, notField⟩ := isCall_cases op call
  rw [withIndex, List.cons_append]
  refine .of_fixed ?_ (isPooled_cases op pooled).1 fun targets offset => ?_
  · rw [fixed, List.length_append, length_bytes16, extra]
    split <;> rfl
  have index := poolIndex_of_withIndex op index offset slots
  rw [Opcode.isCall] at call
  rw [Opcode.isFieldAccess] at notField
  rw [decodeInsn_of_isPooled pooled]
  simp only [decodePooled, Tile.op, List.headD_cons, ldc, ldcW, notField, call, if_true, if_false,
    index, ok_bind, found, Pool.within_ok, Bool.false_eq_true]
  rfl

theorem straight_type {pool : Pool} {op : Opcode} {index : UInt16} {className : String}
    (type : op.isClassOp = true) (found : pool.ClassAt index className) :
    Straight pool (.type op className) (withIndex op index) := by
  obtain ⟨pooled, fixed, ldc, ldcW, notField, notCall, notDynamic⟩ := isClassOp_cases op type
  refine .of_fixed (by simpa using fixed) (isPooled_cases op pooled).1 fun targets offset => ?_
  have index := poolIndex_of_withIndex op index offset []
  rw [List.append_nil] at index
  rw [Opcode.isFieldAccess] at notField
  rw [Opcode.isCall] at notCall
  simp only [Opcode.isClassOp, Bool.or_eq_true, beq_iff_eq, or_assoc] at type
  rw [decodeInsn_of_isPooled pooled]
  simp only [decodePooled, Tile.op, List.headD_cons, ldc, ldcW, notField, notCall, notDynamic, type,
    if_true, if_false, index, ok_bind, Pool.className_of_at found, Pool.within_ok,
    Bool.false_eq_true]
  rfl

theorem straight_multiNewArray {pool : Pool} {index : UInt16} {desc : String} (dims : UInt8)
    (found : pool.ClassAt index desc) :
    Straight pool (.multiNewArray desc dims) (withIndex Opcode.multianewarray index ++ [dims]) := by
  rw [withIndex, List.cons_append]
  refine .of_fixed (by simp; decide) rfl fun targets offset => ?_
  have number := poolIndex_of_withIndex Opcode.multianewarray index offset [dims]
  have last := u8At_append (Opcode.multianewarray :: bytes16 index) dims []
  rw [List.length_cons, length_bytes16, List.cons_append] at last
  rw [decodeInsn_of_isPooled rfl]
  simp [decodePooled, Tile.op, Opcode.between, number, Pool.className_of_at found, last]
  rfl

theorem straight_newArray (pool : Pool) (code : UInt8) :
    Straight pool (.newArray code) [Opcode.newarray, code] := by
  refine .of_fixed rfl rfl fun targets offset => decodeInsn_of_own ?_
  have operand : u8At 1 [Opcode.newarray, code] = .ok code := u8At_append [_] code []
  show some ((u8At 1 [Opcode.newarray, code]).map Insn.newArray) = _
  rw [operand, ok_map]

/-! Constants. -/

theorem straight_pooled {pool : Pool} {op : Opcode} {index : UInt16} {insn : Insn}
    (wide : op = Opcode.ldcW ∨ op = Opcode.ldc2W) (found : pool.pushed index = .ok insn) :
    Straight pool insn (withIndex op index) := by
  have number (offset : Nat) := poolIndex_of_withIndex op index offset []
  rw [List.append_nil] at number
  rcases wide with rfl | rfl
  all_goals
    refine .of_fixed (by simp; decide) rfl fun targets offset => ?_
    show (poolIndex 1 _ >>= pool.pushed) = _
    rw [number, ok_bind, found]

theorem straight_pooledShort {pool : Pool} {index : UInt16} {short : UInt8} {insn : Insn}
    (fits : asByte? index = some short) (found : pool.pushed index = .ok insn) :
    Straight pool insn [Opcode.ldc, short] := by
  refine .of_fixed rfl rfl fun targets offset => ?_
  have operand : u8At 1 [Opcode.ldc, short] = .ok short := u8At_append [_] short []
  show ((u8At 1 [Opcode.ldc, short]).mapError _ >>= fun b => pool.pushed b.toUInt16) = _
  rw [operand]
  show pool.pushed short.toUInt16 = _
  rw [toUInt16_of_asByte? fits, found]

theorem iconst_cases : ∀ op : Opcode, Opcode.between Opcode.iconstM1 Opcode.iconst5 op = true →
    fixedLength? op = some 1 ∧ isBranch op = false :=
  forall_opcode (by decide)

theorem straight_smallInt (pool : Pool) {value : Int32} {content : List UInt8}
    (small : smallInt? value = some content) : Straight pool (.push (.int value)) content := by
  simp only [smallInt?] at small
  split at small
  · rename_i fits
    cases small
    have code : (UInt8.ofNat (value.toInt + 3).toNat).toNat = (value.toInt + 3).toNat := by
      rw [UInt8.toNat_ofNat', Nat.mod_eq_of_lt (by omega)]
    have range : Opcode.between Opcode.iconstM1 Opcode.iconst5
        (UInt8.ofNat (value.toInt + 3).toNat) = true := by
      simp only [Opcode.between, UInt8.le_iff_toNat_le, code, Bool.and_eq_true, decide_eq_true_eq]
      exact ⟨show 2 ≤ _ by omega, show _ ≤ 8 by omega⟩
    obtain ⟨fixed, still⟩ := iconst_cases _ range
    refine .of_fixed fixed still fun targets offset => decodeInsn_of_own ?_
    have back : Int32.ofInt (Int.ofNat (value.toInt + 3).toNat - 3) = value := by
      rw [Int.ofNat_eq_natCast, show ((value.toInt + 3).toNat : Int) - 3 = value.toInt by omega,
        Int32.ofInt_toInt]
    simp only [decodeOwn?, Tile.op, List.headD_cons, range, if_true, code, back]
  split at small
  · rename_i fits
    cases small
    refine .of_fixed rfl rfl fun targets offset => decodeInsn_of_own ?_
    have operand : u8At 1 [Opcode.bipush, value.toUInt32.toUInt8] = .ok _ := u8At_append [_] _ []
    show some ((u8At 1 [Opcode.bipush, _]).map fun b => Insn.push (.int b.toInt8.toInt32)) = _
    rw [operand, ok_map, widen_byte fits.1 fits.2]
  split at small
  · rename_i fits
    cases small
    refine .of_fixed (by simp; decide) rfl fun targets offset => decodeInsn_of_own ?_
    have operand : i16At 1 (Opcode.sipush :: (bytes16 value.toUInt32.toUInt16 ++ [])) = .ok _ :=
      i16At_append [_] value.toUInt32.toUInt16.toInt16 []
    rw [List.append_nil] at operand
    show some ((i16At 1 (Opcode.sipush :: bytes16 value.toUInt32.toUInt16)).map
      fun n => Insn.push (.int n.toInt32)) = _
    rw [operand, ok_map, widen_short fits.1 fits.2]
  · cases small

theorem straight_smallConstant (pool : Pool) {value : Constant} {content : List UInt8}
    (small : smallConstant? value = some content) : Straight pool (.push value) content := by
  cases value with
  | int value => exact straight_smallInt pool small
  | long value =>
    simp only [smallConstant?] at small
    split at small
    · rename_i zero
      cases small
      cases zero
      refine .of_fixed rfl rfl fun targets offset => decodeInsn_of_own ?_
      show some (Except.ok (Insn.push (.long
        (Int64.ofInt (Int.ofNat (Opcode.lconst0 - Opcode.lconst0).toNat))))) = _
      rfl
    split at small
    · rename_i one
      cases small
      cases one
      refine .of_fixed rfl rfl fun targets offset => decodeInsn_of_own ?_
      show some (Except.ok (Insn.push (.long
        (Int64.ofInt (Int.ofNat (Opcode.lconst1 - Opcode.lconst0).toNat))))) = _
      rfl
    · cases small
  | float bits =>
    obtain ⟨n, found, rfl⟩ := Option.map_eq_some_iff.1 small
    have same : smallFloat n = bits := by simpa using List.find?_some found
    have range := List.mem_range.1 (List.mem_of_find?_eq_some found)
    subst same
    interval_cases n
    all_goals
      refine .of_fixed rfl rfl fun targets offset => decodeInsn_of_own ?_
      show some (Except.ok (Insn.push (.float
        (smallFloat (Opcode.fconst0 + UInt8.ofNat _ - Opcode.fconst0).toNat)))) = _
      rfl
  | double bits =>
    obtain ⟨n, found, rfl⟩ := Option.map_eq_some_iff.1 small
    have same : smallDouble n = bits := by simpa using List.find?_some found
    have range := List.mem_range.1 (List.mem_of_find?_eq_some found)
    subst same
    interval_cases n
    all_goals
      refine .of_fixed rfl rfl fun targets offset => decodeInsn_of_own ?_
      show some (Except.ok (Insn.push (.double
        (smallDouble (Opcode.dconst0 + UInt8.ofNat _ - Opcode.dconst0).toNat)))) = _
      rfl
  | string value => cases small
  | classRef name => cases small

theorem encodePush_gives (value : Constant) :
    Gives (encodePush value) fun pool content => Straight pool (.push value) content := by
  unfold encodePush
  split
  · rename_i content small
    exact .pure fun pool => straight_smallConstant pool small
  · refine (PoolBuilder.addConstant_gives value).bind fun index => ?_
    split
    · exact .pure fun pool found => straight_pooled (.inr rfl) found.1
    split
    · rename_i short fits
      exact .pure fun pool found => straight_pooledShort fits found.1
    · exact .pure fun pool found => straight_pooled (.inl rfl) found.1

/-! Local variables. -/

/-- The access to a local variable that a code without operands stands for. -/
def unpack? (op : Opcode) : Option (Opcode × UInt8) :=
  if Opcode.between Opcode.iload0 Opcode.aload3 op then
    some (Opcode.iload + (op - Opcode.iload0) / 4, (op - Opcode.iload0) % 4)
  else if Opcode.between Opcode.istore0 Opcode.astore3 op then
    some (Opcode.istore + (op - Opcode.istore0) / 4, (op - Opcode.istore0) % 4)
  else none

theorem unpack?_cases : ∀ op : Opcode, (unpack? op).isSome →
    fixedLength? op = some 1 ∧ isBranch op = false ∧
      Opcode.between Opcode.iconstM1 Opcode.dconst1 op = false ∧ op ≠ Opcode.bipush ∧
      op ≠ Opcode.sipush ∧ op.isLoadOrStore = false ∧ op ≠ Opcode.ret :=
  forall_opcode (by decide)

theorem unpack?_load : ∀ op : Opcode, Opcode.between Opcode.iload Opcode.aload op = true →
    ∀ n < 4, unpack? (Opcode.iload0 + (op - Opcode.iload) * 4 + UInt8.ofNat n) =
      some (op, UInt8.ofNat n) :=
  forall_opcode (by decide)

theorem unpack?_store : ∀ op : Opcode, Opcode.between Opcode.istore Opcode.astore op = true →
    ∀ n < 4, unpack? (Opcode.istore0 + (op - Opcode.istore) * 4 + UInt8.ofNat n) =
      some (op, UInt8.ofNat n) :=
  forall_opcode (by decide)

theorem straight_packed (pool : Pool) {code op : Opcode} {short : UInt8}
    (unpacked : unpack? code = some (op, short)) :
    Straight pool (.var op short.toUInt16) [code] := by
  obtain ⟨fixed, still, const, bipush, sipush, access, ret⟩ :=
    unpack?_cases code (by rw [unpacked]; rfl)
  obtain ⟨iconst, lconst, fconst, dconst⟩ := between_sub_between _ const
  refine .of_fixed fixed still fun targets offset => decodeInsn_of_own ?_
  simp only [decodeOwn?, Tile.op, List.headD_cons, iconst, lconst, fconst, dconst, bipush, sipush,
    access, ret, decide_false, Bool.false_or, if_false, Bool.false_eq_true]
  unfold unpack? at unpacked
  split at unpacked
  · rename_i load
    cases unpacked
    rw [if_pos load]
  · rename_i notLoad
    rw [if_neg notLoad]
    split at unpacked
    · rename_i store
      cases unpacked
      rw [if_pos store]
    · cases unpacked

theorem isLocalAccess_cases : ∀ op : Opcode, op.isLocalAccess = true →
    fixedLength? op = some 2 ∧ isBranch op = false ∧
      Opcode.between Opcode.iconstM1 Opcode.dconst1 op = false ∧ op ≠ Opcode.bipush ∧
      op ≠ Opcode.sipush ∧ op ≠ Opcode.iinc :=
  forall_opcode (by decide)

theorem straight_short (pool : Pool) {op : Opcode} (access : op.isLocalAccess = true)
    (short : UInt8) :
    Straight pool (.var op short.toUInt16) [op, short] := by
  obtain ⟨fixed, still, const, bipush, sipush, -⟩ := isLocalAccess_cases op access
  obtain ⟨iconst, lconst, fconst, dconst⟩ := between_sub_between _ const
  have operand : u8At 1 [op, short] = .ok short := u8At_append [_] short []
  refine .of_fixed fixed still fun targets offset => decodeInsn_of_own ?_
  simp only [decodeOwn?, Tile.op, List.headD_cons, iconst, lconst, fconst, dconst, bipush, sipush,
    operand, ok_map, if_false, Bool.false_eq_true]
  have form : op.isLoadOrStore = true ∨ op = Opcode.ret := by
    simpa [Opcode.isLocalAccess] using access
  exact if_pos (Bool.or_eq_true_iff.2 (form.imp_right decide_eq_true))

/-- The form of an instruction with wide operands, whose own code stands second. -/
theorem straight_wide {pool : Pool} {insn : Insn} {op : Opcode} {operands : List UInt8}
    (size : operands.length = if op = Opcode.iinc then 4 else 2)
    (decodes : ∀ offset, decodeOwn? ⟨offset, Opcode.wide :: op :: operands⟩ = some (.ok insn)) :
    Straight pool insn (Opcode.wide :: op :: operands) where
  nonempty := by simp
  length offset after := by
    show (Except.ok (if op = Opcode.iinc then 6 else 4) : Except BytecodeError Nat) = _
    rw [List.length_cons, List.length_cons, size]
    split <;> rfl
  branches offset := branches_of_not_isBranch rfl offset _
  decodes targets offset := decodeInsn_of_own (decodes offset)

/-- What the `wide` form is decoded to. -/
theorem decodeOwn?_wide (op : Opcode) (index : UInt16) (offset : Nat) (after : List UInt8) :
    decodeOwn? ⟨offset, Opcode.wide :: op :: (bytes16 index ++ after)⟩ =
      some (if op = Opcode.iinc then
          (i16At 4 (Opcode.wide :: op :: (bytes16 index ++ after))).map (.iinc index)
        else .ok (.var op index)) := by
  have inner : u8At 1 (Opcode.wide :: op :: (bytes16 index ++ after)) = .ok op :=
    u8At_append [_] op _
  have number : u16At 2 (Opcode.wide :: op :: (bytes16 index ++ after)) = .ok index :=
    u16At_append [_, op] index after
  show some (u8At 1 _ >>= fun inner => u16At 2 _ >>= fun index =>
    if inner = Opcode.iinc then i16At 4 _ >>= fun delta => pure (Insn.iinc index delta)
    else pure (Insn.var inner index)) = _
  rw [inner, ok_bind, number, ok_bind]
  split <;> rfl

theorem straight_encodeLocal (pool : Pool) {op : Opcode} (access : op.isLocalAccess = true)
    (index : UInt16) : Straight pool (.var op index) (encodeLocal op index) := by
  unfold encodeLocal
  split
  · rename_i short fits
    rw [← toUInt16_of_asByte? fits]
    have range (small : short ≤ 3) : short.toNat < 4 :=
      Nat.lt_succ_of_le (UInt8.le_iff_toNat_le.1 small)
    split
    · rename_i load
      have unpacked := unpack?_load op load.2 _ (range load.1)
      rw [UInt8.ofNat_toNat] at unpacked
      exact straight_packed pool unpacked
    split
    · rename_i store
      have unpacked := unpack?_store op store.2 _ (range store.1)
      rw [UInt8.ofNat_toNat] at unpacked
      exact straight_packed pool unpacked
    · exact straight_short pool access short
  · obtain ⟨-, -, -, -, -, notIinc⟩ := isLocalAccess_cases op access
    refine straight_wide (by simp [notIinc]) fun offset => ?_
    have decoded := decodeOwn?_wide op index offset []
    rwa [List.append_nil, if_neg notIinc] at decoded

theorem straight_encodeIinc (pool : Pool) (index : UInt16) (delta : Int16) :
    Straight pool (.iinc index delta) (encodeIinc index delta) := by
  have wide : Straight pool (.iinc index delta)
      (Opcode.wide :: (withIndex Opcode.iinc index ++ bytes16 delta.toUInt16)) := by
    refine straight_wide (by simp) fun offset => ?_
    have operand : i16At 4 (Opcode.wide :: Opcode.iinc ::
        (bytes16 index ++ (bytes16 delta.toUInt16 ++ []))) = .ok delta := by
      have := i16At_append (Opcode.wide :: Opcode.iinc :: bytes16 index) delta []
      rwa [List.length_cons, List.length_cons, length_bytes16] at this
    rw [List.append_nil] at operand
    refine (decodeOwn?_wide Opcode.iinc index offset (bytes16 delta.toUInt16)).trans ?_
    rw [if_pos rfl, operand, ok_map]
  simp only [encodeIinc]
  split
  · rename_i i fits
    split
    · rename_i short
      rw [← toUInt16_of_asByte? fits]
      refine .of_fixed rfl rfl fun targets offset => decodeInsn_of_own ?_
      have first : u8At 1 [Opcode.iinc, i, delta.toUInt16.toUInt8] = .ok i := u8At_append [_] i _
      have second : u8At 2 [Opcode.iinc, i, delta.toUInt16.toUInt8] = .ok _ :=
        u8At_append [_, i] _ []
      show some (u8At 1 _ >>= fun index => u8At 2 _ >>= fun delta =>
        pure (Insn.iinc index.toUInt16 delta.toInt8.toInt16)) = _
      rw [first, ok_bind, second, ok_bind, widen_byte_to_short short.1 short.2]
      rfl
    · exact wide
  · exact wide

/-! All instructions. -/

/-- What becomes of an instruction before its labels have offsets. -/
inductive Lowers (pool : Pool) : Insn → Piece → Prop
  | label (l : Label) : Lowers pool (.label l) (.label l)
  | line (number : UInt16) : Lowers pool (.line number) (.line number)
  | straight {insn : Insn} {content : List UInt8} (real : insn.isPseudo = false)
      (straight : Straight pool insn content) (still : insn.branchTargets = []) :
      Lowers pool insn (.bytes content)
  | jump {op : Opcode} (target : Label) (short : op.isShortJump = true) :
      Lowers pool (.jump op target) (.branch op target)
  | table {low high : Int32} (default : Label) {targets : List Label}
      (count : high.toInt - low.toInt + 1 = targets.length) :
      Lowers pool (.tableSwitch low high default targets) (.table low high default targets)
  | lookup (default : Label) (pairs : List (Int32 × Label)) :
      Lowers pool (.lookupSwitch default pairs) (.lookup default pairs)

theorem length_of_interfaceSlots {desc : String} {slots : List UInt8}
    (h : interfaceSlots desc = .ok slots) : slots.length = 2 := by
  obtain ⟨type, -, h⟩ := bind_eq_ok h
  split at h
  · cases h
    rfl
  · cases h

theorem toPiece_gives (insn : Insn) :
    Gives (toPiece insn) fun pool piece => insn.WellFormed → Lowers pool insn piece := by
  cases insn with
  | label l => exact .pure fun _ _ => .label l
  | line number => exact .pure fun _ _ => .line number
  | jump op target => exact .pure fun _ formed => .jump target formed
  | tableSwitch low high default targets => exact .pure fun _ formed => .table default formed
  | lookupSwitch default pairs => exact .pure fun _ _ => .lookup default pairs
  | simple op => exact .pure fun pool formed => .straight rfl (straight_simple pool formed) rfl
  | push value =>
    refine (encodePush_gives value).bind fun content => ?_
    exact .pure fun pool straight _ => .straight rfl straight rfl
  | var op index =>
    exact .pure fun pool formed => .straight rfl (straight_encodeLocal pool formed index) rfl
  | iinc index delta =>
    exact .pure fun pool _ => .straight rfl (straight_encodeIinc pool index delta) rfl
  | field op owner name desc =>
    refine (PoolBuilder.addField_gives owner name desc).bind fun index => ?_
    exact .pure fun pool found formed => .straight rfl (straight_field formed found) rfl
  | invoke op owner name desc isInterface =>
    refine (PoolBuilder.addMethod_gives owner name desc isInterface).bind fun index => ?_
    split
    · rename_i interface
      cases slots : interfaceSlots desc with
      | error e => exact .throw e
      | ok slots =>
        have extra := length_of_interfaceSlots (by assumption)
        exact .pure fun pool found formed =>
          .straight rfl (straight_invoke formed found (extra.trans (if_pos interface).symm)) rfl
    · rename_i plain
      refine .pure fun pool found formed => ?_
      have straight : Straight pool _ (withIndex op index ++ []) :=
        straight_invoke formed found (if_neg plain).symm
      rw [List.append_nil] at straight
      exact .straight rfl straight rfl
  | type op className =>
    refine (PoolBuilder.addClass_gives className).bind fun index => ?_
    exact .pure fun pool found formed => .straight rfl (straight_type formed found) rfl
  | newArray code => exact .pure fun pool _ => .straight rfl (straight_newArray pool code) rfl
  | multiNewArray desc dims =>
    refine (PoolBuilder.addClass_gives desc).bind fun index => ?_
    exact .pure fun pool found _ => .straight rfl (straight_multiNewArray dims found) rfl
  | foreign op detail => exact .throw _

theorem toPieces_gives (insns : List Insn) (index : Nat) :
    Gives (toPieces index insns) fun pool pieces =>
      (∀ insn ∈ insns, insn.WellFormed) → List.Forall₂ (Lowers pool) insns pieces := by
  induction insns generalizing index with
  | nil => exact .pure fun _ _ => .nil
  | cons insn insns ih =>
    refine ((toPiece_gives insn).rethrow _).bind fun piece => (ih (index + 1)).bind fun pieces => ?_
    refine .pure fun _ rest first formed => ?_
    obtain ⟨here, later⟩ := List.forall_mem_cons.1 formed
    exact .cons (first here) (rest later)

end JvmPatch.Bytecode
