import JvmPatch.Pattern.Instantiate
import JvmPatch.Proofs.Steps

/-! The form of the instruction that a pattern stands for when it is added. -/

set_option autoImplicit false

namespace JvmPatch

/-- An instruction of the form that a pattern asks for: with the same code and, if it is a switch,
with the same bounds or keys and as many targets. -/
inductive Pattern.Gives : Pattern → Insn → Prop where
  | label {l : LabelRef} {placed : Label} : Gives (.label l) (.label placed)
  | single {op : Opcode} : Gives (.single op) (.simple op)
  | ret {op : Opcode} : op.isReturn = true → Gives .ret (.simple op)
  | pushInt {v : Operand Int32} {value : Constant} : Gives (.pushInt v) (.push value)
  | pushLong {v : Operand Int64} {value : Constant} : Gives (.pushLong v) (.push value)
  | pushFloat {v : Operand UInt32} {value : Constant} : Gives (.pushFloat v) (.push value)
  | pushDouble {v : Operand UInt64} {value : Constant} : Gives (.pushDouble v) (.push value)
  | pushString {v : Operand String} {value : Constant} : Gives (.pushString v) (.push value)
  | pushClass {t : Operand TypeDesc} {value : Constant} : Gives (.pushClass t) (.push value)
  | var {op : Opcode} {i : Operand UInt16} {index : UInt16} : Gives (.var op i) (.var op index)
  | incInt {i : Operand UInt16} {d : Operand Int16} {index : UInt16} {delta : Int16} :
      Gives (.incInt i d) (.iinc index delta)
  | jump {op : Opcode} {l : LabelRef} {target : Label} : Gives (.jump op l) (.jump op target)
  | tableSwitch {low high : Int32} {d : LabelRef} {ls : List LabelRef} {default : Label}
      {targets : List Label} : targets.length = ls.length →
      Gives (.tableSwitch (.is low) (.is high) d ls) (.tableSwitch low high default targets)
  | lookupSwitch {d : LabelRef} {cases : List (Operand Int32 × LabelRef)} {default : Label}
      {pairs : List (Int32 × Label)} :
      (pairs.map fun p => Operand.is p.1) = cases.map Prod.fst →
      Gives (.lookupSwitch d cases) (.lookupSwitch default pairs)
  | field {op : Opcode} {o n : Ident} {t : TypeDesc} {raw owner name desc : String} :
      Gives (.field op o n t raw) (.field op owner name desc)
  | invoke {op : Opcode} {o n : Ident} {t : MethodDesc} {raw owner name desc : String}
      {isInterface : Bool} : Gives (.invoke op o n t raw) (.invoke op owner name desc isInterface)
  | type {op : Opcode} {t : Operand TypeDesc} {className : String} :
      Gives (.type op t) (.type op className)
  | newArray {t : Operand TypeDesc} {code : UInt8} : Gives (.newArray t) (.newArray code)
  | newObjectArray {t : Operand TypeDesc} {className : String} :
      Gives (.newArray t) (.type Opcode.anewarray className)
  | newArrayMulti {t : Operand TypeDesc} {d : Operand UInt8} {desc : String} {dims : UInt8} :
      Gives (.newArrayMulti t d) (.multiNewArray desc dims)

/-- Something holds of what a step builds if it builds something. -/
def Builds {α : Type} (Q : α → Prop) (m : InstantiateM α) : Prop :=
  ∀ names x later, m.run names = .ok x later → Q x

namespace Builds

variable {α β : Type} {P : α → Prop} {Q : β → Prop}

protected theorem pure {x : α} (holds : P x) : Builds P (pure x) := by
  intro names y later ran
  cases ran
  exact holds

protected theorem throw (e : InstantiateError) : Builds P (throw e : InstantiateM α) :=
  fun _ _ _ ran => nomatch ran

theorem bind {m : InstantiateM α} {next : α → InstantiateM β} (first : Builds P m)
    (rest : ∀ x, P x → Builds Q (next x)) : Builds Q (m >>= next) := by
  intro names y later ran
  obtain ⟨x, middle, one, two⟩ := run_bind_ok ran
  exact rest x (first names x middle one) middle y later two

theorem after {m : InstantiateM α} {next : α → InstantiateM β} (rest : ∀ x, Builds Q (next x)) :
    Builds Q (m >>= next) :=
  bind (P := fun _ => True) (fun _ _ _ _ => trivial) fun x _ => rest x

theorem mapM {R : α → β → Prop} {f : α → InstantiateM β} {xs : List α}
    (each : ∀ x ∈ xs, Builds (R x) (f x)) : Builds (List.Forall₂ R xs) (xs.mapM f) := by
  induction xs with
  | nil => exact .pure .nil
  | cons x xs ih =>
    rw [List.mapM_cons]
    refine (each x List.mem_cons_self).bind fun y one => ?_
    exact (ih fun x' member => each x' (.tail _ member)).bind fun ys rest => .pure (.cons one rest)

end Builds

theorem MethodDesc.isReturn_returnOp (m : MethodDesc) : m.returnOp.isReturn = true := by
  unfold returnOp TypeDesc.returnOp
  split
  · rfl
  · split <;> rfl

namespace BodyContext

theorem value_builds {α : Type} (o : Operand α) : Builds (fun x => o = .is x) o.value := by
  cases o with
  | any => exact .throw _
  | is x => exact .pure rfl

/-- What is added for a pattern has the form that the pattern asks for. -/
theorem instantiate_gives (cx : BodyContext) (pattern : Pattern) :
    Builds pattern.Gives (cx.instantiate pattern) := by
  unfold instantiate
  split
  case h_1 | h_2 => exact .throw _
  case h_3 => exact .after fun _ => .pure .label
  case h_4 => exact .pure .single
  case h_5 => exact .pure (.ret cx.type.isReturn_returnOp)
  case h_6 => exact .after fun _ => .pure .pushInt
  case h_7 => exact .after fun _ => .pure .pushLong
  case h_8 => exact .after fun _ => .pure .pushFloat
  case h_9 => exact .after fun _ => .pure .pushDouble
  case h_10 => exact .after fun _ => .pure .pushString
  case h_11 => exact .after fun _ => .after fun _ => .pure .pushClass
  case h_12 => exact .after fun _ => .pure .var
  case h_13 => exact .after fun _ => .after fun _ => .pure .incInt
  case h_14 => exact .after fun _ => .pure .jump
  case h_15 low high default targets =>
    refine (value_builds low).bind fun _ isLow => (value_builds high).bind fun _ isHigh => ?_
    subst isLow isHigh
    refine .after fun _ => (Builds.mapM (R := fun _ _ => True) fun _ _ _ _ _ _ => trivial).bind
      fun ls each => .pure (.tableSwitch each.length_eq.symm)
  case h_16 default cases =>
    refine .after fun _ => (Builds.mapM (R := fun c p => c.1 = .is p.1) fun c _ => ?_).bind
      fun pairs each => .pure (.lookupSwitch ?_)
    · exact (value_builds c.1).bind fun key isKey => .after fun _ => .pure isKey
    · clear * - each
      induction each with
      | nil => rfl
      | cons one _ ih => rw [List.map_cons, List.map_cons, one, ih]
  case h_17 => exact .after fun _ => .after fun _ => .after fun _ => .pure .field
  case h_18 => exact .after fun _ => .after fun _ => .after fun _ => .pure .invoke
  case h_19 => exact .after fun _ => .after fun _ => .pure .type
  case h_20 =>
    refine .after fun element => ?_
    split
    · exact .pure .newArray
    · exact .after fun _ => .pure .newObjectArray
  case h_21 =>
    refine .after fun t => .after fun type => ?_
    split
    · exact .after fun _ => .pure .newArrayMulti
    · exact .throw _

end BodyContext

end JvmPatch
