import JvmPatch.Proofs.Listing.Reading
import JvmPatch.Proofs.Script.Parsing

/-! What a listing shows for an instruction of a body is read as a pattern that matches the
instruction. The only exception are infinite numbers of single precision: the last letter of the
word for infinity is taken for the mark of the precision. -/

set_option autoImplicit false

namespace JvmPatch

namespace Insn

/-- The names and types in an instruction mean themselves in a script, and its constant is a
number. -/
def IsSpelledOut : Insn → Prop
  | .push (.float bits) => Decimal.BinaryFormat.single.value bits.toNat ≠ .nan
  | .push (.double bits) => Decimal.BinaryFormat.double.value bits.toNat ≠ .nan
  | .push (.classRef name) => IsPlainOperand name
  | .field _ owner name desc => IsPlainName owner ∧ IsPlainName name ∧ IsPlainType desc
  | .invoke _ owner name desc _ => IsPlainName owner ∧ IsPlainName name ∧ IsPlainMethodType desc
  | .type _ className => IsPlainOperand className
  | .multiNewArray desc _ => IsPlainType desc
  | _ => True

/-- The instruction pushes an infinite number of single precision. -/
def PushesInfiniteSingle : Insn → Prop
  | .push (.float bits) =>
    ∃ negative, Decimal.BinaryFormat.single.value bits.toNat = .infinite negative
  | _ => False

/-- An instruction that returns is the one for methods of a type. -/
def ReturnsAs (type : MethodDesc) : Insn → Prop
  | .simple op => op.isReturn = true → op = type.returnOp
  | _ => True

end Insn

namespace ListedInsn

variable {names : LabelNames} {insn : Insn} {i : ListedInsn} {type : MethodDesc}

/-- Lines are shown for codes that belong to their form. -/
theorem isRegular_of_ofKind {kind : PatternKind} {operands : List String}
    (shown : ofKind kind operands = some i) :
    kind.isRegular = true := by
  obtain ⟨name, named, -⟩ := Option.map_eq_some_iff.1 shown
  exact PatternKind.isRegular_of_ofName? (PatternKind.ofName?_of_name? named).2

theorem isPlain_of_shown (shown : ofInsn names insn = some i) (visible : i.isComment = false)
    (spelled : insn.IsSpelledOut) (fits : insn.ReturnsAs type)
    (noInfinity : ¬insn.PushesInfiniteSingle) :
    insn.IsPlain type := by
  cases insn with
  | line => cases shown
  | foreign =>
    cases shown
    cases visible
  | simple op =>
    refine ⟨?_, fits⟩
    rw [ofInsn] at shown
    split at shown
    · rename_i isReturn
      simp [Opcode.isPlain, isReturn]
    · split at shown
      · exact isRegular_of_ofKind ‹_›
      · cases shown
        cases visible
  | push value =>
    cases value with
    | float bits =>
      cases number : Decimal.BinaryFormat.single.value bits.toNat with
      | nan => exact absurd number spelled
      | infinite negative => exact absurd ⟨negative, number⟩ noInfinity
      | finite negative mantissa shift => exact ⟨negative, mantissa, shift, number⟩
    | double bits => exact spelled
    | classRef name => exact spelled
    | int | long | string => trivial
  | var | jump => exact isRegular_of_ofKind shown
  | field => exact ⟨isRegular_of_ofKind shown, spelled⟩
  | invoke => exact ⟨isRegular_of_ofKind shown, spelled⟩
  | type op className =>
    refine ⟨?_, spelled⟩
    rw [ofInsn] at shown
    split at shown
    · rename_i same
      rw [same]
      rfl
    · exact isRegular_of_ofKind shown
  | newArray code =>
    change (TypeDesc.ofArrayCode? code).isSome = true
    rw [ofInsn] at shown
    split at shown
    · rename_i known
      rw [known]
      rfl
    · cases shown
      cases visible
  | multiNewArray => exact spelled
  | label | iinc | tableSwitch | lookupSwitch => trivial

theorem shows_of_shown (shown : ofInsn names insn = some i) : names.shows insn = true := by
  cases insn with
  | line => cases shown
  | label l =>
    obtain ⟨name, named, -⟩ := Option.map_eq_some_iff.1 shown
    exact Option.isSome_iff_exists.2 ⟨name, named⟩
  | _ => rfl

/-- What is read from the line that pushes an infinite number of single precision. -/
def infinityCommand (negative : Bool) : Command :=
  ⟨.keep, "push-float".toList, Text.words (' ' :: if negative then "-inf".toList else "inf".toList)⟩

theorem parse_infiniteSingle {bits : UInt32} {negative : Bool}
    (infinite : Decimal.BinaryFormat.single.value bits.toNat = .infinite negative) :
    Command.parse ('.' :: (ofConstant (.float bits)).toList) = .ok (infinityCommand negative) := by
  have mnemonic : PatternKind.IsMnemonic "push-float" := by decide
  have line : (ofConstant (.float bits)).toList =
      "push-float".toList ++ ' ' :: if negative then "-inf".toList else "inf".toList := by
    rw [ofConstant, String.toList_append, floatText, Decimal.BinaryFormat.text_of_infinite infinite]
    rfl
  rw [line, Command.parse_named mnemonic.word mnemonic.small (.space _)]
  rfl

/-- The line loses the last letter of the word for infinity, and what is left is no number. -/
theorem compile_infinityCommand (negative : Bool) :
    Pattern.compile .pushFloat (infinityCommand negative).params
      ((infinityCommand negative).textFrom 0) [] =
      .error (.float (if negative then "-in".toList else "in".toList) .invalid) := by
  cases negative <;> decide

/-- An instruction of a body that is shown, and not as a comment, is read as a pattern that matches
it where no name has been bound, unless it pushes an infinite number of single precision. -/
theorem ofInsn_isRecognized {code : Code} (member : insn ∈ code.insns)
    (shown : ofInsn (.ofCode code) insn = some i) (visible : i.isComment = false)
    (spelled : insn.IsSpelledOut) (fits : insn.ReturnsAs type) :
    ∃ c kind, Command.parse ('.' :: i.line.toList) = .ok c ∧
      PatternKind.ofName? c.name = some kind ∧
      ((∃ p, Pattern.compile kind c.params (c.textFrom 0) (i.lines.map String.toList) = .ok p ∧
          ∀ classes body, ∃ later,
            ((BodyContext.mk classes body type).matchInsn p insn).run {} = (true, later)) ↔
        ¬insn.PushesInfiniteSingle) := by
  by_cases infinite : insn.PushesInfiniteSingle
  · obtain ⟨bits, rfl⟩ : ∃ bits, insn = .push (.float bits) := by
      cases insn with
      | push value =>
        cases value with
        | float bits => exact ⟨bits, rfl⟩
        | _ => exact infinite.elim
      | _ => exact infinite.elim
    obtain ⟨negative, isInfinite⟩ := infinite
    obtain rfl := Option.some.inj shown
    have named : PatternKind.pushFloat.name? = some "push-float" := rfl
    refine ⟨infinityCommand negative, .pushFloat, parse_infiniteSingle isInfinite,
      (PatternKind.ofName?_of_name? named).2, ?_⟩
    refine iff_of_false ?_ fun finite => finite ⟨negative, isInfinite⟩
    rintro ⟨p, compiled, -⟩
    exact nomatch (compile_infinityCommand negative).symm.trans compiled
  · obtain ⟨j, p, same, isRead, depicts⟩ := ofInsn_isReadBack
      (isPlain_of_shown shown visible spelled fits infinite) (shows_of_shown shown) fun l target =>
        Code.isSome_name? (List.mem_append_left _ (List.mem_flatMap.2 ⟨insn, member, target⟩))
    obtain rfl := Option.some.inj (shown.symm.trans same)
    obtain ⟨c, kind, parsed, -, -, -, named, compiled, -⟩ := isRead.reads
    refine ⟨c, kind, parsed, named, iff_of_true ⟨p, compiled, fun classes body => ?_⟩ infinite⟩
    have follows : Scope.FollowsNames (.ofCode code) body {} := fun e member => nomatch member
    obtain ⟨later, ran, -⟩ :=
      @BodyContext.matchInsn_recognizes ⟨classes, body, type⟩ _ _ _ depicts {} follows
    exact ⟨later, ran⟩

def switchingLoop : Code :=
  { insns := [.label ⟨3⟩, .push (.int 7), .lookupSwitch ⟨3⟩ [(-1, ⟨3⟩)]], nextLabel := 4 }

theorem ofInsn_isRecognized_switchingLoop :
    ∃ c kind p, Command.parse ".switch-lookup ~label-A".toList = .ok c ∧
      PatternKind.ofName? c.name = some kind ∧
      Pattern.compile kind c.params (c.textFrom 0) ["-1:~label-A".toList] = .ok p ∧
      ∀ classes body, ∃ later, ((BodyContext.mk classes body ⟨[], .void⟩).matchInsn p
        (.lookupSwitch ⟨3⟩ [(-1, ⟨3⟩)])).run {} = (true, later) := by
  have shown : ofInsn (.ofCode switchingLoop) (.lookupSwitch ⟨3⟩ [(-1, ⟨3⟩)]) =
      some ⟨"switch-lookup ~label-A", ["-1:~label-A"], some "switch-lookup", false⟩ := by
        decide +kernel
  have member : .lookupSwitch ⟨3⟩ [(-1, ⟨3⟩)] ∈ switchingLoop.insns := by simp [switchingLoop]
  obtain ⟨c, kind, parsed, named, reads⟩ :=
    @ofInsn_isRecognized _ _ ⟨[], .void⟩ _ member shown rfl trivial trivial
  obtain ⟨p, compiled, recognizes⟩ := reads.2 id
  exact ⟨c, kind, p, parsed, named, compiled, recognizes⟩

/-- The line for the push of positive infinity is not read. -/
theorem infiniteSingle_isNotRead :
    ∃ c, ofInsn (.ofCode { insns := [.push (.float 0x7f800000)] }) (.push (.float 0x7f800000)) =
        some { line := "push-float inf" } ∧
      Command.parse ".push-float inf".toList = .ok c ∧
        PatternKind.ofName? c.name = some .pushFloat ∧
      Pattern.compile .pushFloat c.params (c.textFrom 0) [] =
        .error (.float "in".toList .invalid) :=
  ⟨infinityCommand false, by decide +kernel, by decide, by decide, compile_infinityCommand false⟩

end ListedInsn

end JvmPatch
