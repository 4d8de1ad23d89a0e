import JvmPatch.Listing.Line
import JvmPatch.Proofs.Listing.Walking
import JvmPatch.Proofs.Pattern.Mnemonics
import JvmPatch.Proofs.Pattern.Operands
import JvmPatch.Proofs.Text.Quoted
import JvmPatch.Script.Parser

/-! What a listing shows for an instruction is read as a pattern that says all about it. -/

set_option autoImplicit false

namespace JvmPatch

/-! ### What can be spelled out -/

/-- A name that means itself in a script: a word that is neither weak nor the star. -/
structure IsPlainName (name : String) : Prop where
  word : Text.IsWord name.toList
  strong : isWeakName name = false
  one : name ≠ "*"

/-- The operand of a class instruction that means itself in a script. -/
structure IsPlainOperand (operand : String) : Prop where
  plain : IsPlainName operand
  parses : ∃ t, TypeDesc.parseOperand operand = .ok t ∧ t.IsStrong

/-- The descriptor of a type that means itself in a script. -/
structure IsPlainType (desc : String) : Prop where
  word : Text.IsWord desc.toList
  parses : ∃ t, TypeDesc.parse desc = .ok t ∧ t.IsStrong

/-- The descriptor of a method type that means itself in a script. -/
structure IsPlainMethodType (desc : String) : Prop where
  word : Text.IsWord desc.toList
  parses : ∃ t, MethodDesc.parse desc = .ok t ∧ t.IsStrong

/-- A constant that scripts can spell out. -/
def Constant.IsPlain : Constant → Prop
  | .float bits => ∃ negative mantissa shift,
      Decimal.BinaryFormat.single.value bits.toNat = .finite negative mantissa shift
  | .double bits => Decimal.BinaryFormat.double.value bits.toNat ≠ .nan
  | .classRef name => IsPlainOperand name
  | _ => True

/-- An instruction that scripts can spell out in a method of a given type. -/
def Insn.IsPlain (type : MethodDesc) : Insn → Prop
  | .simple op => op.isPlain = true ∧ (op.isReturn = true → op = type.returnOp)
  | .push value => value.IsPlain
  | .var op _ => op.isLocalAccess = true
  | .field op owner name desc =>
    op.isFieldAccess = true ∧ IsPlainName owner ∧ IsPlainName name ∧ IsPlainType desc
  | .invoke op owner name desc _ =>
    op.isCall = true ∧ IsPlainName owner ∧ IsPlainName name ∧ IsPlainMethodType desc
  | .type op className => op.isClassOp = true ∧ IsPlainOperand className
  | .newArray code => (TypeDesc.ofArrayCode? code).isSome = true
  | .multiNewArray desc _ => IsPlainType desc
  | .jump op _ => op.isShortJump = true
  | .foreign .. => False
  | _ => True

namespace IsPlainName

variable {name : String}

theorem ofChars (plain : IsPlainName name) : Ident.ofChars name.toList = ⟨name, false⟩ := by
  have strong := plain.strong
  unfold Ident.ofChars
  split
  · rename_i s same
    rw [isWeakName, same] at strong
    cases strong
  · rw [String.ofList_toList]

theorem ne_star (plain : IsPlainName name) : name.toList ≠ ['*'] := fun same =>
  plain.one (by rw [← String.ofList_toList (s := name), same])

end IsPlainName

/-! ### Commands -/

theorem Mode.ofMark?_mark (mode : Mode) : ofMark? mode.mark = some mode := by
  cases mode <;> rfl

/-- A line that starts with a name is split into the name and the words after it. -/
theorem Command.parse_marked (mode : Mode) {name rest : List Char} (word : Text.IsWord name)
    (small : name.map Text.lowerAscii = name) (apart : Text.StartsApart rest) :
    Command.parse (mode.mark :: (name ++ rest)) = .ok ⟨mode, name, Text.words rest⟩ := by
  obtain ⟨c, s, rfl, noBlank⟩ := word.exists_cons
  have split := Text.words_append word apart
  rw [List.cons_append] at split
  rw [Command.parse, mode.ofMark?_mark, List.cons_append]
  dsimp only
  rw [if_neg (by simp [noBlank]), split]
  simp only [small]

theorem Command.parse_named {name rest : List Char} (word : Text.IsWord name)
    (small : name.map Text.lowerAscii = name) (apart : Text.StartsApart rest) :
    Command.parse ('.' :: (name ++ rest)) = .ok ⟨.keep, name, Text.words rest⟩ :=
  parse_marked .keep word small apart

/-- What a listing shows for an instruction is read as a pattern. -/
structure ListedInsn.IsReadAs (i : ListedInsn) (p : Pattern) : Prop where
  isShown : i.isComment = false
  isLine : Text.IsLine i.line.toList
  last : ∀ c ∈ i.line.toList.getLast?, Text.isBlank c = false
  reads : ∃ c kind, Command.parse ('.' :: i.line.toList) = .ok c ∧ c.mode = .keep ∧
    Text.IsWord c.name ∧ c.nameText ≠ "end-method" ∧ PatternKind.ofName? c.name = some kind ∧
    Pattern.compile kind c.params (c.textFrom 0) (i.lines.map String.toList) = .ok p ∧
    (if kind.takesLines then i.closing = some c.nameText else i.closing = none ∧ i.lines = [])
  /-- The lines of a switch are words, and none of them closes it or is a comment. -/
  lines : ∀ l ∈ i.lines, Text.IsWord l.toList ∧ ∀ c ∈ l.toList.head?, c ≠ '.' ∧ c ≠ '/'

namespace ListedInsn.IsReadAs

variable {kind : PatternKind} {name : String} {i : ListedInsn} {p : Pattern}

/-- A line of words is read if the kind that its mnemonic names takes the words after it. -/
theorem ofWords (named : kind.name? = some name) (operands : List (List Char))
    (words : ∀ w ∈ operands, Text.IsWord w)
    (line : i.line.toList = name.toList ++ Text.spaced operands) (isShown : i.isComment = false)
    (lines : ∀ l ∈ i.lines, Text.IsWord l.toList ∧ ∀ c ∈ l.toList.head?, c ≠ '.' ∧ c ≠ '/')
    (closing : if kind.takesLines then i.closing = some name else i.closing = none ∧ i.lines = [])
    (compiles : ∀ text, Pattern.compile kind operands text (i.lines.map String.toList) = .ok p) :
    i.IsReadAs p := by
  obtain ⟨mnemonic, isRead⟩ := PatternKind.ofName?_of_name? named
  have apart : Text.StartsApart (Text.spaced operands) := by
    simpa using Text.startsApart_spaced operands .nil
  refine ⟨isShown, ?_, ?_, ?_, lines⟩
  · rw [line]
    exact mnemonic.word.isLine.append (Text.isLine_spaced words)
  · rw [line]
    exact Text.getLast?_spaced mnemonic.word words
  · refine ⟨⟨.keep, name.toList, Text.words (Text.spaced operands)⟩, kind, ?_, rfl,
      mnemonic.word, ?_, isRead, ?_, ?_⟩
    · rw [line, Command.parse_named mnemonic.word mnemonic.small apart]
    · rw [Command.nameText, String.ofList_toList]
      exact mnemonic.notEnd
    · rw [Command.params, Text.chars_words_spaced words]
      exact compiles _
    · rwa [Command.nameText, String.ofList_toList]

/-- Most instructions are shown as a line of words. -/
theorem ofKind (named : kind.name? = some name) (operands : List String)
    (words : ∀ w ∈ operands, Text.IsWord w.toList) (noLines : kind.takesLines = false)
    (compiles : ∀ text, Pattern.compile kind (operands.map String.toList) text [] = .ok p) :
    ∃ i, ListedInsn.ofKind kind operands = some i ∧ i.IsReadAs p := by
  refine ⟨_, by rw [ListedInsn.ofKind, named]; rfl, ?_⟩
  refine ofWords named (operands.map String.toList) ?_ ?_ rfl ?_ ?_ compiles
  · intro w member
    obtain ⟨v, inside, rfl⟩ := List.mem_map.1 member
    exact words v inside
  · rw [String.toList_intercalate]
    exact Text.intercalate_space _ _
  · exact fun l member => by cases member
  · rw [noLines]
    exact ⟨rfl, rfl⟩

end ListedInsn.IsReadAs

/-! ### Operands -/

namespace LabelNames

variable {names : LabelNames} {l : Label} {name : String}

theorem operand_of_name? (named : names.name? l = some name) :
    (names.operand l).toList = '~' :: name.toList := by
  rw [operand, named, String.toList_append]
  rfl

theorem isWord_operand (named : names.name? l = some name) :
    Text.IsWord (names.operand l).toList := by
  rw [operand_of_name? named]
  obtain ⟨i, -, rfl⟩ := Option.map_eq_some_iff.1 named
  have front : Text.IsWord "label-".toList := by decide
  have split : (nameAt i).toList = "label-".toList ++ letters i := by
    rw [nameAt, String.toList_append, String.toList_ofList (l := letters i)]
  refine ⟨List.cons_ne_nil _ _, fun c member => ?_⟩
  rw [split, List.mem_cons, List.mem_append] at member
  rcases member with rfl | inside | letter
  · decide
  · exact front.noBlank c inside
  · obtain ⟨d, small, rfl⟩ := mem_letters letter
    have number := toNat_letterDigit small
    by_contra blank
    rw [Bool.not_eq_false] at blank
    simp only [Text.isBlank, Bool.or_eq_true, Bool.and_eq_true, decide_eq_true_eq,
      beq_iff_eq] at blank
    omega

theorem labelRef_operand (named : names.name? l = some name) :
    ∃ p, Pattern.labelRef (names.operand l).toList = .ok p ∧ names.Refers p l := by
  rw [operand_of_name? named]
  refine ⟨.weak name, ?_, name, named, rfl⟩
  rw [Pattern.labelRef, String.ofList_toList]

/-- The labels in the lines of a table switch are read. -/
theorem mapM_labelRef {targets : List Label}
    (named : ∀ l ∈ targets, (names.name? l).isSome = true) :
    ∃ ps, ((targets.map names.operand).map String.toList).mapM
      (fun l => Pattern.labelRef (Text.trim l)) = .ok ps ∧
        List.Forall₂ names.Refers ps targets := by
  induction targets with
  | nil => exact ⟨[], rfl, .nil⟩
  | cons l targets ih =>
    obtain ⟨name, isNamed⟩ := Option.isSome_iff_exists.1 (named l (.head _))
    obtain ⟨p, isRead, refers⟩ := labelRef_operand isNamed
    obtain ⟨ps, areRead, all⟩ := ih fun m member => named m (.tail _ member)
    refine ⟨p :: ps, ?_, .cons refers all⟩
    rw [List.map_cons, List.map_cons, List.mapM_cons, (isWord_operand isNamed).trim,
      isRead, areRead]
    rfl

end LabelNames

theorem Pattern.splitColon?_append {key rest : List Char} (noColon : ':' ∉ key) :
    splitColon? (key ++ ':' :: rest) = some (key, rest) := by
  induction key with
  | nil => rfl
  | cons c key ih =>
    have other : c ≠ ':' := fun same => noColon (same ▸ .head _)
    rw [List.cons_append, splitColon?, if_neg other, ih fun member => noColon (.tail _ member)]
    rfl

namespace LabelNames

variable {names : LabelNames}

/-- A line of a lookup switch. -/
theorem toList_case (names : LabelNames) (q : Int32 × Label) :
    (intText q.1 ++ ":" ++ names.operand q.2).toList =
      (intText q.1).toList ++ ':' :: (names.operand q.2).toList := by
  simp [String.toList_append]

theorem switchCase_text {q : Int32 × Label} {name : String} (named : names.name? q.2 = some name) :
    ∃ p, Pattern.switchCase (intText q.1 ++ ":" ++ names.operand q.2).toList = .ok p ∧
      p.1 = .is q.1 ∧ names.Refers p.2 q.2 := by
  obtain ⟨p, isRead, refers⟩ := labelRef_operand named
  have numeral : Decimal.IsNumeral (intText q.1).toList := .toString_int _
  have noColon := numeral.not_mem (c := ':') (by decide) (by decide) (by decide) (by decide)
  refine ⟨(.is q.1, p), ?_, rfl, refers⟩
  rw [toList_case, Pattern.switchCase, Pattern.splitColon?_append noColon]
  dsimp only
  rw [numeral.isWord.trim, (isWord_operand named).trim, Pattern.int32_text, isRead]
  rfl

/-- The lines of a lookup switch are read. -/
theorem mapM_switchCase {pairs : List (Int32 × Label)}
    (named : ∀ q ∈ pairs, (names.name? q.2).isSome = true) :
    ∃ ps, ((pairs.map fun q => intText q.1 ++ ":" ++ names.operand q.2).map String.toList).mapM
      Pattern.switchCase = .ok ps ∧
        List.Forall₂ (fun c q => c.1 = .is q.1 ∧ names.Refers c.2 q.2) ps pairs := by
  induction pairs with
  | nil => exact ⟨[], rfl, .nil⟩
  | cons q pairs ih =>
    obtain ⟨name, isNamed⟩ := Option.isSome_iff_exists.1 (named q (.head _))
    obtain ⟨p, isRead, same⟩ := switchCase_text isNamed
    obtain ⟨ps, areRead, all⟩ := ih fun m member => named m (.tail _ member)
    refine ⟨p :: ps, ?_, .cons same all⟩
    rw [List.map_cons, List.map_cons, List.mapM_cons, isRead, areRead]
    rfl

end LabelNames

/-! ### Types -/

theorem TypeDesc.le_dims {dims : Nat} {s rest : List Char} {t : TypeDesc} (few : dims ≤ 255)
    (read : readStartFrom dims s = .ok (t, rest)) : dims ≤ t.dims.toNat := by
  induction s generalizing dims with
  | nil => cases read
  | cons c s ih =>
    unfold readStartFrom at read
    split at read
    · rename_i rest' same
      obtain ⟨rfl, rfl⟩ := List.cons.inj same
      split at read
      · have further := ih (by omega) read
        omega
      · cases read
    · split at read
      · obtain ⟨rfl, -⟩ := Prod.mk.inj (Except.ok.inj read)
        rw [UInt8.toNat_ofNat_of_lt' (by change dims < 256; omega)]
      · cases read

/-- The operands of class instructions mean classes and arrays. -/
theorem TypeDesc.isReference_of_parseOperand {operand : String} {t : TypeDesc}
    (parsed : parseOperand operand = .ok t) : t.isReference = true := by
  have whole {s : List Char} (parsed : parseChars s = .ok t) :
      ∃ rest, readStart s = .ok (t, rest) := by
    unfold parseChars at parsed
    split at parsed
    · cases parsed
    · rename_i u rest started
      split at parsed
      · exact ⟨rest, Except.ok.inj parsed ▸ started⟩
      · cases parsed
  unfold parseOperand at parsed
  split at parsed
  · rename_i s same
    rw [parse, same] at parsed
    obtain ⟨rest, started⟩ := whole parsed
    rw [readStart, readStartFrom, if_pos (by decide)] at started
    have array : 1 ≤ t.dims.toNat := le_dims (by decide) started
    rw [isReference, isArray, bne_iff_ne.2, Bool.true_or]
    rintro none
    rw [none] at array
    exact absurd array (by decide)
  · obtain ⟨rest, started⟩ := whole parsed
    rw [readStart, readStartFrom, BaseType.readStart, if_pos rfl] at started
    · cases split : splitSemicolon? (operand.toList ++ [';']) with
      | none => simp [split] at started
      | some parts =>
        simp only [split] at started
        obtain ⟨rfl, -⟩ := Prod.mk.inj (Except.ok.inj started)
        rfl
    · rintro s same
      exact absurd (List.cons.inj same).1 (by decide)

namespace Pattern

theorem classOperand_plain {operand : String} (plain : IsPlainOperand operand) :
    ∃ t, orAny classOperand operand.toList = .ok (.is t) ∧ TypeDesc.parseOperand operand = .ok t ∧
      t.IsStrong := by
  obtain ⟨t, parsed, strong⟩ := plain.parses
  refine ⟨t, orAny_of_ok plain.plain.ne_star ?_, parsed, strong⟩
  rw [classOperand, String.ofList_toList, parsed]
  rfl

theorem typeDesc_plain {desc : String} (plain : IsPlainType desc) :
    ∃ t, typeDesc desc.toList = .ok t ∧ TypeDesc.parse desc = .ok t ∧ t.IsStrong := by
  obtain ⟨t, parsed, strong⟩ := plain.parses
  refine ⟨t, ?_, parsed, strong⟩
  rw [TypeDesc.parse] at parsed
  rw [typeDesc, parsed]
  rfl

theorem methodDesc_plain {desc : String} (plain : IsPlainMethodType desc) :
    ∃ t, methodDesc desc.toList = .ok t ∧ MethodDesc.parse desc = .ok t ∧ t.IsStrong := by
  obtain ⟨t, parsed, strong⟩ := plain.parses
  refine ⟨t, ?_, parsed, strong⟩
  rw [MethodDesc.parse] at parsed
  rw [methodDesc, parsed]
  rfl

/-- A quoted constant is read as the text that it was quoted for. -/
theorem stringOperand_quote (value : String) :
    stringOperand (Text.quote value.toList) = .ok (.is value) := by
  have notStar : Text.quote value.toList ≠ ['*'] :=
    fun same => absurd (List.cons.inj same).1 (by decide)
  rw [stringOperand, Text.trim_quote, orAny_of_ok notStar (by rw [Text.unquote_quote]; rfl),
    String.ofList_toList]

theorem ne_star_of_parse {desc : String} {t : TypeDesc} (parsed : TypeDesc.parse desc = .ok t) :
    desc.toList ≠ ['*'] := by
  intro same
  rw [TypeDesc.parse, same] at parsed
  cases parsed

/-- The element type of an array of references is read as it is written. -/
theorem elementType_plain {operand : String} (plain : IsPlainOperand operand) :
    ∃ t, Text.IsWord (ListedInsn.elementType operand).toList ∧
      orAny elementType (ListedInsn.elementType operand).toList = .ok (.is t) ∧
      TypeDesc.parseOperand operand = .ok t ∧ t.IsStrong := by
  obtain ⟨t, parsed, strong⟩ := plain.parses
  have reference := TypeDesc.isReference_of_parseOperand parsed
  have notVoid : t ≠ TypeDesc.void := by
    rintro rfl
    cases reference
  have word := plain.plain.word
  suffices written : Text.IsWord (ListedInsn.elementType operand).toList ∧
      (ListedInsn.elementType operand).toList ≠ ['*'] ∧
      TypeDesc.parseChars (ListedInsn.elementType operand).toList = .ok t by
    obtain ⟨isWord, ne, parses⟩ := written
    refine ⟨t, isWord, orAny_of_ok ne ?_, parsed, strong⟩
    rw [elementType, typeDesc, parses]
    exact if_neg notVoid
  unfold TypeDesc.parseOperand at parsed
  unfold ListedInsn.elementType
  split at parsed
  · rename_i s same
    rw [if_pos (by rw [same]; rfl)]
    exact ⟨word, plain.plain.ne_star, parsed⟩
  · rename_i other
    have notArray : operand.toList.head? ≠ some '[' := by
      intro head
      obtain ⟨s, same⟩ := List.head?_eq_some_iff.1 head
      exact other s same
    have chars : ("L" ++ operand ++ ";").toList = 'L' :: (operand.toList ++ [';']) := by
      simp [String.toList_append]
    rw [if_neg notArray, chars]
    refine ⟨⟨List.cons_ne_nil _ _, fun c member => ?_⟩, ?_, parsed⟩
    · rcases List.mem_cons.1 member with rfl | inside
      · decide
      rcases List.mem_append.1 inside with inside | last
      · exact word.noBlank c inside
      · obtain rfl := List.mem_singleton.1 last
        decide
    · intro same
      exact absurd (List.cons.inj same).1 (by decide)

end Pattern

/-! ### Instructions -/

namespace ListedInsn

variable {names : LabelNames} {type : MethodDesc}

/-- An instruction is shown and read as a pattern that says all about it. -/
def IsReadBack (names : LabelNames) (type : MethodDesc) (insn : Insn) : Prop :=
  ∃ i p, ofInsn names insn = some i ∧ i.IsReadAs p ∧ p.Depicts names type insn

theorem noLines {p : String → Prop} : ∀ l ∈ ([] : List String), p l :=
  fun _ member => by cases member

theorem simple_isReadBack {op : Opcode} (plain : op.isPlain = true)
    (returns : op.isReturn = true → op = type.returnOp) : IsReadBack names type (.simple op) := by
  cases isReturn : op.isReturn with
  | true =>
    obtain rfl := returns isReturn
    have named : PatternKind.ret.name? = some "return" := rfl
    refine ⟨{ line := "return" }, .ret, if_pos isReturn, ?_, .ret⟩
    exact .ofWords named [] (fun _ none => by cases none) rfl rfl noLines ⟨rfl, rfl⟩ fun _ => rfl
  | false =>
    obtain ⟨name, named⟩ :=
      Option.isSome_iff_exists.1 ((PatternKind.namesCode _).plain plain isReturn)
    obtain ⟨i, shown, isRead⟩ := IsReadAs.ofKind named [] noLines rfl fun _ => rfl
    refine ⟨i, .single op, ?_, isRead, .single⟩
    rw [ofInsn, isReturn, if_neg Bool.false_ne_true, shown]

/-- A line of a mnemonic and one word. -/
theorem IsReadAs.ofWord {kind : PatternKind} {p : Pattern} {name text : String}
    (named : kind.name? = some name) (oneLine : kind.takesLines = false)
    (isWord : Text.IsWord text.toList)
    (compiles : ∀ rest, Pattern.compile kind [text.toList] rest [] = .ok p) :
    IsReadAs { line := name ++ " " ++ text } p := by
  refine .ofWords named [text.toList] ?_ ?_ rfl noLines ?_ compiles
  · exact fun w member => List.mem_singleton.1 member ▸ isWord
  · simp [String.toList_append, Text.spaced]
  · rw [oneLine]
    exact ⟨rfl, rfl⟩

/-- A line that pushes a text. The text is the rest of the line, blanks included. -/
theorem pushString_isReadAs (value : String) :
    IsReadAs { line := ofConstant (.string value) } (.pushString (.is value)) := by
  have named : PatternKind.pushString.name? = some "push-string" := rfl
  obtain ⟨mnemonic, isRead⟩ := PatternKind.ofName?_of_name? named
  have line : (ofConstant (.string value)).toList =
      "push-string".toList ++ ' ' :: Text.quote value.toList := by
    rw [ofConstant, String.toList_append, quoted,
      String.toList_ofList (l := Text.quote value.toList)]
    rfl
  obtain ⟨w, ts, split⟩ := Text.words_cons (show Text.isBlank '"' = false by decide)
    (value.toList.flatMap Text.escape ++ ['"'])
  refine ⟨rfl, ?_, ?_, ⟨⟨.keep, "push-string".toList, Text.words (' ' :: Text.quote value.toList)⟩,
    .pushString, ?_, rfl, mnemonic.word, ?_, isRead, ?_, rfl, rfl⟩, noLines⟩
  · rw [line]
    exact mnemonic.word.isLine.append ((Text.quote_isLine _).cons (by decide) (by decide))
  · have ends : "push-string".toList ++ ' ' :: Text.quote value.toList =
        ("push-string".toList ++ [' ']) ++ Text.quote value.toList := by simp
    rw [line, ends, List.getLast?_append, Text.getLast?_quote]
    rintro c ⟨⟩
    decide
  · rw [line, Command.parse_named mnemonic.word mnemonic.small (.space _)]
  · rw [Command.nameText, String.ofList_toList]
    exact mnemonic.notEnd
  · have rest : Command.textFrom ⟨.keep, "push-string".toList,
        Text.words (' ' :: Text.quote value.toList)⟩ 0 =
        Text.quote value.toList := by
      rw [Command.textFrom, Text.words_space, Text.quote, split]
      rfl
    rw [rest]
    unfold Pattern.compile
    dsimp only
    rw [Pattern.stringOperand_quote]
    rfl

theorem push_isReadBack {value : Constant} (plain : value.IsPlain) :
    IsReadBack names type (.push value) := by
  cases value with
  | int v =>
    have named : PatternKind.pushInt.name? = some "push-int" := rfl
    refine ⟨_, .pushInt (.is v), rfl, ?_, .pushInt⟩
    refine IsReadAs.ofWord named rfl (Decimal.IsNumeral.toString_int _).isWord fun rest => ?_
    unfold Pattern.compile
    dsimp only
    rw [Pattern.int32_text]
    rfl
  | long v =>
    have named : PatternKind.pushLong.name? = some "push-long" := rfl
    refine ⟨_, .pushLong (.is v), rfl, ?_, .pushLong⟩
    refine IsReadAs.ofWord named rfl (Decimal.IsNumeral.toString_int _).isWord fun rest => ?_
    unfold Pattern.compile
    dsimp only
    rw [Pattern.int64_text]
    rfl
  | float bits =>
    obtain ⟨negative, mantissa, shift, finite⟩ := plain
    have named : PatternKind.pushFloat.name? = some "push-float" := rfl
    refine ⟨_, .pushFloat (.is bits), rfl, ?_, .pushFloat⟩
    refine IsReadAs.ofWord named rfl (Decimal.BinaryFormat.numeral_text _ finite).isWord
      fun rest => ?_
    unfold Pattern.compile
    dsimp only
    rw [Pattern.single32_text finite]
    rfl
  | double bits =>
    have named : PatternKind.pushDouble.name? = some "push-double" := rfl
    refine ⟨_, .pushDouble (.is bits), rfl, ?_, .pushDouble⟩
    refine IsReadAs.ofWord named rfl (Pattern.isWord_doubleText plain) fun rest => ?_
    unfold Pattern.compile
    dsimp only
    rw [Pattern.double64_text plain]
    rfl
  | string value => exact ⟨_, .pushString (.is value), rfl, pushString_isReadAs value, .pushString⟩
  | classRef className =>
    have named : PatternKind.pushClass.name? = some "push-class" := rfl
    have isPlain : IsPlainOperand className := plain
    obtain ⟨t, isRead, parsed, strong⟩ := Pattern.classOperand_plain isPlain
    refine ⟨_, .pushClass (.is t), rfl, ?_, .pushClass parsed strong⟩
    refine IsReadAs.ofWord named rfl isPlain.plain.word fun rest => ?_
    unfold Pattern.compile
    dsimp only
    rw [isRead]
    rfl

theorem words_cons {v : String} {vs : List String} (word : Text.IsWord v.toList)
    (rest : ∀ w ∈ vs, Text.IsWord w.toList) : ∀ w ∈ v :: vs, Text.IsWord w.toList :=
  List.forall_mem_cons.2 ⟨word, rest⟩

/-- The line of a switch that refers to a label is no comment and does not close the switch. -/
theorem isCase_operand {l : Label} {name : String} (named : names.name? l = some name) :
    Text.IsWord (names.operand l).toList ∧
      ∀ c ∈ (names.operand l).toList.head?, c ≠ '.' ∧ c ≠ '/' := by
  refine ⟨LabelNames.isWord_operand named, ?_⟩
  rw [LabelNames.operand_of_name? named]
  rintro c ⟨⟩
  decide

/-- Whole numbers start with a sign or a digit. -/
theorem head_intText {v : Int32} {rest : List Char} {c : Char}
    (head : c ∈ ((intText v).toList ++ rest).head?) :
    c = '-' ∨ c.isDigit = true := by
  rw [intText, Decimal.toList_toString_int] at head
  split at head
  · exact .inl (Option.some.inj head).symm
  · obtain ⟨d, s, digits, digit, -⟩ := Decimal.head_digitsOf v.toInt.natAbs
    rw [digits] at head
    exact .inr (Option.some.inj head ▸ digit)

theorem isCase_case {q : Int32 × Label} {name : String} (named : names.name? q.2 = some name) :
    Text.IsWord (intText q.1 ++ ":" ++ names.operand q.2).toList ∧
      ∀ c ∈ (intText q.1 ++ ":" ++ names.operand q.2).toList.head?, c ≠ '.' ∧ c ≠ '/' := by
  have numeral : Decimal.IsNumeral (intText q.1).toList := .toString_int _
  have label := LabelNames.isWord_operand named
  rw [LabelNames.toList_case]
  refine ⟨.append numeral.isWord.noBlank ?_, fun c head => ?_⟩
  · refine ⟨List.cons_ne_nil _ _, fun c member => ?_⟩
    rcases List.mem_cons.1 member with rfl | inside
    · decide
    · exact label.noBlank c inside
  · rcases head_intText head with rfl | digit
    · decide
    · constructor <;> rintro rfl <;> exact absurd digit (by decide)

theorem tableSwitch_isReadBack {low high : Int32} {default : Label} {targets : List Label}
    (named : ∀ l ∈ default :: targets, (names.name? l).isSome = true) :
    IsReadBack names type (.tableSwitch low high default targets) := by
  have mnemonic : PatternKind.switchTable.name? = some "switch-table" := rfl
  obtain ⟨name, isNamed⟩ := Option.isSome_iff_exists.1 (named default (.head _))
  obtain ⟨p, isRead, refers⟩ := LabelNames.labelRef_operand isNamed
  obtain ⟨ps, areRead, all⟩ := LabelNames.mapM_labelRef fun l member => named l (.tail _ member)
  refine ⟨_, .tableSwitch (.is low) (.is high) p ps, rfl, ?_, .tableSwitch refers all⟩
  refine .ofWords mnemonic [(intText low).toList, (intText high).toList,
    (names.operand default).toList]
    ?_ ?_ rfl ?_ rfl fun text => ?_
  · simp only [List.forall_mem_cons]
    exact ⟨(Decimal.IsNumeral.toString_int _).isWord, (Decimal.IsNumeral.toString_int _).isWord,
      LabelNames.isWord_operand isNamed, List.forall_mem_nil _⟩
  · rw [String.toList_intercalate]
    exact Text.intercalate_space _ _
  · intro line member
    obtain ⟨l, inside, rfl⟩ := List.mem_map.1 member
    obtain ⟨name, isNamed⟩ := Option.isSome_iff_exists.1 (named l (.tail _ inside))
    exact isCase_operand isNamed
  · unfold Pattern.compile
    dsimp only
    rw [Pattern.int32_text, Pattern.int32_text, isRead, areRead]
    rfl

theorem lookupSwitch_isReadBack {default : Label} {pairs : List (Int32 × Label)}
    (named : ∀ l ∈ default :: pairs.map Prod.snd, (names.name? l).isSome = true) :
    IsReadBack names type (.lookupSwitch default pairs) := by
  have mnemonic : PatternKind.switchLookup.name? = some "switch-lookup" := rfl
  have namedCase (q : Int32 × Label) (member : q ∈ pairs) : (names.name? q.2).isSome = true :=
    named q.2 (.tail _ (List.mem_map_of_mem member))
  obtain ⟨name, isNamed⟩ := Option.isSome_iff_exists.1 (named default (.head _))
  obtain ⟨p, isRead, refers⟩ := LabelNames.labelRef_operand isNamed
  obtain ⟨ps, areRead, all⟩ := LabelNames.mapM_switchCase namedCase
  refine ⟨_, .lookupSwitch p ps, rfl, ?_, .lookupSwitch refers all⟩
  refine .ofWords mnemonic [(names.operand default).toList] ?_ ?_ rfl ?_ rfl fun text => ?_
  · exact fun w member => List.mem_singleton.1 member ▸ LabelNames.isWord_operand isNamed
  · simp [String.toList_append, Text.spaced]
  · intro line member
    obtain ⟨q, inside, rfl⟩ := List.mem_map.1 member
    obtain ⟨name, isNamed⟩ := Option.isSome_iff_exists.1 (namedCase q inside)
    exact isCase_case isNamed
  · unfold Pattern.compile
    dsimp only
    rw [areRead, isRead]
    rfl

theorem type_isReadBack {op : Opcode} {className : String} (isClassOp : op.isClassOp = true)
    (plain : IsPlainOperand className) : IsReadBack names type (.type op className) := by
  by_cases array : op = Opcode.anewarray
  · subst array
    have mnemonic : PatternKind.newArray.name? = some "new-array" := rfl
    obtain ⟨t, word, isRead, parsed, strong⟩ := Pattern.elementType_plain plain
    refine ⟨_, .newArray (.is t), by rw [ofInsn, if_pos rfl], ?_,
      .objectArray parsed strong (TypeDesc.isReference_of_parseOperand parsed)⟩
    refine IsReadAs.ofWord mnemonic rfl word fun rest => ?_
    unfold Pattern.compile
    dsimp only
    rw [isRead]
    rfl
  · obtain ⟨name, mnemonic⟩ :=
      Option.isSome_iff_exists.1 ((PatternKind.namesCode _).classOp isClassOp array)
    obtain ⟨t, isRead, parsed, strong⟩ := Pattern.classOperand_plain plain
    have compiles (text : List Char) :
        Pattern.compile (.type op) ([className].map String.toList) text [] =
          .ok (.type op (.is t)) := by
      rw [List.map_singleton]
      unfold Pattern.compile
      dsimp only
      rw [isRead]
      rfl
    obtain ⟨i, isShown, isReadAs⟩ :=
      IsReadAs.ofKind mnemonic [className] (words_cons plain.plain.word noLines) rfl compiles
    exact ⟨i, _, (if_neg array).trans isShown, isReadAs, .type parsed strong⟩

theorem newArray_isReadBack {code : UInt8} (known : (TypeDesc.ofArrayCode? code).isSome = true) :
    IsReadBack names type (.newArray code) := by
  have mnemonic : PatternKind.newArray.name? = some "new-array" := rfl
  have codes : code = 4 ∨ code = 5 ∨ code = 6 ∨ code = 7 ∨ code = 8 ∨ code = 9 ∨ code = 10 ∨
      code = 11 := by
    by_contra other
    simp only [not_or] at other
    obtain ⟨h4, h5, h6, h7, h8, h9, h10, h11⟩ := other
    simp [TypeDesc.ofArrayCode?, h4, h5, h6, h7, h8, h9, h10, h11] at known
  have element {t : TypeDesc} (isType : TypeDesc.ofArrayCode? code = some t)
    (word : Text.IsWord t.text.toList)
      (isRead : Pattern.orAny Pattern.elementType t.text.toList = .ok (.is t))
      (isCode : t.arrayCode? = some code) : IsReadBack names type (.newArray code) := by
    refine ⟨{ line := "new-array" ++ " " ++ t.text }, .newArray (.is t), by
      rw [ofInsn, isType]; rfl, ?_,
      .newArray isCode⟩
    refine IsReadAs.ofWord mnemonic rfl word fun rest => ?_
    unfold Pattern.compile
    dsimp only
    rw [isRead]
    rfl
  rcases codes with rfl | rfl | rfl | rfl | rfl | rfl | rfl | rfl
  all_goals exact element rfl (by decide) rfl rfl

theorem label_isReadBack {l : Label} (isShown : (names.name? l).isSome = true) :
    IsReadBack names type (.label l) := by
  obtain ⟨name, isNamed⟩ := Option.isSome_iff_exists.1 isShown
  have mnemonic : PatternKind.label.name? = some "label" := rfl
  obtain ⟨p, isRead, refers⟩ := LabelNames.labelRef_operand isNamed
  refine ⟨{ line := "label" ++ " " ++ names.operand l }, .label p, ?_, ?_, .label refers⟩
  · rw [ofInsn, isNamed, LabelNames.operand, isNamed]
    rfl
  · refine IsReadAs.ofWord mnemonic rfl (LabelNames.isWord_operand isNamed) fun rest => ?_
    unfold Pattern.compile
    dsimp only
    rw [isRead]
    rfl

theorem var_isReadBack {op : Opcode} (access : op.isLocalAccess = true) (index : UInt16) :
    IsReadBack names type (.var op index) := by
  obtain ⟨name, mnemonic⟩ :=
    Option.isSome_iff_exists.1 ((PatternKind.namesCode _).localAccess access)
  have compiles (text : List Char) :
      Pattern.compile (.var op) ([toString index.toNat].map String.toList) text [] =
      .ok (.var op (.is index)) := by
    rw [List.map_singleton]
    unfold Pattern.compile
    dsimp only
    rw [Pattern.uint16_text]
    rfl
  obtain ⟨i, isShown, isRead⟩ := IsReadAs.ofKind mnemonic [toString index.toNat]
    (words_cons (Pattern.isNumeral_toString _).isWord noLines) rfl compiles
  exact ⟨i, _, isShown, isRead, .var⟩

theorem jump_isReadBack {op : Opcode} {target : Label} (jumps : op.isShortJump = true)
    (hasName : (names.name? target).isSome = true) : IsReadBack names type (.jump op target) := by
  obtain ⟨name, mnemonic⟩ := Option.isSome_iff_exists.1 ((PatternKind.namesCode _).shortJump jumps)
  obtain ⟨label, isNamed⟩ := Option.isSome_iff_exists.1 hasName
  obtain ⟨p, isRead, refers⟩ := LabelNames.labelRef_operand isNamed
  have compiles (text : List Char) :
      Pattern.compile (.jump op) ([names.operand target].map String.toList) text [] =
        .ok (.jump op p) := by
    rw [List.map_singleton]
    unfold Pattern.compile
    dsimp only
    rw [isRead]
    rfl
  obtain ⟨i, isShown, isReadAs⟩ := IsReadAs.ofKind mnemonic [names.operand target]
    (words_cons (LabelNames.isWord_operand isNamed) noLines) rfl compiles
  exact ⟨i, _, isShown, isReadAs, .jump refers⟩

theorem iinc_isReadBack (index : UInt16) (delta : Int16) :
    IsReadBack names type (.iinc index delta) := by
  have mnemonic : PatternKind.incInt.name? = some "inc-int" := rfl
  refine ⟨_, .incInt (.is index) (.is delta), rfl, ?_, .incInt⟩
  refine .ofWords mnemonic [(toString index.toNat).toList,
    (toString delta.toInt).toList] ?_ ?_ rfl noLines
    ⟨rfl, rfl⟩ fun text => ?_
  · simp only [List.forall_mem_cons]
    exact ⟨(Pattern.isNumeral_toString _).isWord, (Decimal.IsNumeral.toString_int _).isWord,
      List.forall_mem_nil _⟩
  · simp [String.toList_append, Text.spaced]
  · unfold Pattern.compile
    dsimp only
    rw [Pattern.uint16_text, Pattern.int16_text]
    rfl

theorem multiNewArray_isReadBack {desc : String} (isPlain : IsPlainType desc) (dims : UInt8) :
    IsReadBack names type (.multiNewArray desc dims) := by
  have mnemonic : PatternKind.newArrayMulti.name? = some "new-array-multi" := rfl
  obtain ⟨t, isRead, parsed, strong⟩ := Pattern.typeDesc_plain isPlain
  refine ⟨_, .newArrayMulti (.is t) (.is dims), rfl, ?_, .multiNewArray parsed strong⟩
  refine .ofWords mnemonic [desc.toList, (toString dims.toNat).toList] ?_ ?_ rfl noLines
    ⟨rfl, rfl⟩ fun text => ?_
  · simp only [List.forall_mem_cons]
    exact ⟨isPlain.word, (Pattern.isNumeral_toString _).isWord, List.forall_mem_nil _⟩
  · simp [String.toList_append, Text.spaced]
  · unfold Pattern.compile
    dsimp only
    rw [Pattern.orAny_of_ok (Pattern.ne_star_of_parse parsed) isRead, Pattern.uint8_text]
    rfl

theorem field_isReadBack {op : Opcode} {owner fieldName desc : String}
    (access : op.isFieldAccess = true) (plainOwner : IsPlainName owner)
    (plainName : IsPlainName fieldName) (plainDesc : IsPlainType desc) :
    IsReadBack names type (.field op owner fieldName desc) := by
  obtain ⟨name, mnemonic⟩ :=
    Option.isSome_iff_exists.1 ((PatternKind.namesCode _).fieldAccess access)
  obtain ⟨t, isRead, parsed, strong⟩ := Pattern.typeDesc_plain plainDesc
  have compiles (text : List Char) :
      Pattern.compile (.field op) ([owner, fieldName, desc].map String.toList) text [] =
        .ok (.field op ⟨owner, false⟩ ⟨fieldName, false⟩ t desc) := by
    rw [List.map_cons, List.map_cons, List.map_singleton]
    unfold Pattern.compile
    dsimp only
    rw [plainOwner.ofChars, plainName.ofChars, isRead, String.ofList_toList]
    rfl
  obtain ⟨i, isShown, isReadAs⟩ := IsReadAs.ofKind mnemonic [owner, fieldName, desc]
    (words_cons plainOwner.word (words_cons plainName.word (words_cons plainDesc.word noLines))) rfl
      compiles
  exact ⟨i, _, isShown, isReadAs, .field plainOwner.strong parsed strong⟩

theorem invoke_isReadBack {op : Opcode} {owner methodName desc : String} (calls : op.isCall = true)
    (plainOwner : IsPlainName owner) (plainName : IsPlainName methodName)
    (plainDesc : IsPlainMethodType desc) (isInterface : Bool) :
    IsReadBack names type (.invoke op owner methodName desc isInterface) := by
  obtain ⟨name, mnemonic⟩ := Option.isSome_iff_exists.1 ((PatternKind.namesCode _).call calls)
  obtain ⟨t, isRead, parsed, strong⟩ := Pattern.methodDesc_plain plainDesc
  have compiles (text : List Char) :
      Pattern.compile (.invoke op) ([owner, methodName, desc].map String.toList) text [] =
        .ok (.invoke op ⟨owner, false⟩ ⟨methodName, false⟩ t desc) := by
    rw [List.map_cons, List.map_cons, List.map_singleton]
    unfold Pattern.compile
    dsimp only
    rw [plainOwner.ofChars, plainName.ofChars, isRead, String.ofList_toList]
    rfl
  obtain ⟨i, isShown, isReadAs⟩ := IsReadAs.ofKind mnemonic [owner, methodName, desc]
    (words_cons plainOwner.word (words_cons plainName.word (words_cons plainDesc.word noLines))) rfl
      compiles
  exact ⟨i, _, isShown, isReadAs, .invoke plainOwner.strong parsed strong⟩

theorem ofInsn_isReadBack {insn : Insn} (plain : insn.IsPlain type)
    (shown : names.shows insn = true)
    (named : ∀ l ∈ insn.branchTargets, (names.name? l).isSome = true) :
    IsReadBack names type insn := by
  cases insn with
  | line => cases shown
  | foreign => cases plain
  | simple op => exact simple_isReadBack plain.1 plain.2
  | push value => exact push_isReadBack plain
  | tableSwitch => exact tableSwitch_isReadBack named
  | lookupSwitch => exact lookupSwitch_isReadBack named
  | type op className => exact type_isReadBack plain.1 plain.2
  | newArray code => exact newArray_isReadBack plain
  | label => exact label_isReadBack shown
  | var op index => exact var_isReadBack plain index
  | jump op target => exact jump_isReadBack plain (named target (.head _))
  | iinc index delta => exact iinc_isReadBack index delta
  | multiNewArray desc dims => exact multiNewArray_isReadBack plain dims
  | field => exact field_isReadBack plain.1 plain.2.1 plain.2.2.1 plain.2.2.2
  | invoke op owner methodName desc isInterface =>
    exact invoke_isReadBack plain.1 plain.2.1 plain.2.2.1 plain.2.2.2 isInterface

end ListedInsn

/-! ### Regions -/

/-- An exception region that scripts can spell out: the word for regions without a catch type is not
taken for the name of a class. -/
def Region.IsPlain (r : Region) : Prop :=
  ∀ name, r.catchType = some name →
    IsPlainName name ∧ name ≠ "null" ∧ TypeDesc.parseOperand name = .ok (.object name)

/-- The line for a region is read as a pattern that says all about it. -/
theorem Region.exists_isReadAs {names : LabelNames} {r : Region} (plain : r.IsPlain)
    (named : ∀ l ∈ r.labels, (names.name? l).isSome = true) :
    ∃ p, ListedInsn.IsReadAs { line := r.listed names } p ∧ p.DepictsRegion names r := by
  have mnemonic : PatternKind.tryCatch.name? = some "try-catch" := rfl
  obtain ⟨start, isStart⟩ := Option.isSome_iff_exists.1 (named r.start (by simp [labels]))
  obtain ⟨stop, isStop⟩ := Option.isSome_iff_exists.1 (named r.stop (by simp [labels]))
  obtain ⟨handler, isHandler⟩ := Option.isSome_iff_exists.1 (named r.handler (by simp [labels]))
  obtain ⟨p, readStart, refersStart⟩ := LabelNames.labelRef_operand isStart
  obtain ⟨q, readStop, refersStop⟩ := LabelNames.labelRef_operand isStop
  obtain ⟨h, readHandler, refersHandler⟩ := LabelNames.labelRef_operand isHandler
  have line {t : Option TypeDesc} {type : String} (isType : r.catchType.getD "null" = type)
      (word : Text.IsWord type.toList) (isRead : Pattern.catchType type.toList = .ok t) :
      ListedInsn.IsReadAs { line := r.listed names } (.tryCatch p q h t) := by
    refine .ofWords mnemonic [(names.operand r.start).toList, (names.operand r.stop).toList,
      (names.operand r.handler).toList,
      type.toList] ?_ ?_ rfl ListedInsn.noLines ⟨rfl, rfl⟩ fun text => ?_
    · simp only [List.forall_mem_cons]
      exact ⟨LabelNames.isWord_operand isStart, LabelNames.isWord_operand isStop,
        LabelNames.isWord_operand isHandler, word, List.forall_mem_nil _⟩
    · rw [listed, isType, String.toList_intercalate]
      exact Text.intercalate_space _ _
    · unfold Pattern.compile
      dsimp only
      rw [isRead, readStart, readStop, readHandler]
      rfl
  cases catches : r.catchType with
  | none =>
    refine ⟨.tryCatch p q h none, line (by rw [catches, Option.getD_none]) (by decide) rfl, ?_⟩
    exact .any refersStart refersStop refersHandler catches
  | some name =>
    obtain ⟨isPlain, other, parsed⟩ := plain name catches
    refine ⟨.tryCatch p q h (some (.object name)), line (by rw [catches]; rfl) isPlain.word ?_, ?_⟩
    · have notNull : name.toList ≠ "null".toList := fun same => other (String.toList_inj.1 same)
      rw [Pattern.catchType, if_neg notNull, Pattern.classOperand, String.ofList_toList, parsed]
      rfl
    · exact .typed refersStart refersStop refersHandler catches isPlain.strong

end JvmPatch
