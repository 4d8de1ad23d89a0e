import JvmPatch.Proofs.Descriptor
import JvmPatch.Proofs.Listing.Reading
import JvmPatch.Proofs.Script.Constants

/-! The listing of a class is read as a script with one block, which shows the class. -/

set_option autoImplicit false

namespace JvmPatch

/-! ### What listings show in full -/

/-- A field of a type can hold a constant, which is a number if it is one of the numeric ones. -/
def Constant.FitsType (type : TypeDesc) : Constant → Prop
  | .int _ => type.dims = 0 ∧ type.base ∈ [.boolean, .byte, .char, .short, .int]
  | .long _ => type = ⟨0, .long⟩
  | .float bits => type = ⟨0, .float⟩ ∧
      ∃ negative mantissa shift,
        Decimal.BinaryFormat.single.value bits.toNat = .finite negative mantissa shift
  | .double bits => type = ⟨0, .double⟩ ∧
      ∃ negative mantissa shift,
        Decimal.BinaryFormat.double.value bits.toNat = .finite negative mantissa shift
  | .string _ => type = ⟨0, .object "java/lang/String"⟩
  | .classRef _ => False

/-- A field of a type that scripts can spell out. -/
structure FieldDecl.IsPlain (f : FieldDecl) (type : TypeDesc) : Prop where
  name : IsPlainName f.name
  word : Text.IsWord f.desc.toList
  parses : TypeDesc.parse f.desc = .ok type
  strong : type.IsStrong
  notVoid : type ≠ TypeDesc.void
  value : ∀ v, f.value = some v → v.FitsType type

/-- A method of a type with a body that scripts can spell out. -/
structure MethodDecl.IsPlain (m : MethodDecl) (type : MethodDesc) (code : Code) : Prop where
  name : IsPlainName m.name
  word : Text.IsWord m.desc.toList
  parses : MethodDesc.parse m.desc = .ok type
  strong : type.IsStrong
  one : "*" ∉ type.classNames
  body : m.code = some code
  code : code.IsPlain type

def FieldDecl.line (f : FieldDecl) (type : TypeDesc) (n : Nat) : FieldLine where
  mode := .keep
  ident := ⟨f.name, false⟩
  desc := f.desc
  type := type
  isStatic := f.access.hasAny Access.isStatic
  isPrivate := f.access.hasAny Access.isPrivate
  value := f.value
  line := n

def MethodDecl.block (m : MethodDecl) (type : MethodDesc) (insns : List InsnLine)
    (n : Nat) : MethodBlock where
  mode := .keep
  ident := ⟨m.name, false⟩
  desc := m.desc
  type := type
  isStatic := m.access.hasAny Access.isStatic
  isPrivate := m.access.hasAny Access.isPrivate
  isProtected := m.access.hasAny Access.isProtected
  insns := insns
  line := n

namespace Script

variable {r r' : Reading} {c : ClassBlock} {m : MethodBlock} {n : Nat}

theorem checkNested_keep (mode : Mode) (what : String) : checkNested .keep mode what = .ok () := rfl

/-! ### Lines of words -/

/-- What is read from a line of words that starts with a name. -/
def spelled (name : String) (operands : List (List Char)) : Command :=
  ⟨.keep, name.toList, Text.words (Text.spaced operands)⟩

theorem nameText_spelled (name : String) (operands : List (List Char)) :
    (spelled name operands).nameText = name := by
  rw [Command.nameText, spelled, String.ofList_toList]

theorem params_spelled (name : String) {operands : List (List Char)}
    (all : ∀ w ∈ operands, Text.IsWord w) :
    (spelled name operands).params = operands := Text.chars_words_spaced all

/-- The text from the last word on is the last word. -/
theorem textFrom_spelled (name : String) {front : List (List Char)} {w : List Char}
    (all : ∀ v ∈ front, Text.IsWord v) (word : Text.IsWord w) :
    (spelled name (front ++ [w])).textFrom front.length = w := by
  obtain ⟨ts, split, chars⟩ := Text.words_spaced all (.space w)
  have last : Text.words (' ' :: w) = [⟨w, w⟩] := by
    have one := Text.words_append word .nil
    rwa [List.append_nil] at one
  have args : (spelled name (front ++ [w])).args = ts ++ [⟨w, w⟩] := by
    rw [spelled, Text.spaced_append, Text.spaced_cons, ← last, ← split]
    simp [Text.spaced]
  have count : front.length = ts.length := by rw [← chars, List.length_map]
  rw [Command.textFrom, args, count, List.getElem?_concat_length]

theorem Takes.words {text : String} (depth : Nat) (name : String) (operands : List (List Char))
    (split : text.toList = '.' :: (name.toList ++ Text.spaced operands))
    (word : Text.IsWord name.toList) (small : name.toList.map Text.lowerAscii = name.toList)
    (all : ∀ w ∈ operands, Text.IsWord w)
    (reads : ∀ raw, Command.parse raw = .ok (spelled name operands) →
      significantLine r (n + 1) raw = .ok r') :
    Takes (indented depth text) r n r' (n + 1) := by
  have apart : Text.StartsApart (Text.spaced operands) := by
    simpa using Text.startsApart_spaced operands .nil
  exact .marked depth split (word.isLine.append (Text.isLine_spaced all))
    (Text.getLast?_spaced word all)
    (reads _ (Command.parse_named word small apart))

theorem forall_word {s : String} (plain : IsPlainName s) : ∀ w ∈ [s.toList], Text.IsWord w :=
  List.forall_mem_singleton.2 plain.word

/-! ### Class blocks -/

theorem takes_class {s : String} (plain : IsPlainName s) (n : Nat) :
    Takes (indented 0 (".class " ++ s)) {} n
      { block := .inClass ⟨.keep, .ordinary, ⟨s, false⟩, n + 1, [], [], [], []⟩ } (n + 1) := by
  refine .words 0 "class" [s.toList] ?_ (by decide) (by decide) (forall_word plain) ?_
  · simp [String.toList_append, Text.spaced]
  · intro raw parsed
    have opened : openClass (n + 1) raw = .ok ⟨.keep, .ordinary, ⟨s, false⟩, n + 1, [],
        [], [], []⟩ := by
      rw [openClass, parsed, ok_bind, nameText_spelled, params_spelled _ (forall_word plain)]
      dsimp only [ClassKind.ofKeyword?]
      rw [plain.ofChars]
      rfl
    change ((openClass (n + 1) raw).map _).mapError _ = _
    rw [opened]
    rfl

section InClass

variable (keeps : c.mode = .keep)
include keeps

theorem takes_super {s : String} (plain : IsPlainName s) (n : Nat) :
    Takes (indented 1 (".super " ++ s)) { r with block := .inClass c } n
      { r with block := .inClass { c with supers := c.supers ++ [⟨.keep, ⟨s, false⟩⟩] } }
      (n + 1) := by
  refine .words 1 "super" [s.toList] ?_ (by decide) (by decide) (forall_word plain) ?_
  · simp [String.toList_append, Text.spaced]
  · intro raw parsed
    have noEnd : "super" ≠ endOfClass c.kind := by cases c.kind <;> decide
    change (classLine _ c (n + 1) raw).mapError _ = _
    rw [classLine, parsed, ok_bind, keeps, checkNested_keep, ok_bind]
    dsimp only
    rw [nameText_spelled, if_neg noEnd, if_pos rfl, supertypeLine,
      params_spelled _ (forall_word plain)]
    dsimp only
    rw [plain.ofChars]
    rfl

theorem takes_interface {s : String} (plain : IsPlainName s) (n : Nat) :
    Takes (indented 1 (".interface " ++ s)) { r with block := .inClass c } n
      { r with block := .inClass { c with interfaces := c.interfaces ++ [⟨.keep, ⟨s, false⟩⟩] } }
      (n + 1) := by
  refine .words 1 "interface" [s.toList] ?_ (by decide) (by decide) (forall_word plain) ?_
  · simp [String.toList_append, Text.spaced]
  · intro raw parsed
    have noEnd : "interface" ≠ endOfClass c.kind := by cases c.kind <;> decide
    change (classLine _ c (n + 1) raw).mapError _ = _
    rw [classLine, parsed, ok_bind, keeps, checkNested_keep, ok_bind]
    dsimp only
    rw [nameText_spelled, if_neg noEnd, if_neg (by decide), if_pos rfl, supertypeLine,
      params_spelled _ (forall_word plain)]
    dsimp only
    rw [plain.ofChars]
    rfl

theorem takes_endClass (ordinary : c.kind = .ordinary) (n : Nat) :
    Takes (indented 0 ".end-class") { r with block := .inClass c } n
      { classes := r.classes ++ [c] } (n + 1) := by
  refine .words 0 "end-class" [] rfl (by decide) (by decide) (List.forall_mem_nil _) ?_
  intro raw parsed
  change (classLine _ c (n + 1) raw).mapError _ = _
  rw [classLine, parsed, ok_bind, keeps, checkNested_keep, ok_bind]
  dsimp only
  rw [nameText_spelled, ordinary, if_pos (by decide)]
  rfl

end InClass

end Script

/-! ### Fields -/

theorem flagWords_cons (access flag : Access) (word : String) (flags : List (Access × String)) :
    flagWords access ((flag, word) :: flags) =
      (if access.hasAny flag then [word] else []) ++ flagWords access flags := by
  unfold flagWords
  cases set : access.hasAny flag <;> simp [set]

theorem flagWords_nil (access : Access) : flagWords access [] = [] := rfl

namespace FieldDecl

def modifiers (f : FieldDecl) : List (List Char) :=
  (flagWords f.access [(Access.isStatic, "static"),
    (Access.isPrivate, "private")]).map String.toList

theorem modifiers_eq (f : FieldDecl) :
    f.modifiers = (if f.access.hasAny Access.isStatic then ["static".toList] else []) ++
      (if f.access.hasAny Access.isPrivate then ["private".toList] else []) := by
  rw [modifiers, flagWords_cons, flagWords_cons, flagWords_nil, List.append_nil, List.map_append]
  cases f.access.hasAny Access.isStatic <;> cases f.access.hasAny Access.isPrivate <;> rfl

theorem isModifier_modifiers (f : FieldDecl) : ∀ w ∈ f.modifiers, FieldLine.IsModifier w := by
  rw [modifiers_eq]
  intro w member
  rcases List.mem_append.1 member with inside | inside
  · split at inside
    · obtain rfl := List.mem_singleton.1 inside
      exact .inl (by decide)
    · cases inside
  · split at inside
    · obtain rfl := List.mem_singleton.1 inside
      exact .inr (by decide)
    · cases inside

theorem any_modifiers (f : FieldDecl) :
    f.modifiers.any (Text.sameIgnoringCase · "static".toList) = f.access.hasAny Access.isStatic ∧
      f.modifiers.any (Text.sameIgnoringCase · "private".toList) =
        f.access.hasAny Access.isPrivate := by
  rw [modifiers_eq]
  cases f.access.hasAny Access.isStatic <;> cases f.access.hasAny Access.isPrivate <;> decide

theorem toList_listed (f : FieldDecl) :
    f.listed.toList = '.' :: ("field".toList ++ Text.spaced (f.name.toList :: f.desc.toList ::
      (f.modifiers ++ (f.value.map listedValue).toList.map String.toList))) := by
  rw [listed, String.toList_intercalate]
  simp only [List.map_append, List.map_cons, List.cons_append, List.nil_append, modifiers]
  exact Text.intercalate_space _ _

end FieldDecl

namespace FieldLine

variable {f : FieldDecl} {type : TypeDesc}

/-- What is read from the words of a field line depends on its constant. -/
theorem parse_of_value (plain : f.IsPlain type) {command : Command} {rest : List (List Char)}
    {modifiers : Modifiers} (keeps : command.mode = .keep)
    (params : command.params = f.name.toList :: f.desc.toList :: (f.modifiers ++ rest))
    (reads : modifiersFrom (2 + f.modifiers.length) rest
      { isStatic := f.access.hasAny Access.isStatic,
        isPrivate := f.access.hasAny Access.isPrivate } = modifiers)
    (isStatic : modifiers.isStatic = f.access.hasAny Access.isStatic)
    (isPrivate : modifiers.isPrivate = f.access.hasAny Access.isPrivate)
    (value : readValue type command modifiers.valueAt = .ok f.value) (n : Nat) :
    parse n command = .ok (f.line type n) := by
  have parses : TypeDesc.parseChars f.desc.toList = .ok type := plain.parses
  obtain ⟨static, priv⟩ := f.any_modifiers
  have all : modifiersFrom 2 (f.modifiers ++ rest) {} = modifiers := by
    rw [modifiersFrom_append f.isModifier_modifiers, static, priv]
    simpa only [Bool.false_or] using reads
  rw [parse, params]
  dsimp only
  rw [parses, mapError_ok, ok_bind, if_neg plain.notVoid, all, value, ok_bind, keeps,
    plain.name.ofChars, isStatic, isPrivate, String.ofList_toList]
  rfl

theorem parse_without_value (plain : f.IsPlain type) (none : f.value = none) {command : Command}
    (keeps : command.mode = .keep)
    (params : command.params = f.name.toList :: f.desc.toList :: f.modifiers) (n : Nat) :
    parse n command = .ok (f.line type n) := by
  have params : command.params = f.name.toList :: f.desc.toList :: (f.modifiers ++ []) := by
    rwa [List.append_nil]
  refine parse_of_value plain keeps params rfl rfl rfl ?_ n
  rw [none]
  rfl

/-! ### Numbers -/

theorem sameIgnoringCase_numeral {w : List Char} (numeral : Decimal.IsNumeral w)
    {word : List Char} {c : Char} (last : word.getLast? = some c) (small : Text.lowerAscii c = c)
    (letter : c.isDigit = false) :
    Text.sameIgnoringCase w word = false := by
  obtain ⟨d, lastDigit, digit⟩ := numeral.last
  rw [Text.sameIgnoringCase, beq_eq_false_iff_ne]
  intro same
  have lasts := congrArg List.getLast? same
  rw [List.getLast?_map, List.getLast?_map, lastDigit, last, Option.map_some, Option.map_some,
    Option.some.injEq, lowerAscii_of_isDigit digit, small] at lasts
  rw [← lasts, digit] at letter
  cases letter

/-- The number of a field is a word that is read as the number. -/
theorem constant_numeral {v : Constant} (fits : v.FitsType type) (noText : ∀ s, v ≠ .string s) :
    Decimal.IsNumeral (FieldDecl.listedValue v).toList ∧
      constant type (FieldDecl.listedValue v).toList = .ok v := by
  cases v with
  | int v =>
    obtain ⟨dims, base⟩ := fits
    have reads : Decimal.readInteger (.signed 32) (intText v).toList = .ok v.toInt :=
      Decimal.readInteger_signed v.le_toInt v.toInt_lt
    refine ⟨.toString_int _, ?_⟩
    rw [constant, if_neg (by simp [TypeDesc.isArray, dims]), FieldDecl.listedValue, reads]
    dsimp only
    rw [Int32.ofInt_toInt]
    simp only [List.mem_cons, List.not_mem_nil, or_false] at base
    rcases base with base | base | base | base | base <;> rw [base]
  | long v =>
    obtain rfl := fits
    have numeral : Decimal.IsNumeral (longText v).toList := .toString_int _
    have reads : Decimal.readInteger (.signed 64) (longText v).toList = .ok v.toInt :=
      Decimal.readInteger_signed v.le_toInt v.toInt_lt
    refine ⟨numeral, ?_⟩
    rw [constant, if_neg (by decide), FieldDecl.listedValue]
    dsimp only
    rw [numeral.dropSuffix_eq (by decide), reads]
    dsimp only
    rw [Int64.ofInt_toInt]
  | float bits =>
    obtain ⟨rfl, negative, mantissa, shift, finite⟩ := fits
    have numeral : Decimal.IsNumeral (floatText bits).toList :=
      Decimal.BinaryFormat.numeral_text .plain finite
    have reads : Decimal.BinaryFormat.single.read (floatText bits).toList = .ok bits.toNat :=
      Decimal.BinaryFormat.read_text Decimal.BinaryFormat.single_regular .plain bits.toNat_lt finite
    refine ⟨numeral, ?_⟩
    rw [constant, if_neg (by decide), FieldDecl.listedValue]
    dsimp only
    rw [numeral.dropSuffix_eq (by decide), reads]
    dsimp only
    rw [UInt32.ofNat_toNat]
  | double bits =>
    obtain ⟨rfl, negative, mantissa, shift, finite⟩ := fits
    have numeral : Decimal.IsNumeral (doubleText bits).toList :=
      Decimal.BinaryFormat.numeral_text .plain finite
    have number : Decimal.BinaryFormat.double.value bits.toNat ≠ .nan := by
      rw [finite]
      simp
    obtain ⟨whole, -, reads⟩ := Pattern.read_doubleText number
    refine ⟨numeral, ?_⟩
    rw [constant, if_neg (by decide), FieldDecl.listedValue]
    dsimp only
    rw [whole, reads]
    dsimp only
    rw [UInt64.ofNat_toNat]
  | string s => exact absurd rfl (noText s)
  | classRef name => exact fits.elim

theorem parse_number (plain : f.IsPlain type) {v : Constant} (isValue : f.value = some v)
    (noText : ∀ s, v ≠ .string s) (n : Nat) :
    parse n (Script.spelled "field" (f.name.toList :: f.desc.toList :: (f.modifiers ++
      [(FieldDecl.listedValue v).toList]))) = .ok (f.line type n) := by
  obtain ⟨numeral, reads⟩ := constant_numeral (plain.value v isValue) noText
  have front : ∀ w ∈ f.name.toList :: f.desc.toList :: f.modifiers, Text.IsWord w :=
    List.forall_mem_cons.2 ⟨plain.name.word, List.forall_mem_cons.2 ⟨plain.word, fun w member =>
      (f.isModifier_modifiers w member).isWord⟩⟩
  have all : ∀ w ∈ f.name.toList :: f.desc.toList :: (f.modifiers ++
      [(FieldDecl.listedValue v).toList]), Text.IsWord w := by
    intro w member
    rw [← List.cons_append, ← List.cons_append] at member
    rcases List.mem_append.1 member with inside | last
    · exact front w inside
    · exact List.mem_singleton.1 last ▸ numeral.isWord
  have text : (Script.spelled "field" (f.name.toList :: f.desc.toList :: (f.modifiers ++
      [(FieldDecl.listedValue v).toList]))).textFrom (2 + f.modifiers.length) =
        (FieldDecl.listedValue v).toList := by
    have last := Script.textFrom_spelled "field" front numeral.isWord
    rwa [List.cons_append, List.cons_append, List.length_cons, List.length_cons, Nat.add_assoc,
      Nat.add_comm] at last
  have starts : modifiersFrom (2 + f.modifiers.length) [(FieldDecl.listedValue v).toList]
      { isStatic := f.access.hasAny Access.isStatic,
        isPrivate := f.access.hasAny Access.isPrivate } =
      { isStatic := f.access.hasAny Access.isStatic, isPrivate := f.access.hasAny Access.isPrivate
        valueAt := some (2 + f.modifiers.length) } := by
    rw [modifiersFrom, if_neg (Bool.eq_false_iff.1 (sameIgnoringCase_numeral numeral rfl rfl rfl)),
      if_neg (Bool.eq_false_iff.1 (sameIgnoringCase_numeral numeral rfl rfl rfl)), if_neg]
    intro equals
    exact numeral.not_mem (by decide) (by decide) (by decide) (by decide)
      (equals ▸ List.mem_singleton.2 rfl)
  refine parse_of_value plain rfl (Script.params_spelled _ all) starts rfl rfl ?_ n
  rw [readValue, text, numeral.isWord.trim, if_neg (by simpa using numeral.isWord.ne_nil),
    reads, isValue]
  rfl

end FieldLine

namespace Script

variable {r : Reading} {c : ClassBlock} {f : FieldDecl} {type : TypeDesc} {n : Nat}

theorem classLine_field {raw : List Char} {command : Command} {l : FieldLine}
    (keeps : c.mode = .keep) (parsed : Command.parse raw = .ok command)
    (named : command.nameText = "field") (reads : FieldLine.parse n command = .ok l) :
    classLine r c n raw =
      .ok { r with block := .inClass { c with fields := c.fields ++ [l] } } := by
  have noEnd : "field" ≠ endOfClass c.kind := by cases c.kind <;> decide
  rw [classLine, parsed, ok_bind, keeps, checkNested_keep, ok_bind]
  dsimp only
  rw [named, if_neg noEnd, if_neg (by decide), if_neg (by decide), if_pos rfl, reads]
  rfl

theorem takes_fieldWords (keeps : c.mode = .keep) (operands : List (List Char))
    (all : ∀ w ∈ operands, Text.IsWord w)
    (split : f.listed.toList = '.' :: ("field".toList ++ Text.spaced operands))
    (reads : FieldLine.parse (n + 1) (spelled "field" operands) = .ok (f.line type (n + 1))) :
    Takes (indented 1 f.listed) { r with block := .inClass c } n
      { r with block := .inClass { c with fields := c.fields ++ [f.line type (n + 1)] } }
      (n + 1) := by
  refine .words 1 "field" operands split (by decide) (by decide) all fun raw parsed => ?_
  change (classLine _ c (n + 1) raw).mapError _ = _
  rw [classLine_field keeps parsed (nameText_spelled _ _) reads]
  rfl

/-- A field with a text is shown by a line that ends in a quoted constant. -/
theorem listed_text (plain : f.IsPlain type) {s : String} (isText : f.value = some (.string s)) :
    f.listed.toList = FieldLine.textLine .keep f.name.toList f.modifiers false s ∧
      FieldLine.holding .keep f.name.toList f.modifiers s n = f.line type n := by
  have isType : type = ⟨0, .object "java/lang/String"⟩ := plain.value _ isText
  have desc : f.desc = "Ljava/lang/String;" := by
    rw [← TypeDesc.text_of_parse plain.parses, isType]
    decide
  obtain ⟨static, priv⟩ := f.any_modifiers
  constructor
  · rw [FieldDecl.toList_listed, isText, desc]
    simp [FieldLine.textLine, FieldLine.textWords, Mode.quotedLine, Mode.mark,
      FieldDecl.listedValue, ListedInsn.quoted, Text.spaced]
  · rw [FieldLine.holding, FieldDecl.line, plain.name.ofChars, static, priv, isText, desc, isType]

theorem takes_field (keeps : c.mode = .keep) (plain : f.IsPlain type) (n : Nat) :
    Takes (indented 1 f.listed) { r with block := .inClass c } n
      { r with block := .inClass { c with fields := c.fields ++ [f.line type (n + 1)] } }
      (n + 1) := by
  have front : ∀ w ∈ f.name.toList :: f.desc.toList :: f.modifiers, Text.IsWord w :=
    List.forall_mem_cons.2 ⟨plain.name.word, List.forall_mem_cons.2 ⟨plain.word, fun w member =>
      (f.isModifier_modifiers w member).isWord⟩⟩
  have number (v : Constant) (isValue : f.value = some v) (noText : ∀ s, v ≠ .string s) :
      Takes (indented 1 f.listed) { r with block := .inClass c } n
        { r with block := .inClass { c with fields := c.fields ++ [f.line type (n + 1)] } }
        (n + 1) := by
    have numeral := (FieldLine.constant_numeral (plain.value v isValue) noText).1
    refine takes_fieldWords keeps (f.name.toList :: f.desc.toList :: (f.modifiers ++
      [(FieldDecl.listedValue v).toList])) ?_ ?_
        (FieldLine.parse_number plain isValue noText (n + 1))
    · rw [← List.cons_append, ← List.cons_append]
      exact List.forall_mem_append.2 ⟨front, List.forall_mem_singleton.2 numeral.isWord⟩
    · rw [FieldDecl.toList_listed, isValue]
      rfl
  cases value : f.value with
  | none =>
    refine takes_fieldWords keeps (f.name.toList :: f.desc.toList :: f.modifiers) front ?_ ?_
    · rw [FieldDecl.toList_listed, value, Option.map_none, Option.toList_none, List.map_nil,
        List.append_nil]
    · exact FieldLine.parse_without_value plain value rfl (params_spelled _ front) (n + 1)
  | some v =>
    cases v with
    | string s =>
      obtain ⟨split, holds⟩ := listed_text (n := n + 1) plain value
      have isWord := FieldLine.isWord_textWords false plain.name.word f.isModifier_modifiers
      refine .line 1 ?_ ?_ ?_ ?_ ?_ <;> rw [split]
      · exact Mode.isLine_quotedLine .keep _ _ s (by decide) isWord
      · rintro c ⟨⟩
        decide
      · exact Mode.last_quotedLine .keep _ _ s
      · rfl
      · change (classLine _ c (n + 1) _).mapError _ = _
        rw [classLine_textLine .keep false s (n + 1) plain.name.word f.isModifier_modifiers
          (fun changed => absurd keeps changed), holds]
        rfl
    | int | long | float | double | classRef => exact number _ value nofun

end Script

/-! ### Methods -/

/-- A block shows a method with a body that scripts can spell out. -/
def MethodDecl.ShownBy (m : MethodDecl) (block : MethodBlock) : Prop :=
  ∃ type code insns n, m.IsPlain type code ∧ block = m.block type insns n ∧
    code.ShownBy (.ofCode code) type insns

namespace MethodBlock

theorem withModifiers_flagWords (block : MethodBlock) (access : Access)
    (fresh : block.isStatic = false) (fresh' : block.isPrivate = false)
    (fresh'' : block.isProtected = false) :
    withModifiers block
      ((flagWords access [(Access.isStatic, "static"), (Access.isPrivate, "private"),
        (Access.isProtected, "protected")]).map String.toList) =
      .ok { block with
        isStatic := access.hasAny Access.isStatic
        isPrivate := access.hasAny Access.isPrivate
        isProtected := access.hasAny Access.isProtected } := by
  obtain ⟨mode, ident, desc, type, isStatic, isPrivate, isProtected, insns, line⟩ := block
  obtain rfl : isStatic = false := fresh
  obtain rfl : isPrivate = false := fresh'
  obtain rfl : isProtected = false := fresh''
  rw [flagWords_cons, flagWords_cons, flagWords_cons, flagWords_nil, List.append_nil,
    List.map_append, List.map_append]
  cases access.hasAny Access.isStatic <;> cases access.hasAny Access.isPrivate <;>
    cases access.hasAny Access.isProtected <;> rfl

end MethodBlock

namespace Script

variable {r : Reading} {c : ClassBlock} {b : MethodBlock} {m : MethodDecl} {type : MethodDesc}
  {code : Code} {n : Nat}

theorem takes_method (keeps : c.mode = .keep) (plain : m.IsPlain type code) (n : Nat) :
    Takes (indented 1 (" ".intercalate ([".method", m.name, m.desc] ++ flagWords m.access
        [(Access.isStatic, "static"), (Access.isPrivate, "private"),
          (Access.isProtected, "protected")])))
      { r with block := .inClass c } n
      { r with block := .inMethod c (m.block type [] (n + 1)) } (n + 1) := by
  generalize isWords :
    (flagWords m.access [(Access.isStatic, "static"), (Access.isPrivate, "private"),
      (Access.isProtected, "protected")]) = words
  have modifiers : ∀ w ∈ words.map String.toList, Text.IsWord w := by
    intro w member
    obtain ⟨v, inside, rfl⟩ := List.mem_map.1 member
    rw [← isWords, flagWords] at inside
    obtain ⟨flag, isFlag, rfl⟩ := List.mem_map.1 inside
    have known := List.mem_of_mem_filter isFlag
    simp only [List.mem_cons, List.not_mem_nil, or_false] at known
    rcases known with rfl | rfl | rfl <;> decide
  have all : ∀ w ∈ m.name.toList :: m.desc.toList :: words.map String.toList, Text.IsWord w :=
    List.forall_mem_cons.2 ⟨plain.name.word, List.forall_mem_cons.2 ⟨plain.word, modifiers⟩⟩
  refine .words 1 "method" (m.name.toList :: m.desc.toList :: words.map String.toList) ?_
    (by decide) (by decide) all
    fun raw parsed => ?_
  · rw [String.toList_intercalate]
    simp only [List.map_cons, List.cons_append, List.nil_append]
    exact Text.intercalate_space _ _
  · have parses : MethodDesc.parseChars m.desc.toList = .ok type := plain.parses
    have reads : MethodBlock.parseHead (n + 1)
        (spelled "method" (m.name.toList :: m.desc.toList :: words.map String.toList)) =
          .ok (m.block type [] (n + 1)) := by
      rw [MethodBlock.parseHead, params_spelled _ all]
      dsimp only
      rw [parses, mapError_ok, ok_bind, ← isWords,
        MethodBlock.withModifiers_flagWords _ _ rfl rfl rfl, plain.name.ofChars,
        String.ofList_toList]
      rfl
    have noEnd : "method" ≠ endOfClass c.kind := by cases c.kind <;> decide
    change (classLine _ c (n + 1) raw).mapError _ = _
    rw [classLine, parsed, ok_bind, keeps, checkNested_keep, ok_bind]
    dsimp only
    rw [nameText_spelled, if_neg noEnd, if_neg (by decide), if_neg (by decide), if_neg (by decide),
      if_pos rfl, reads]
    rfl

theorem takes_endMethod (keeps : b.mode = .keep) (n : Nat) :
    Takes (indented 1 ".end-method") { r with block := .inMethod c b } n
      { r with block := .inClass { c with methods := c.methods ++ [b] } } (n + 1) := by
  refine .words 1 "end-method" [] rfl (by decide) (by decide) (List.forall_mem_nil _)
    fun raw parsed => ?_
  change (methodLine _ c b (n + 1) raw).mapError _ = _
  rw [methodLine, parsed, ok_bind, keeps, checkNested_keep, ok_bind, nameText_spelled, if_pos rfl]
  rfl

/-- The lines of a method are read as a block that shows the method. -/
theorem takes_listedMethod (keeps : c.mode = .keep) (plain : m.IsPlain type code) (n : Nat) :
    ∃ block n', Takes m.listed { r with block := .inClass c } n
        { r with block := .inClass { c with methods := c.methods ++ [block] } } n' ∧
          m.ShownBy block := by
  obtain ⟨insns, n', takes, shown⟩ :=
    Code.takes_listed plain.code r c (m := m.block type [] (n + 1)) rfl (n + 1)
  refine ⟨m.block type insns (n + 1), n' + 1, ?_, type, code, insns, n + 1, plain, rfl, shown⟩
  rw [MethodDecl.listed, plain.body]
  exact ((takes_method keeps plain n).append takes).append (takes_endMethod rfl n')

end Script

/-! ### Classes -/

namespace ClassSet

/-- The methods that a listing shows: those with a body that are not hidden. -/
def listedMethods (set : ClassSet) (id : ClassId) : List MethodId :=
  (set.classAt id).methods.filter fun m => !(set.methodAt m).hidden && (set.methodAt m).code.isSome

/-- A class that scripts can spell out. -/
structure IsPlain (set : ClassSet) (id : ClassId) : Prop where
  name : IsPlainName (set.classAt id).name
  superName : ∀ name, (set.classAt id).superName = some name → IsPlainName name
  interfaces : ∀ name ∈ (set.classAt id).interfaces, IsPlainName name
  fields : ∀ f ∈ set.fieldCandidates id, ∃ type, (set.fieldAt f).IsPlain type
  methods : ∀ m ∈ set.listedMethods id, ∃ type code, (set.methodAt m).IsPlain type code

def supertypeLine (name : String) : SupertypeLine := ⟨.keep, ⟨name, false⟩⟩

/-- A block shows a class with its members. -/
structure ShownBy (set : ClassSet) (id : ClassId) (block : ClassBlock) : Prop where
  mode : block.mode = .keep
  kind : block.kind = .ordinary
  ident : block.ident = ⟨(set.classAt id).name, false⟩
  supers : block.supers =
    ((set.classAt id).superName.toList.filter (· != objectClass)).map supertypeLine
  interfaces : block.interfaces = (set.classAt id).interfaces.map supertypeLine
  fields : List.Forall₂ (fun f l => ∃ type n, (set.fieldAt f).IsPlain type ∧
    l = (set.fieldAt f).line type n)
    (set.fieldCandidates id) block.fields
  methods : List.Forall₂ (fun m b => (set.methodAt m).ShownBy b)
    (set.listedMethods id) block.methods

end ClassSet

namespace Script

variable {r : Reading} {c : ClassBlock} {n : Nat} {set : ClassSet} {id : ClassId}

theorem takes_supers {names : List String} (plain : ∀ name ∈ names, IsPlainName name)
    (keeps : c.mode = .keep) (n : Nat) :
    ∃ n', Takes (String.join (names.map fun name => indented 1 (".super " ++ name)))
      { r with block := .inClass { c with supers := [] } } n
      { r with block := .inClass { c with supers := names.map ClassSet.supertypeLine } } n' := by
  obtain ⟨lines, n', takes, all⟩ := Takes.each (fun name => indented 1 (".super " ++ name))
    (fun lines => { r with block := .inClass { c with supers := lines } })
    (fun name line => line = ClassSet.supertypeLine name)
    (fun name member lines n => ⟨_, n + 1,
      takes_super (r := r) (c := { c with supers := lines }) keeps (plain name member) n, rfl⟩) [] n
  obtain rfl : lines = names.map ClassSet.supertypeLine := by
    rw [← List.forall₂_eq_eq_eq, List.forall₂_map_right_iff]
    exact all.flip
  exact ⟨n', takes⟩

theorem takes_interfaces {names : List String} (plain : ∀ name ∈ names, IsPlainName name)
    (keeps : c.mode = .keep) (n : Nat) :
    ∃ n', Takes (String.join (names.map fun name => indented 1 (".interface " ++ name)))
      { r with block := .inClass { c with interfaces := [] } } n
      { r with block := .inClass { c with interfaces := names.map ClassSet.supertypeLine } }
      n' := by
  obtain ⟨lines, n', takes, all⟩ := Takes.each (fun name => indented 1 (".interface " ++ name))
    (fun lines => { r with block := .inClass { c with interfaces := lines } })
    (fun name line => line = ClassSet.supertypeLine name)
    (fun name member lines n => ⟨_, n + 1,
      takes_interface (r := r) (c := { c with interfaces := lines }) keeps
      (plain name member) n, rfl⟩) [] n
  obtain rfl : lines = names.map ClassSet.supertypeLine := by
    rw [← List.forall₂_eq_eq_eq, List.forall₂_map_right_iff]
    exact all.flip
  exact ⟨n', takes⟩

theorem takes_fields {fields : List FieldId}
    (plain : ∀ f ∈ fields, ∃ type, (set.fieldAt f).IsPlain type)
    (keeps : c.mode = .keep) (n : Nat) :
    ∃ lines n', Takes (String.join (fields.map fun f => indented 1 (set.fieldAt f).listed))
        { r with block := .inClass { c with fields := [] } } n
        { r with block := .inClass { c with fields := lines } } n' ∧
      List.Forall₂
        (fun f l => ∃ type n, (set.fieldAt f).IsPlain type ∧ l = (set.fieldAt f).line type n)
        fields lines :=
  Takes.each (fun f => indented 1 (set.fieldAt f).listed)
    (fun lines => { r with block := .inClass { c with fields := lines } }) _
    (fun f member lines n => by
      obtain ⟨type, isPlain⟩ := plain f member
      exact ⟨(set.fieldAt f).line type (n + 1), n + 1,
        takes_field (r := r) (c := { c with fields := lines }) keeps isPlain n, type, n + 1,
        isPlain, rfl⟩) [] n

theorem takes_methods {methods : List MethodId}
    (plain : ∀ m ∈ methods, ∃ type code, (set.methodAt m).IsPlain type code)
    (keeps : c.mode = .keep) (n : Nat) :
    ∃ blocks n', Takes (String.join (methods.map fun m => (set.methodAt m).listed))
        { r with block := .inClass { c with methods := [] } } n
        { r with block := .inClass { c with methods := blocks } } n' ∧
      List.Forall₂ (fun m b => (set.methodAt m).ShownBy b) methods blocks :=
  Takes.each (fun m => (set.methodAt m).listed)
    (fun blocks => { r with block := .inClass { c with methods := blocks } }) _
    (fun m member blocks n => by
      obtain ⟨type, code, isPlain⟩ := plain m member
      exact takes_listedMethod (r := r) (c := { c with methods := blocks }) keeps isPlain n) [] n

/-- Methods without a body have no lines. -/
theorem join_listed (set : ClassSet) (methods : List MethodId) :
    String.join ((methods.filter fun m => !(set.methodAt m).hidden).map
      fun m => (set.methodAt m).listed) =
      String.join ((methods.filter
        fun m => !(set.methodAt m).hidden && (set.methodAt m).code.isSome).map
        fun m => (set.methodAt m).listed) := by
  induction methods with
  | nil => rfl
  | cons m methods ih =>
    cases hidden : (set.methodAt m).hidden with
    | true =>
      rw [List.filter_cons_of_neg (by simp [hidden]),
        List.filter_cons_of_neg (by simp [hidden]), ih]
    | false =>
      rw [List.filter_cons_of_pos (by simp [hidden]), List.map_cons, String.join_cons, ih]
      cases code : (set.methodAt m).code with
      | some body =>
        rw [List.filter_cons_of_pos (by simp [hidden, code]), List.map_cons, String.join_cons]
      | none =>
        have none : (set.methodAt m).listed = "" := by rw [MethodDecl.listed, code]
        rw [List.filter_cons_of_neg (by simp [code]), none, String.empty_append]

/-- The listing of a class is read as one block, which shows the class. -/
theorem parse_listing (plain : set.IsPlain id) :
    ∃ block, Script.parse (set.listing id) = .ok ⟨[block]⟩ ∧ set.ShownBy id block := by
  have superNames : ∀ name ∈ (set.classAt id).superName.toList.filter (· != objectClass),
      IsPlainName name :=
    fun name member => plain.superName name (Option.mem_toList.1 (List.mem_of_mem_filter member))
  have opens := takes_class plain.name 0
  obtain ⟨n₁, takesSupers⟩ := takes_supers (r := {})
    (c := ⟨.keep, .ordinary, ⟨(set.classAt id).name, false⟩, 1, [], [], [], []⟩) superNames rfl 1
  obtain ⟨n₂, takesInterfaces⟩ := takes_interfaces (r := {})
    (c := ⟨.keep, .ordinary, ⟨(set.classAt id).name, false⟩, 1,
      ((set.classAt id).superName.toList.filter (· != objectClass)).map ClassSet.supertypeLine, [],
      [], []⟩)
    plain.interfaces rfl n₁
  obtain ⟨fields, n₃, takesFields, areFields⟩ := takes_fields (r := {})
    (c := ⟨.keep, .ordinary, ⟨(set.classAt id).name, false⟩, 1,
      ((set.classAt id).superName.toList.filter (· != objectClass)).map ClassSet.supertypeLine,
      (set.classAt id).interfaces.map ClassSet.supertypeLine, [], []⟩) plain.fields rfl n₂
  obtain ⟨methods, n₄, takesMethods, areMethods⟩ := takes_methods (r := {})
    (c := ⟨.keep, .ordinary, ⟨(set.classAt id).name, false⟩, 1,
      ((set.classAt id).superName.toList.filter (· != objectClass)).map ClassSet.supertypeLine,
      (set.classAt id).interfaces.map ClassSet.supertypeLine, fields, []⟩) plain.methods rfl n₃
  have ends := takes_endClass (r := {})
    (c := ⟨.keep, .ordinary, ⟨(set.classAt id).name, false⟩, 1,
      ((set.classAt id).superName.toList.filter (· != objectClass)).map ClassSet.supertypeLine,
      (set.classAt id).interfaces.map ClassSet.supertypeLine, fields, methods⟩) rfl rfl n₄
  have takes := (((opens.append (takesSupers.append takesInterfaces)).append takesFields).append
    takesMethods).append
    ends
  refine ⟨⟨.keep, .ordinary, ⟨(set.classAt id).name, false⟩, 1,
    ((set.classAt id).superName.toList.filter (· != objectClass)).map ClassSet.supertypeLine,
    (set.classAt id).interfaces.map ClassSet.supertypeLine, fields, methods⟩, ?_, rfl, rfl, rfl,
      rfl, rfl, areFields,
    areMethods⟩
  have whole := takes []
  rw [List.append_nil] at whole
  rw [parse, ClassSet.listing, join_listed, ClassHeader.listedSupertypes]
  dsimp only [List.append_eq, ClassSet.listedMethods] at whole ⊢
  rw [whole]
  rfl

end Script

end JvmPatch
