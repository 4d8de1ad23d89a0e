import JvmPatch.Proofs.Listing.Operands
import JvmPatch.Proofs.Script.Places

/-! String constants in scripts. A constant that has been quoted is read from a line as the text
that it was quoted for, whatever the text, and an accepted script has exactly one instruction or
field from that line. -/

set_option autoImplicit false

namespace JvmPatch

theorem Mode.isBlank_mark (mode : Mode) : Text.isBlank mode.mark = false := by
  cases mode <;> decide

/-! ### Lines that end in a quoted constant -/

/-- A line of a command with some words after it and then a quoted constant. -/
def Mode.quotedLine (mode : Mode) (command : List Char) (ws : List (List Char))
    (s : String) : List Char :=
  mode.mark :: (command ++ (Text.spaced ws ++ ' ' :: Text.quote s.toList))

section QuotedLine

variable (mode : Mode) (command : List Char) (ws : List (List Char)) (s : String)

/-- What a line that ends in a quoted constant is split into. -/
theorem Command.parse_quotedLine (word : Text.IsWord command)
    (small : command.map Text.lowerAscii = command) (all : ∀ w ∈ ws, Text.IsWord w) :
    ∃ c w ws', Command.parse (mode.quotedLine command ws s) = .ok c ∧ c.mode = mode ∧
      c.name = command ∧
      c.params = ws ++ ('"' :: w) :: ws' ∧ c.textFrom ws.length = Text.quote s.toList := by
  obtain ⟨ts, split, chars⟩ := Text.words_spaced all (.space (Text.quote s.toList))
  obtain ⟨w, us, quoted⟩ := Text.words_cons (show Text.isBlank '"' = false by decide)
    (s.toList.flatMap Text.escape ++ ['"'])
  refine ⟨_, w, us.map Text.Word.chars,
    Command.parse_marked mode word small
      (Text.startsApart_spaced ws (.space (Text.quote s.toList))), rfl, rfl, ?_, ?_⟩
  · rw [Command.params, split, Text.words_space, Text.quote, quoted, List.map_append, chars]
    rfl
  · have length : ws.length = ts.length := by rw [← chars, List.length_map]
    rw [Command.textFrom, split, Text.words_space, length]
    dsimp only
    rw [List.getElem?_append_right (Nat.le_refl _), Nat.sub_self]
    conv_lhs => rw [Text.quote, quoted]
    rfl

theorem Mode.isLine_quotedLine (word : Text.IsWord command) (all : ∀ w ∈ ws, Text.IsWord w) :
    Text.IsLine (mode.quotedLine command ws s) := by
  refine .cons (.append word.isLine (.append (Text.isLine_spaced all) ?_)) ?_ ?_
  · exact (Text.quote_isLine _).cons (by decide) (by decide)
  all_goals cases mode <;> decide

theorem Mode.last_quotedLine : ∀ c ∈ (mode.quotedLine command ws s).getLast?,
    Text.isBlank c = false := by
  have ends : mode.quotedLine command ws s =
      (mode.mark :: (command ++ (Text.spaced ws ++ [' ']))) ++ Text.quote s.toList := by
        simp [quotedLine]
  rw [ends, List.getLast?_append, Text.getLast?_quote]
  rintro c ⟨⟩
  decide

theorem Mode.trim_quotedLine :
    Text.trim (mode.quotedLine command ws s) = mode.quotedLine command ws s := by
  refine Text.trim_indented ?_ (mode.last_quotedLine command ws s) 0
  rintro c ⟨⟩
  exact mode.isBlank_mark

theorem Mode.isPassedOver_quotedLine :
    Script.isPassedOver (mode.quotedLine command ws s) = false := by
  cases mode <;> rfl

end QuotedLine

/-! ### Within a switch -/

section QuotedLine

variable (mode : Mode) {c : Char} (letter : c = 'p' ∨ c = 'f')

include letter

theorem Pattern.int32_letter (k : List Char) (n : Operand Int32) :
    int32 (mode.mark :: c :: k) ≠ .ok n := by
  rcases letter with rfl | rfl <;> cases mode <;> exact nofun

theorem Mode.isNoCase_letter (line : List Char)
    (trimmed : Text.trim (mode.mark :: c :: line) = mode.mark :: c :: line) :
    IsNoCase (mode.mark :: c :: line) := by
  constructor
  · intro t
    rw [trimmed]
    cases mode <;>
    · intro isRead
      cases isRead
  · intro q
    have noColon : c ≠ ':' ∧ mode.mark ≠ ':' ∧ Text.isBlank c = false := by
      rcases letter with rfl | rfl <;> cases mode <;> decide
    rw [Pattern.switchCase, Pattern.splitColon?, Pattern.splitColon?, if_neg noColon.1,
      if_neg noColon.2.1]
    cases Pattern.splitColon? line with
    | none =>
      intro isRead
      cases isRead
    | some parts =>
      intro isRead
      obtain ⟨key, isKey, -⟩ := bind_eq_ok isRead
      rw [Text.trim_cons mode.isBlank_mark, Text.trimEnd_cons noColon.2.2] at isKey
      exact Pattern.int32_letter mode letter _ key isKey

end QuotedLine

namespace Script

/-! ### Lines that push a constant -/

theorem checkNested_of_governs {outer inner : Mode} (governs : outer.Governs inner)
    (what : String) :
    checkNested outer inner what = .ok () :=
  if_neg fun both => both.2 (governs both.1)

section QuotedLine

variable (mode : Mode) (command : List Char) (ws : List (List Char)) (s : String)

theorem counts_quotedLine (word : Text.IsWord command) (all : ∀ w ∈ ws, Text.IsWord w) :
    Counts (mode.quotedLine command ws s) :=
  ⟨mode.isLine_quotedLine command ws s word all, List.cons_ne_nil _ _,
    mode.trim_quotedLine command ws s, mode.isPassedOver_quotedLine command ws s⟩

/-- Within a switch, a line that ends in a quoted constant makes it one that cannot be closed. -/
theorem switchLine_quotedLine {first : Char} (head : command.head? = some first)
    (letter : first = 'p' ∨ first = 'f') {n : Nat} (r : Reading) {c : ClassBlock} {m : MethodBlock}
    {o : OpenSwitch} (elsewhere : (OpenBlock.inSwitch c m o).SwitchNotAt n) :
    Ends (fun r' => r'.block.Spoiled) (fun _ => True)
      (switchLine r c m o (mode.quotedLine command ws s)) := by
  have trimmed := mode.trim_quotedLine command ws s
  obtain ⟨rest, rfl⟩ := List.head?_eq_some_iff.1 head
  have noEnd : Text.sameIgnoringCase (mode.quotedLine (first :: rest) ws s) o.closing = false := by
    rw [Text.sameIgnoringCase, beq_eq_false_iff_ne]
    intro same
    have second := (List.cons.inj (List.cons.inj same).2).1
    rcases letter with rfl | rfl <;> exact absurd second (by decide)
  unfold switchLine
  rw [if_neg (by simp [noEnd])]
  exact ⟨elsewhere.2, _, List.mem_append_right _ (.head _), mode.isNoCase_letter letter _ trimmed⟩

end QuotedLine

end Script

/-- The line of an instruction that pushes a text, as it is written. -/
def Mode.pushLine (mode : Mode) (s : String) : List Char :=
  mode.quotedLine "push-string".toList [] s

/-- The instruction that pushes a text, from the line of a number. -/
def InsnLine.pushing (mode : Mode) (s : String) (n : Nat) : InsnLine :=
  ⟨mode, .pushString, .pushString (.is s), n, String.ofList (mode.pushLine s)⟩

namespace Script

section Pushing

variable (mode : Mode) (s : String) (n : Nat)

theorem parse_pushLine : ∃ c, Command.parse (mode.pushLine s) = .ok c ∧ c.mode = mode ∧
    c.nameText = "push-string" ∧
    PatternKind.ofName? c.name = some .pushString ∧ c.textFrom 0 = Text.quote s.toList := by
  obtain ⟨c, w, ws', split, sameMode, name, -, rest⟩ :=
    Command.parse_quotedLine mode "push-string".toList [] s
      (by decide) (by decide) (List.forall_mem_nil _)
  refine ⟨c, split, sameMode, ?_, ?_, rest⟩
  · rw [Command.nameText, name]
    rfl
  · rw [name]
    decide

theorem ofCommand_pushLine {c : Command} (sameMode : c.mode = mode)
    (rest : c.textFrom 0 = Text.quote s.toList) :
    InsnLine.ofCommand n (mode.pushLine s) c .pushString [] = .ok (.pushing mode s n) := by
  have compiled : Pattern.compile .pushString c.params (c.textFrom 0) [] =
      .ok (.pushString (.is s)) := by
    rw [Pattern.compile, rest, Pattern.stringOperand_quote]
    rfl
  rw [InsnLine.ofCommand, compiled, sameMode]
  cases mode <;> rfl

theorem methodLine_pushLine {m : MethodBlock} (governs : m.mode.Governs mode) (r : Reading)
    (c : ClassBlock) :
    methodLine r c m n (mode.pushLine s) =
      .ok { r with block := .inMethod c { m with insns := m.insns ++ [.pushing mode s n] } } := by
  obtain ⟨command, split, sameMode, name, named, rest⟩ := parse_pushLine mode s
  rw [methodLine, split, ok_bind, checkNested_of_governs (sameMode ▸ governs), ok_bind,
    if_neg (by rw [name]; decide), named]
  dsimp only
  rw [if_neg (by decide), ofCommand_pushLine mode s n sameMode rest]
  rfl

/-- The line of an accepted script that pushes a text stands in a method block. -/
theorem significantLine_pushLine {r r' : Reading} (elsewhere : r.block.SwitchNotAt n)
    (step : significantLine r n (mode.pushLine s) = .ok r') (fine : ¬r'.block.Spoiled) :
    r'.block.SwitchNotAt n ∧ r'.insnsAt n = r.insnsAt n ++ [.pushing mode s n] := by
  obtain ⟨command, split, sameMode, name, named, rest⟩ := parse_pushLine mode s
  obtain ⟨classes, block⟩ := r
  cases block with
  | none =>
    have refused : openClass n (mode.pushLine s) = .error (.unexpected "push-string") := by
      rw [openClass, split, ok_bind, name]
      rfl
    change Except.mapError _ (Except.map _ (openClass n (mode.pushLine s))) = _ at step
    rw [refused] at step
    cases step
  | inClass c =>
    have step := mapError_eq_ok
      (show Except.mapError _ (classLine _ c n (mode.pushLine s)) = _ from step)
    rw [classLine, split, ok_bind] at step
    obtain ⟨_, -, step⟩ := bind_eq_ok step
    have noEnd : "push-string" ≠ endOfClass c.kind := by cases c.kind <;> decide
    dsimp only at step
    rw [name, if_neg noEnd] at step
    cases step
  | inMethod c m =>
    have step := mapError_eq_ok
      (show Except.mapError _ (methodLine _ c m n (mode.pushLine s)) = _ from step)
    have governs : m.mode.Governs mode := by
      rw [methodLine, split, ok_bind] at step
      obtain ⟨_, checked, -⟩ := bind_eq_ok step
      exact sameMode ▸ governs_of_checkNested checked
    rw [methodLine_pushLine mode s n governs] at step
    cases step
    exact ⟨trivial, by simp [Reading.insnsAt, OpenBlock.insnLines, InsnLine.pushing]⟩
  | inSwitch c m o =>
    have spoiled := switchLine_quotedLine mode "push-string".toList [] s rfl (.inl rfl) ⟨classes,
      .inSwitch c m o⟩
      elsewhere
    change switchLine ⟨classes, .inSwitch c m o⟩ c m o (mode.pushLine s) = _ at step
    rw [← Mode.pushLine, step] at spoiled
    exact absurd spoiled fine

end Pushing

end Script

/-! ### Lines of fields with a constant -/

theorem Text.lowerAscii_of_isBlank {c : Char} (blank : isBlank c = true) : lowerAscii c = c := by
  refine if_neg fun capital => ?_
  have low : 65 ≤ c.toNat := capital.1
  have high : c.toNat ≤ 90 := capital.2
  simp only [isBlank, Bool.or_eq_true, Bool.and_eq_true, decide_eq_true_eq, beq_iff_eq] at blank
  omega

theorem Text.isWord_of_sameIgnoringCase {v w : List Char} (same : sameIgnoringCase w v = true)
    (small : v.map lowerAscii = v) (word : IsWord v) : IsWord w := by
  rw [sameIgnoringCase, beq_iff_eq, small] at same
  subst same
  refine ⟨fun empty => word.ne_nil (by rw [empty]; rfl), fun c member => ?_⟩
  have noBlank := word.noBlank (lowerAscii c) (List.mem_map_of_mem member)
  by_contra blank
  rw [Bool.not_eq_false] at blank
  rw [lowerAscii_of_isBlank blank, blank] at noBlank
  cases noBlank

namespace FieldLine

/-- A word of a field line that says that the field is static, or that it is private. -/
def IsModifier (w : List Char) : Prop :=
  Text.sameIgnoringCase w "static".toList = true ∨ Text.sameIgnoringCase w "private".toList = true

theorem IsModifier.isWord {w : List Char} (modifier : IsModifier w) : Text.IsWord w :=
  modifier.elim (fun same => Text.isWord_of_sameIgnoringCase same (by decide) (by decide))
    fun same => Text.isWord_of_sameIgnoringCase same (by decide) (by decide)

/-- What modifiers say, and that the others go on behind them. -/
theorem modifiersFrom_append {ws : List (List Char)} (all : ∀ w ∈ ws, IsModifier w) (k : Nat)
    (rest : List (List Char)) (m : Modifiers) :
    modifiersFrom k (ws ++ rest) m = modifiersFrom (k + ws.length) rest
      { m with
        isStatic := m.isStatic || ws.any (Text.sameIgnoringCase · "static".toList)
        isPrivate := m.isPrivate || ws.any (Text.sameIgnoringCase · "private".toList) } := by
  induction ws generalizing k m with
  | nil => simp
  | cons w ws ih =>
    have later := ih fun v member => all v (.tail _ member)
    have one : ¬(Text.sameIgnoringCase w "static".toList = true ∧
        Text.sameIgnoringCase w "private".toList = true) := by
      rintro ⟨first, second⟩
      rw [Text.sameIgnoringCase, beq_iff_eq] at first second
      exact absurd (first.symm.trans second) (by decide)
    have place : k + 1 + ws.length = k + (ws.length + 1) := by omega
    rw [List.cons_append, modifiersFrom, List.length_cons, List.any_cons, List.any_cons, ← place]
    rcases all w (.head _) with same | same
    · have other := Bool.eq_false_iff.2 fun both => one ⟨same, both⟩
      rw [if_pos same, later]
      simp only [same, other, Bool.true_or, Bool.or_true, Bool.false_or]
    · have other := Bool.eq_false_iff.2 fun both => one ⟨both, same⟩
      rw [if_neg (Bool.eq_false_iff.1 other), if_pos same, later]
      simp only [same, other, Bool.true_or, Bool.or_true, Bool.false_or]

/-- The words of a line of a text field before its constant. -/
def textWords (name : List Char) (modifiers : List (List Char))
    (equals : Bool) : List (List Char) :=
  name :: "Ljava/lang/String;".toList :: (modifiers ++ if equals then [['=']] else [])

/-- The line of a text field with a constant. The equals sign can be left out. -/
def textLine (mode : Mode) (name : List Char) (modifiers : List (List Char)) (equals : Bool)
    (s : String) : List Char :=
  mode.quotedLine "field".toList (textWords name modifiers equals) s

/-- A text field with a constant, from the line of a number. -/
def holding (mode : Mode) (name : List Char) (modifiers : List (List Char)) (s : String)
    (n : Nat) : FieldLine where
  mode := mode
  ident := Ident.ofChars name
  desc := "Ljava/lang/String;"
  type := ⟨0, .object "java/lang/String"⟩
  isStatic := modifiers.any (Text.sameIgnoringCase · "static".toList)
  isPrivate := modifiers.any (Text.sameIgnoringCase · "private".toList)
  value := some (.string s)
  line := n

variable (mode : Mode) {name : List Char} {modifiers : List (List Char)} (equals : Bool)
  (s : String) (n : Nat)

theorem isWord_textWords (word : Text.IsWord name) (all : ∀ w ∈ modifiers, IsModifier w) :
    ∀ w ∈ textWords name modifiers equals, Text.IsWord w := by
  intro w member
  rcases List.mem_cons.1 member with rfl | member
  · exact word
  rcases List.mem_cons.1 member with rfl | member
  · decide
  rcases List.mem_append.1 member with inside | inside
  · exact (all w inside).isWord
  · cases equals with
    | false => cases inside
    | true =>
      obtain rfl := List.mem_singleton.1 inside
      decide

/-- The constant starts behind the words of the line. -/
theorem modifiersFrom_textWords (name : List Char) (all : ∀ w ∈ modifiers, IsModifier w)
    (w : List Char) (rest : List (List Char)) :
    modifiersFrom 2 ((modifiers ++ if equals then [['=']] else []) ++ ('"' :: w) :: rest) {} =
      { isStatic := modifiers.any (Text.sameIgnoringCase · "static".toList)
        isPrivate := modifiers.any (Text.sameIgnoringCase · "private".toList)
        valueAt := some (textWords name modifiers equals).length } := by
  rw [List.append_assoc, modifiersFrom_append all]
  have apart : Text.sameIgnoringCase ('"' :: w) "static".toList = false ∧
      Text.sameIgnoringCase ('"' :: w) "private".toList = false := by
    constructor <;> exact beq_eq_false_iff_ne.2 fun same =>
      absurd (List.cons.inj same).1 (by decide)
  have count : (textWords name modifiers equals).length = 2 + modifiers.length + if equals then
      1 else 0 := by
    cases equals <;> simp [textWords] <;> omega
  rw [count]
  cases equals with
  | false =>
    rw [if_neg Bool.false_ne_true, List.nil_append, modifiersFrom,
      if_neg (Bool.eq_false_iff.1 apart.1), if_neg (Bool.eq_false_iff.1 apart.2), if_neg (by simp)]
    rfl
  | true => rfl

theorem constant_quote :
    constant ⟨0, .object "java/lang/String"⟩ (Text.quote s.toList) = .ok (.string s) := by
  rw [constant, if_neg (by decide)]
  dsimp only
  rw [if_pos rfl, Text.unquote_quote]
  dsimp only
  rw [String.ofList_toList]

/-- A line of a text field is read as the field with the constant. -/
theorem parse_textLine (word : Text.IsWord name) (all : ∀ w ∈ modifiers, IsModifier w) :
    ∃ c, Command.parse (textLine mode name modifiers equals s) = .ok c ∧ c.mode = mode ∧
      c.name = "field".toList ∧ parse n c = .ok (holding mode name modifiers s n) := by
  obtain ⟨c, w, ws', split, sameMode, command, params, rest⟩ :=
    Command.parse_quotedLine mode "field".toList (textWords name modifiers equals) s
      (by decide) (by decide)
      (isWord_textWords equals word all)
  have value : readValue ⟨0,
      .object "java/lang/String"⟩ c (some (textWords name modifiers equals).length) =
      .ok (some (.string s)) := by
    rw [readValue, rest, Text.trim_quote, if_neg (by rw [Text.quote]; exact Bool.false_ne_true),
      constant_quote]
    rfl
  have isType : TypeDesc.parseChars "Ljava/lang/String;".toList =
    .ok ⟨0, .object "java/lang/String"⟩ := by decide
  refine ⟨c, split, sameMode, command, ?_⟩
  rw [parse, params, textWords, List.cons_append, List.cons_append]
  dsimp only
  rw [isType, modifiersFrom_textWords equals name all, mapError_ok, ok_bind, if_neg (by decide),
    value, sameMode]
  rfl

end FieldLine

namespace Script

section Holding

variable (mode : Mode) {name : List Char} {modifiers : List (List Char)} (equals : Bool)
  (s : String) (n : Nat)
  (word : Text.IsWord name) (all : ∀ w ∈ modifiers, FieldLine.IsModifier w)

include word all

theorem classLine_textLine {c : ClassBlock} (governs : c.mode.Governs mode) (r : Reading) :
    classLine r c n (FieldLine.textLine mode name modifiers equals s) =
      .ok { r with block := .inClass { c with
        fields := c.fields ++ [.holding mode name modifiers s n] } } := by
  obtain ⟨command, split, sameMode, isField, parsed⟩ :=
    FieldLine.parse_textLine mode equals s n word all
  have noEnd : "field" ≠ endOfClass c.kind := by cases c.kind <;> decide
  have nameText : command.nameText = "field" := by rw [Command.nameText, isField]; rfl
  rw [classLine, split, ok_bind, checkNested_of_governs (sameMode ▸ governs), ok_bind]
  dsimp only
  rw [nameText, if_neg noEnd, if_neg (by decide), if_neg (by decide), if_pos rfl, parsed]
  rfl

/-- The line of an accepted script that holds a text field stands in a class block. -/
theorem significantLine_textLine {r r' : Reading} (elsewhere : r.block.SwitchNotAt n)
    (step : significantLine r n (FieldLine.textLine mode name modifiers equals s) = .ok r')
    (fine : ¬r'.block.Spoiled) :
    r'.block.SwitchNotAt n ∧
      r'.fieldsAt n = r.fieldsAt n ++ [.holding mode name modifiers s n] := by
  obtain ⟨command, split, sameMode, isField, -⟩ := FieldLine.parse_textLine mode equals s n word all
  have nameText : command.nameText = "field" := by rw [Command.nameText, isField]; rfl
  obtain ⟨classes, block⟩ := r
  cases block with
  | none =>
    have refused : openClass n (FieldLine.textLine mode name modifiers equals s) =
        .error (.unexpected "field") := by
      rw [openClass, split, ok_bind, nameText]
      rfl
    change Except.mapError _ (Except.map _ (openClass n _)) = _ at step
    rw [refused] at step
    cases step
  | inClass c =>
    have step := mapError_eq_ok (show Except.mapError _ (classLine _ c n _) = _ from step)
    have governs : c.mode.Governs mode := by
      rw [classLine, split, ok_bind] at step
      obtain ⟨_, checked, -⟩ := bind_eq_ok step
      exact sameMode ▸ governs_of_checkNested checked
    rw [classLine_textLine mode equals s n word all governs] at step
    cases step
    exact ⟨trivial, by simp [Reading.fieldsAt, OpenBlock.fieldLines, FieldLine.holding]⟩
  | inMethod c m =>
    have step := mapError_eq_ok (show Except.mapError _ (methodLine _ c m n _) = _ from step)
    have unknown : PatternKind.ofName? command.name = none := by rw [isField]; decide
    rw [methodLine, split, ok_bind] at step
    obtain ⟨_, -, step⟩ := bind_eq_ok step
    rw [nameText, if_neg (by decide), unknown] at step
    cases step
  | inSwitch c m o =>
    have spoiled := switchLine_quotedLine mode "field".toList
      (FieldLine.textWords name modifiers equals) s rfl
      (.inr rfl) ⟨classes, .inSwitch c m o⟩ elsewhere
    change switchLine ⟨classes, .inSwitch c m o⟩ c m o _ = _ at step
    rw [← FieldLine.textLine, step] at spoiled
    exact absurd spoiled fine

end Holding

/-- A constant that has been quoted is read as the text that it was quoted for. A line that pushes
it is read as one instruction where a method block is open, and a line of a text field as one field
where a class block is open. An accepted script has exactly this from the line, wherever the line
stands. -/
theorem parse_quoted (s : String) :
    Text.unquote (Text.quote s.toList) = .ok s.toList ∧
    (∀ {text : String} (l : Text.LineIn text.toList) {mode : Mode}, l.line = mode.pushLine s →
      (∀ {classes : List ClassBlock} {c : ClassBlock} {m : MethodBlock}, m.mode.Governs mode →
        readLines {} 0 (Text.lines l.front) = .ok ⟨classes, .inMethod c m⟩ →
        readLines {} 0 (Text.lines text.toList) = readLines
          ⟨classes, .inMethod c { m with insns := m.insns ++ [.pushing mode s l.number] }⟩ l.number
          (Text.lines l.rest.tail)) ∧
      ∀ {script : Script}, parse text = .ok script →
        script.insnLines.filter (·.line == l.number) = [.pushing mode s l.number]) ∧
    ∀ {text : String} (l : Text.LineIn text.toList) {mode : Mode} {name : List
      Char} {modifiers : List (List Char)}
      {equals : Bool}, Text.IsWord name → (∀ w ∈ modifiers, FieldLine.IsModifier w) →
      l.line = FieldLine.textLine mode name modifiers equals s →
      (∀ {classes : List ClassBlock} {c : ClassBlock}, c.mode.Governs mode →
        readLines {} 0 (Text.lines l.front) = .ok ⟨classes, .inClass c⟩ →
        readLines {} 0 (Text.lines text.toList) = readLines
          ⟨classes, .inClass { c with
            fields := c.fields ++ [.holding mode name modifiers s l.number] }⟩ l.number
          (Text.lines l.rest.tail)) ∧
      ∀ {script : Script}, parse text = .ok script →
        (script.classes.flatMap ClassBlock.fields).filter (·.line == l.number) =
          [.holding mode name modifiers s l.number] := by
  refine ⟨Text.unquote_quote _, fun l mode isLine => ?_,
    fun l mode name modifiers equals word all isLine => ?_⟩
  · have counts : Counts l.line :=
      isLine ▸ counts_quotedLine mode _ _ s (by decide) (List.forall_mem_nil _)
    refine ⟨fun governs read => ?_, fun parsed => ?_⟩
    · refine readLines_line l counts read ?_
      rw [isLine]
      exact congrArg (Except.mapError _) (methodLine_pushLine mode s l.number governs _ _)
    · obtain ⟨r, r', ⟨none, -, elsewhere⟩, step, fine, same⟩ := exists_step_of_parse l counts parsed
      obtain ⟨elsewhere', one⟩ :=
        significantLine_pushLine mode s l.number elsewhere (isLine ▸ step) fine
      rw [(same elsewhere').1, one, none]
      rfl
  · have counts : Counts l.line :=
      isLine ▸ counts_quotedLine mode _ _ s (by decide) (FieldLine.isWord_textWords equals word all)
    refine ⟨fun governs read => ?_, fun parsed => ?_⟩
    · refine readLines_line l counts read ?_
      rw [isLine]
      exact congrArg (Except.mapError _)
        (classLine_textLine mode equals s l.number word all governs _)
    · obtain ⟨r, r', ⟨-, none, elsewhere⟩, step, fine, same⟩ := exists_step_of_parse l counts parsed
      obtain ⟨elsewhere', one⟩ :=
        significantLine_textLine mode equals s l.number word all elsewhere (isLine ▸ step) fine
      rw [(same elsewhere').2, one, none]
      rfl

/-- A class with a text field and with a method that pushes the same text, a quote and a line
separator. -/
def quotedTwice : String :=
  ".class A\n.field f Ljava/lang/String; Static = \"\\\"\u2028\"\n" ++
    ".method m ()V\n\t.push-string \"\\\"\u2028\" \n.end-method\n.end-class"

def fieldOfQuotedTwice : Text.LineIn quotedTwice.toList where
  front := ".class A\n".toList
  indent := []
  line := ".field f Ljava/lang/String; Static = \"\\\"\u2028\"".toList
  trail := []
  rest := "\n.method m ()V\n\t.push-string \"\\\"\u2028\" \n.end-method\n.end-class".toList
  split := by decide +kernel
  ends := by decide
  indented := nofun
  trailing := nofun
  breaks := by rintro c ⟨⟩; rfl

def pushOfQuotedTwice : Text.LineIn quotedTwice.toList where
  front := ".class A\n.field f Ljava/lang/String; Static = \"\\\"\u2028\"\n.method m ()V\n".toList
  indent := ['\t']
  line := ".push-string \"\\\"\u2028\"".toList
  trail := [' ']
  rest := "\n.end-method\n.end-class".toList
  split := by decide +kernel
  ends := by decide
  indented := List.forall_mem_singleton.2 (by decide)
  trailing := List.forall_mem_singleton.2 (by decide)
  breaks := by rintro c ⟨⟩; rfl

def classOfQuotedTwice (fields : List FieldLine) (methods : List MethodBlock) : ClassBlock :=
  ⟨.keep, .ordinary, ⟨"A", false⟩, 1, [], [], fields, methods⟩

def methodOfQuotedTwice (insns : List InsnLine) : MethodBlock :=
  ⟨.keep, ⟨"m", false⟩, "()V", ⟨[], ⟨0, .void⟩⟩, false, false, false, insns, 3⟩

theorem parse_quoted_twice :
    Text.unquote (Text.quote "\"\u2028".toList) = .ok "\"\u2028".toList ∧
    readLines {} 0 (Text.lines quotedTwice.toList) = readLines
      ⟨[], .inClass (classOfQuotedTwice
        ([] ++ [.holding .keep ['f'] ["Static".toList] "\"\u2028" 2]) [])⟩ 2
      (Text.lines fieldOfQuotedTwice.rest.tail) ∧
    readLines {} 0 (Text.lines quotedTwice.toList) = readLines
      ⟨[], .inMethod (classOfQuotedTwice [.holding .keep ['f'] ["Static".toList] "\"\u2028" 2] [])
        (methodOfQuotedTwice ([] ++ [.pushing .keep "\"\u2028" 4]))⟩ 4
      (Text.lines pushOfQuotedTwice.rest.tail) ∧
    (insnLines ⟨[classOfQuotedTwice [.holding .keep ['f'] ["Static".toList] "\"\u2028" 2]
      [methodOfQuotedTwice [.pushing .keep "\"\u2028" 4]]]⟩).filter (·.line == 4) =
        [.pushing .keep "\"\u2028" 4] ∧
    ([classOfQuotedTwice [.holding .keep ['f'] ["Static".toList] "\"\u2028" 2]
      [methodOfQuotedTwice [.pushing .keep "\"\u2028" 4]]].flatMap ClassBlock.fields).filter
        (·.line == 2) =
        [.holding .keep ['f'] ["Static".toList] "\"\u2028" 2] := by
  have isModifier : ∀ w ∈ ["Static".toList], FieldLine.IsModifier w :=
    List.forall_mem_singleton.2 (.inl (by decide))
  have isPush : pushOfQuotedTwice.line = Mode.keep.pushLine "\"\u2028" := by decide +kernel
  have isField : fieldOfQuotedTwice.line =
      FieldLine.textLine .keep ['f'] ["Static".toList] true "\"\u2028" := by decide +kernel
  have parsed : parse quotedTwice =
      .ok ⟨[classOfQuotedTwice [.holding .keep ['f'] ["Static".toList] "\"\u2028" 2]
      [methodOfQuotedTwice [.pushing .keep "\"\u2028" 4]]]⟩ :=
    parse_of_toList (toList_append_of String.toList_ofList String.toList_ofList) (by decide +kernel)
  have four : pushOfQuotedTwice.number = 4 := by decide +kernel
  have two : fieldOfQuotedTwice.number = 2 := by decide +kernel
  obtain ⟨inverse, pushes, holds⟩ := parse_quoted "\"\u2028"
  obtain ⟨pushRead, pushed⟩ := pushes pushOfQuotedTwice isPush
  obtain ⟨holdRead, held⟩ := holds fieldOfQuotedTwice (by decide) isModifier isField
  rw [four] at pushRead pushed
  rw [two] at holdRead held
  refine ⟨inverse, ?_, ?_, pushed parsed, held parsed⟩
  · exact @holdRead [] (classOfQuotedTwice [] []) (fun _ => rfl) (by decide +kernel)
  · exact @pushRead [] (classOfQuotedTwice [.holding .keep ['f'] ["Static".toList] "\"\u2028" 2] [])
      (methodOfQuotedTwice []) (fun _ => rfl) (by decide +kernel)

end Script

end JvmPatch
