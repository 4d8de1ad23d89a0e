import JvmPatch.Proofs.Insn.Rendering
import JvmPatch.Proofs.Steps
import JvmPatch.Script.Parser

/-! What a script that has been read is made of. Its lines have been read from commands, and the
lines of a method block that is added or removed have the mode of the block. -/

set_option autoImplicit false

namespace JvmPatch

/-- The line has been read from a command. -/
def FieldLine.IsRead (f : FieldLine) : Prop := ∃ line c, FieldLine.parse line c = .ok f

/-- The line has been read from a command that begins with a mnemonic. -/
def InsnLine.IsRead (l : InsnLine) : Prop :=
  ∃ line raw c kind lines, PatternKind.ofName? c.name = some kind ∧
    InsnLine.ofCommand line raw c kind lines = .ok l

/-- A block that adds or removes something has no other lines. -/
def Mode.Governs (outer inner : Mode) : Prop := outer ≠ .keep → inner = outer

structure MethodBlock.IsRead (m : MethodBlock) : Prop where
  type : MethodDesc.parseChars m.desc.toList = .ok m.type
  insns : ∀ l ∈ m.insns, l.IsRead
  nested : ∀ l ∈ m.insns, m.mode.Governs l.mode

structure ClassBlock.IsRead (c : ClassBlock) : Prop where
  fields : ∀ f ∈ c.fields, f.IsRead
  methods : ∀ m ∈ c.methods, m.IsRead
  nested : ∀ m ∈ c.methods, c.mode.Governs m.mode

namespace Script

def OpenBlock.IsRead : OpenBlock → Prop
  | .none => True
  | .inClass c => c.IsRead
  | .inMethod c m => c.IsRead ∧ m.IsRead ∧ c.mode.Governs m.mode
  | .inSwitch c m s =>
    c.IsRead ∧ (m.IsRead ∧ c.mode.Governs m.mode) ∧
      PatternKind.ofName? s.command.name = some s.kind ∧ m.mode.Governs s.command.mode

structure Reading.IsRead (r : Reading) : Prop where
  classes : ∀ c ∈ r.classes, c.IsRead
  block : r.block.IsRead

/-- A step of reading succeeds in a state of which the same holds again. -/
abbrev Reads {ε : Type} (x : Except ε Reading) : Prop := Ends Reading.IsRead (fun _ => True) x

end Script

open Script

theorem MethodBlock.IsRead.addInsn {m : MethodBlock} {l : InsnLine} (read : m.IsRead)
    (isRead : l.IsRead) (governs : m.mode.Governs l.mode) :
    MethodBlock.IsRead { m with insns := m.insns ++ [l] } :=
  ⟨read.type, List.forall_mem_append.2 ⟨read.insns, List.forall_mem_singleton.2 isRead⟩,
    List.forall_mem_append.2 ⟨read.nested, List.forall_mem_singleton.2 governs⟩⟩

theorem MethodBlock.isRead_of_parseHead {line : Nat} {c : Command} {m : MethodBlock}
    (parsed : parseHead line c = .ok m) : m.IsRead ∧ m.mode = c.mode := by
  let Begun (m : MethodBlock) : Prop :=
    (MethodDesc.parseChars m.desc.toList = .ok m.type ∧ m.insns = []) ∧ m.mode = c.mode
  have modifiers : ∀ ws (m : MethodBlock), Begun m →
      Ends Begun (fun _ => True) (m.withModifiers ws) := by
    intro ws
    induction ws with
    | nil => exact fun m begun => begun
    | cons w ws ih =>
      intro m begun
      unfold withModifiers
      split
      · exact ih _ begun
      split
      · exact ih _ begun
      split
      · exact ih _ begun
      · trivial
  have ends : Ends Begun (fun _ => True) (parseHead line c) := by
    unfold parseHead
    split
    · rename_i name desc rest _
      cases read : (MethodDesc.parseChars desc).mapError ScriptFault.descriptor with
      | error e => trivial
      | ok type =>
        exact modifiers _ _ ⟨⟨by rw [String.toList_ofList, mapError_eq_ok read], rfl⟩, rfl⟩
    · trivial
  rw [parsed] at ends
  obtain ⟨⟨type, none⟩, mode⟩ := ends
  exact ⟨⟨type, by simp [none], by simp [none]⟩, mode⟩

theorem InsnLine.mode_of_ofCommand {line : Nat} {raw : List Char} {c : Command} {kind : PatternKind}
    {lines : List (List Char)} {l : InsnLine} (built : ofCommand line raw c kind lines = .ok l) :
    l.mode = c.mode ∧ Pattern.compile kind c.params (c.textFrom 0) lines = .ok l.pattern := by
  obtain ⟨pattern, compiled, built⟩ := bind_eq_ok built
  have isBuilt : l = ⟨c.mode, kind, pattern, line, String.ofList raw⟩ := by
    dsimp only at built
    split at built
    · obtain ⟨_, -, built⟩ := bind_eq_ok built
      exact (Except.ok.inj built).symm
    · split at built
      · cases built
      · exact (Except.ok.inj built).symm
    · exact (Except.ok.inj built).symm
  rw [isBuilt]
  exact ⟨rfl, mapError_eq_ok compiled⟩

theorem InsnLine.checkAddable_of_ofCommand {line : Nat} {raw : List Char} {c : Command}
    {kind : PatternKind} {lines : List (List Char)} {l : InsnLine}
    (built : ofCommand line raw c kind lines = .ok l) (adds : l.mode = .add) :
    l.pattern.checkAddable = .ok () := by
  have mode := (mode_of_ofCommand built).1.symm.trans adds
  obtain ⟨pattern, -, built⟩ := bind_eq_ok built
  dsimp only at built
  rw [mode] at built
  obtain ⟨_, fine, built⟩ := bind_eq_ok built
  cases built
  exact mapError_eq_ok fine

namespace Script

theorem governs_of_checkNested {outer inner : Mode} {what : String}
    (fine : checkNested outer inner what = .ok ()) : outer.Governs inner := by
  unfold checkNested at fine
  split at fine
  · cases fine
  · rename_i same
    exact fun governs => by_contra fun other => same ⟨governs, other⟩

theorem openClass_isRead (line : Nat) (raw : List Char) :
    Ends ClassBlock.IsRead (fun _ => True) (openClass line raw) := by
  refine (Ends.any _ fun _ => trivial).bind fun c _ => ?_
  split
  · trivial
  split
  · exact ⟨by simp, by simp, by simp⟩
  · trivial

variable {r : Reading} {block : ClassBlock} {m : MethodBlock}

theorem classLine_isRead (read : r.IsRead) (isRead : block.IsRead) (line : Nat) (raw : List Char) :
    Reads (classLine r block line raw) := by
  refine (Ends.any _ fun _ => trivial).bind fun c _ => ?_
  cases checked : checkNested block.mode c.mode "classes" with
  | error e => trivial
  | ok _ =>
    have governs := governs_of_checkNested checked
    rw [ok_bind]
    dsimp only
    split
    · exact ⟨List.forall_mem_append.2 ⟨read.classes, List.forall_mem_singleton.2 isRead⟩, trivial⟩
    split
    · exact (Ends.any _ fun _ => trivial).bind fun s _ =>
        ⟨read.classes, isRead.fields, isRead.methods, isRead.nested⟩
    split
    · exact (Ends.any _ fun _ => trivial).bind fun s _ =>
        ⟨read.classes, isRead.fields, isRead.methods, isRead.nested⟩
    split
    · cases parsed : FieldLine.parse line c with
      | error e => trivial
      | ok f =>
        refine ⟨read.classes, List.forall_mem_append.2 ⟨isRead.fields, ?_⟩, isRead.methods,
          isRead.nested⟩
        exact List.forall_mem_singleton.2 ⟨line, c, parsed⟩
    split
    · cases parsed : MethodBlock.parseHead line c with
      | error e => trivial
      | ok m =>
        obtain ⟨isMethod, mode⟩ := MethodBlock.isRead_of_parseHead parsed
        exact ⟨read.classes, isRead, isMethod, mode ▸ governs⟩
    · trivial

theorem methodLine_isRead (read : r.IsRead) (isRead : block.IsRead) (isMethod : m.IsRead)
    (inClass : block.mode.Governs m.mode) (line : Nat) (raw : List Char) :
    Reads (methodLine r block m line raw) := by
  refine (Ends.any _ fun _ => trivial).bind fun c _ => ?_
  cases checked : checkNested m.mode c.mode "methods" with
  | error e => trivial
  | ok _ =>
    have governs := governs_of_checkNested checked
    rw [ok_bind]
    split
    · refine ⟨read.classes, isRead.fields, ?_, ?_⟩
      · exact List.forall_mem_append.2 ⟨isRead.methods, List.forall_mem_singleton.2 isMethod⟩
      · exact List.forall_mem_append.2 ⟨isRead.nested, List.forall_mem_singleton.2 inClass⟩
    split
    · trivial
    rename_i kind named
    split
    · exact ⟨read.classes, isRead, ⟨isMethod, inClass⟩, named, governs⟩
    · cases built : InsnLine.ofCommand line raw c kind [] with
      | error e => trivial
      | ok l =>
        refine ⟨read.classes, isRead, isMethod.addInsn ⟨_, _, _, _, _, named, built⟩ ?_, inClass⟩
        exact (InsnLine.mode_of_ofCommand built).1 ▸ governs

theorem switchLine_isRead {s : OpenSwitch} (read : r.IsRead)
    (isRead : (OpenBlock.inSwitch block m s).IsRead) (raw : List Char) :
    Reads (switchLine r block m s raw) := by
  obtain ⟨isClass, ⟨isMethod, inClass⟩, named, governs⟩ := isRead
  unfold switchLine
  split
  · split
    · trivial
    · rename_i l built
      refine ⟨read.classes, isClass, isMethod.addInsn ⟨_, _, _, _, _, named, built⟩ ?_, inClass⟩
      exact (InsnLine.mode_of_ofCommand built).1 ▸ governs
  · exact ⟨read.classes, isClass, ⟨isMethod, inClass⟩, named, governs⟩

theorem significantLine_isRead (read : r.IsRead) (line : Nat) (raw : List Char) :
    Reads (significantLine r line raw) := by
  have block := read.block
  have located : ∀ x : Except ScriptFault Reading, Reads x →
      Reads (x.mapError (ScriptError.mk line)) :=
    fun x reads => (reads.mono (fun _ h => h) fun _ _ => trivial).mapError
  unfold significantLine
  dsimp only
  split
  · refine located _ (((openClass_isRead line raw).mono (fun c isRead => ?_) fun _ h => h).map)
    exact ⟨read.classes, isRead⟩
  · rename_i c inside
    rw [inside] at block
    exact located _ (classLine_isRead read block line raw)
  · rename_i c m inside
    rw [inside] at block
    exact located _ (methodLine_isRead read block.1 block.2.1 block.2.2 line raw)
  · rename_i c m s inside
    rw [inside] at block
    exact switchLine_isRead read block raw

theorem readLines_isRead (read : r.IsRead) (line : Nat) (ls : List (List Char)) :
    Reads (readLines r line ls) := by
  induction ls generalizing r line with
  | nil => exact read
  | cons l ls ih =>
    unfold readLines
    dsimp only
    split
    · exact ih read _
    · have next := significantLine_isRead read (line + 1) (Text.trim l)
      split
      · trivial
      · rename_i later reached
        rw [reached] at next
        exact ih next _

/-- The blocks of a script that has been read. -/
theorem parse_isRead {text : String} {script : Script} (parsed : parse text = .ok script) :
    ∀ c ∈ script.classes, c.IsRead := by
  unfold parse at parsed
  have ends := readLines_isRead (r := {}) ⟨by simp, trivial⟩ 0 (Text.lines text.toList)
  dsimp only at parsed
  split at parsed
  · cases parsed
  · rename_i r read
    split at parsed
    · cases parsed
    · rw [read] at ends
      cases parsed
      exact ends.classes

/-! ### Texts whose characters are given

Evaluating the characters of a long literal is slow, so they are given where the text of a script is
known. -/

theorem toList_append_of {s t : String} {cs ds : List Char} (front : s.toList = cs)
    (back : t.toList = ds) :
    (s ++ t).toList = cs ++ ds := by
  rw [String.toList_append, front, back]

theorem parse_of_toList {text : String} {cs : List Char} {classes : List ClassBlock}
    (chars : text.toList = cs) (read : readLines {} 0 (Text.lines cs) = .ok ⟨classes, .none⟩) :
    parse text = .ok ⟨classes⟩ := by
  unfold parse
  dsimp only
  rw [chars, read]
  rfl

end Script

/-! ## The instructions that lines can stand for -/

/-- The code belongs to the form of the instructions of the kind. -/
def PatternKind.isRegular : PatternKind → Bool
  | .single op => op.isPlain
  | .var op => op.isLocalAccess
  | .jump op => op.isShortJump
  | .field op => op.isFieldAccess
  | .invoke op => op.isCall
  | .type op => op.isClassOp
  | _ => true

/-- The code belongs to the form of the instruction. -/
def Pattern.isRegular : Pattern → Bool
  | .single op => op.isPlain
  | .var op _ => op.isLocalAccess
  | .jump op _ => op.isShortJump
  | .field op .. => op.isFieldAccess
  | .invoke op .. => op.isCall
  | .type op _ => op.isClassOp
  | _ => true

/-- Mnemonics name kinds of instructions under codes that belong to them. -/
theorem PatternKind.isRegular_of_ofName? {s : List Char} {kind : PatternKind}
    (named : ofName? s = some kind) : kind.isRegular = true := by
  have all : mnemonics.all (fun e => e.2.isRegular) = true := by decide
  have listed : ∀ es : List (String × PatternKind),
      es.lookup (String.ofList (normalize s)) = some kind → ∃ e ∈ es, e.2 = kind := by
    intro es found
    induction es with
    | nil => cases found
    | cons e es ih =>
      rw [List.lookup_cons] at found
      split at found
      · exact ⟨e, List.mem_cons_self, Option.some.inj found⟩
      · obtain ⟨e', member, same⟩ := ih found
        exact ⟨e', .tail _ member, same⟩
  obtain ⟨e, member, rfl⟩ := listed _ named
  exact List.all_eq_true.1 all e member

/-- What is compiled for a kind has its code. -/
theorem Pattern.compile_isRegular {kind : PatternKind} (regular : kind.isRegular = true)
    (params : List (List Char)) (text : List Char) (lines : List (List Char)) :
    Ends (fun p : Pattern => p.isRegular = true) (fun _ => True)
      (compile kind params text lines) := by
  have operand : ∀ {α β : Type} (x : Except OperandError α) {f : α → Except OperandError β}
      {Q : β → Prop}, (∀ a, Ends Q (fun _ => True) (f a)) → Ends Q (fun _ => True) (x >>= f) :=
    fun x f Q rest => (Ends.any x fun _ => trivial).bind fun a _ => rest a
  unfold compile
  dsimp only
  split
  all_goals first
    | exact regular
    | trivial
    | exact operand _ fun _ => regular
    | exact operand _ fun _ => operand _ fun _ => regular
    | exact operand _ fun _ => operand _ fun _ => operand _ fun _ => operand _ fun _ => regular

theorem InsnLine.IsRead.isRegular {l : InsnLine} (read : l.IsRead) :
    l.pattern.isRegular = true := by
  obtain ⟨line, raw, c, kind, lines, named, built⟩ := read
  have ends := Pattern.compile_isRegular (PatternKind.isRegular_of_ofName? named) c.params
    (c.textFrom 0)
    lines
  rw [(InsnLine.mode_of_ofCommand built).2] at ends
  exact ends

/-- The type of a reference has been read from its descriptor. -/
def Pattern.TypeIsRead : Pattern → Prop
  | .field _ _ _ t desc => TypeDesc.parseChars desc.toList = .ok t
  | .invoke _ _ _ t desc => MethodDesc.parseChars desc.toList = .ok t
  | _ => True

theorem Pattern.compile_typeIsRead (kind : PatternKind) (params : List (List Char))
    (text : List Char) (lines : List (List Char)) :
    Ends Pattern.TypeIsRead (fun _ => True) (compile kind params text lines) := by
  have operand : ∀ {α β : Type} (x : Except OperandError α) {f : α → Except OperandError β}
      {Q : β → Prop}, (∀ a, x = .ok a → Ends Q (fun _ => True) (f a)) →
        Ends Q (fun _ => True) (x >>= f) := by
    intro α β x f Q rest
    cases x with
    | ok a => exact rest a rfl
    | error e => trivial
  unfold compile
  dsimp only
  split
  all_goals first
    | trivial
    | exact operand _ fun _ _ => trivial
    | exact operand _ fun _ _ => operand _ fun _ _ => trivial
    | exact operand _ fun _ _ =>
      operand _ fun _ _ => operand _ fun _ _ => operand _ fun _ _ => trivial
    | refine operand _ fun _ read => ?_
  all_goals
    change _ = Except.ok _
    rw [String.toList_ofList, mapError_eq_ok read]

theorem InsnLine.IsRead.typeIsRead {l : InsnLine} (read : l.IsRead) : l.pattern.TypeIsRead := by
  obtain ⟨line, raw, c, kind, lines, -, built⟩ := read
  have ends := Pattern.compile_typeIsRead kind c.params (c.textFrom 0) lines
  rw [(InsnLine.mode_of_ofCommand built).2] at ends
  exact ends

theorem FieldLine.IsRead.type {f : FieldLine} (read : f.IsRead) :
    TypeDesc.parseChars f.desc.toList = .ok f.type := by
  obtain ⟨line, c, parsed⟩ := read
  unfold parse at parsed
  split at parsed
  · obtain ⟨type, isType, parsed⟩ := bind_eq_ok parsed
    split at parsed
    · cases parsed
    · obtain ⟨value, -, parsed⟩ := bind_eq_ok parsed
      cases parsed
      rw [String.toList_ofList, mapError_eq_ok isType]
  · cases parsed

/-- The constant of a field is no class. -/
theorem FieldLine.constant_ends (type : TypeDesc) (text : List Char) :
    Ends (fun v : Constant => ∀ name, v ≠ .classRef name) (fun _ => True) (constant type text) := by
  unfold constant
  dsimp only
  split
  · trivial
  split
  case h_6 | h_7 | h_8 => split <;> first | trivial | exact fun _ => nofun
  case h_9 =>
    split
    · split <;> first | trivial | exact fun _ => nofun
    · trivial
  case h_10 => trivial
  all_goals split <;> first | trivial | exact fun _ => nofun

theorem FieldLine.IsRead.value_ne {f : FieldLine} (read : f.IsRead) (name : String) :
    f.value ≠ some (.classRef name) := by
  have valued : ∀ type c at?, Ends (fun v : Option Constant => ∀ name, v ≠ some (.classRef name))
      (fun _ => True) (readValue type c at?) := by
    intro type c at?
    unfold readValue
    dsimp only
    split
    · exact fun _ => nofun
    split
    · trivial
    · refine ((constant_ends type _).mono (fun v other name same => ?_) fun _ h => h).map
      exact other name (Option.some.inj same)
  obtain ⟨line, c, parsed⟩ := read
  have ends : Ends (fun f : FieldLine => ∀ name, f.value ≠ some (.classRef name)) (fun _ => True)
      (parse line c) := by
    unfold parse
    split
    · refine (Ends.any _ fun _ => trivial).bind fun type _ => ?_
      split
      · trivial
      · exact (valued _ _ _).bind fun value other => other
    · trivial
  rw [parsed] at ends
  exact ends name

end JvmPatch
