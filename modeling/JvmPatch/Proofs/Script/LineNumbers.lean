import JvmPatch.Proofs.Steps
import JvmPatch.Proofs.Text.Lines
import JvmPatch.Script.Parser

/-! Line numbers of scripts. Only the lines that count are read, each with its number, and nothing
but the numbers of what is read depends on the numbers of the lines. So a script can stand behind
another one, and blank lines, comments and the blanks around lines make no difference to what a
script says. -/

set_option autoImplicit false

namespace JvmPatch

/-! ### Other line numbers -/

/-- The same with other line numbers. -/
def InsnLine.relined (f : Nat → Nat) (l : InsnLine) : InsnLine := { l with line := f l.line }

def FieldLine.relined (f : Nat → Nat) (l : FieldLine) : FieldLine := { l with line := f l.line }

/-- The same with other line numbers. -/
def MethodBlock.relined (f : Nat → Nat) (m : MethodBlock) : MethodBlock :=
  { m with line := f m.line, insns := m.insns.map (.relined f) }

/-- The same with other line numbers. -/
def ClassBlock.relined (f : Nat → Nat) (c : ClassBlock) : ClassBlock :=
  { c with
    line := f c.line, fields := c.fields.map (.relined f), methods := c.methods.map (.relined f) }

/-- The same with other line numbers. -/
def ScriptError.relined (f : Nat → Nat) (e : ScriptError) : ScriptError :=
  { e with line := f e.line }

namespace Script

/-- The same with other line numbers. -/
def relined (f : Nat → Nat) (s : Script) : Script := ⟨s.classes.map (.relined f)⟩

/-- The same with other line numbers. -/
def OpenSwitch.relined (f : Nat → Nat) (s : OpenSwitch) : OpenSwitch := { s with line := f s.line }

/-- The same with other line numbers. -/
def OpenBlock.relined (f : Nat → Nat) : OpenBlock → OpenBlock
  | .none => .none
  | .inClass c => .inClass (c.relined f)
  | .inMethod c m => .inMethod (c.relined f) (m.relined f)
  | .inSwitch c m s => .inSwitch (c.relined f) (m.relined f) (s.relined f)

/-- The same with other line numbers, and behind some classes. -/
def Reading.behind (before : List ClassBlock) (f : Nat → Nat) (r : Reading) : Reading :=
  ⟨before ++ r.classes.map (.relined f), r.block.relined f⟩

/-- A script without line numbers, or what is wrong with it. -/
def unnumbered (outcome : Except ScriptError Script) : Except ScriptFault Script :=
  (outcome.map (relined fun _ => 0)).mapError ScriptError.fault

end Script

/-! ### What a line adds under another number

One lemma for each reader of a line: under another number it reads the same, with the other
number. -/

section Relined

variable (f : Nat → Nat)

theorem InsnLine.ofCommand_relined (line : Nat) (raw : List Char) (c : Command) (kind : PatternKind)
    (lines : List (List Char)) :
    ofCommand (f line) raw c kind lines = (ofCommand line raw c kind lines).map (.relined f) := by
  unfold ofCommand
  cases (Pattern.compile kind c.params (c.textFrom 0) lines).mapError ScriptFault.operand with
  | error e => rfl
  | ok pattern =>
    cases c.mode with
    | keep => rfl
    | add =>
      dsimp only [ok_bind]
      cases pattern.checkAddable.mapError ScriptFault.notAddable <;> rfl
    | remove =>
      dsimp only [ok_bind]
      split <;> rfl

theorem FieldLine.parse_relined (line : Nat) (c : Command) :
    parse (f line) c = (parse line c).map (.relined f) := by
  unfold parse
  split
  · rename_i name desc rest _
    cases (TypeDesc.parseChars desc).mapError ScriptFault.descriptor with
    | error e => rfl
    | ok type =>
      dsimp only [ok_bind]
      split
      · rfl
      · cases readValue type c (modifiersFrom 2 rest {}).valueAt <;> rfl
  · rfl

theorem MethodBlock.withModifiers_relined (m : MethodBlock) (ws : List (List Char)) :
    withModifiers (m.relined f) ws = (withModifiers m ws).map (.relined f) := by
  induction ws generalizing m with
  | nil => rfl
  | cons w ws ih =>
    unfold withModifiers
    split
    · exact ih { m with isStatic := true }
    split
    · exact ih { m with isPrivate := true }
    split
    · exact ih { m with isProtected := true }
    · rfl

theorem MethodBlock.parseHead_relined (line : Nat) (c : Command) :
    parseHead (f line) c = (parseHead line c).map (.relined f) := by
  unfold parseHead
  split
  · rename_i name desc rest _
    cases (MethodDesc.parseChars desc).mapError ScriptFault.descriptor with
    | error e => rfl
    | ok type =>
      exact withModifiers_relined f
        ⟨c.mode, Ident.ofChars name, String.ofList desc, type, false, false, false, [], line⟩ rest
  · rfl

namespace Script

theorem openClass_relined (line : Nat) (raw : List Char) :
    openClass (f line) raw = (openClass line raw).map (.relined f) := by
  unfold openClass
  cases Command.parse raw with
  | error e => rfl
  | ok c =>
    dsimp only [ok_bind]
    split
    · rfl
    split <;> rfl

variable (before : List ClassBlock) (r : Reading) (block : ClassBlock) (m : MethodBlock)

theorem classLine_behind (line : Nat) (raw : List Char) :
    classLine (r.behind before f) (block.relined f) (f line) raw =
      (classLine r block line raw).map (.behind before f) := by
  unfold classLine
  cases Command.parse raw with
  | error e => rfl
  | ok c =>
    change (checkNested block.mode c.mode "classes" >>= _) =
      ((checkNested block.mode c.mode "classes" >>= _)).map _
    cases checkNested block.mode c.mode "classes" with
    | error e => rfl
    | ok _ =>
      dsimp only [ok_bind]
      change (if c.nameText = endOfClass block.kind then _ else _) = _
      split
      · simp [Reading.behind, OpenBlock.relined, pure, Except.pure, Except.map]
      split
      · cases supertypeLine c <;> rfl
      split
      · cases supertypeLine c <;> rfl
      split
      · rw [FieldLine.parse_relined]
        cases FieldLine.parse line c with
        | error e => rfl
        | ok l =>
          simp [Reading.behind, OpenBlock.relined, ClassBlock.relined, pure,
            Except.pure, Except.map]
      split
      · rw [MethodBlock.parseHead_relined]
        cases MethodBlock.parseHead line c <;> rfl
      · rfl

theorem methodLine_behind (line : Nat) (raw : List Char) :
    methodLine (r.behind before f) (block.relined f) (m.relined f) (f line) raw =
      (methodLine r block m line raw).map (.behind before f) := by
  unfold methodLine
  cases Command.parse raw with
  | error e => rfl
  | ok c =>
    change (checkNested m.mode c.mode "methods" >>= _) =
      ((checkNested m.mode c.mode "methods" >>= _)).map _
    cases checkNested m.mode c.mode "methods" with
    | error e => rfl
    | ok _ =>
      dsimp only [ok_bind]
      split
      · simp [Reading.behind, OpenBlock.relined, ClassBlock.relined, pure, Except.pure, Except.map]
      split
      · rfl
      split
      · rfl
      · rw [InsnLine.ofCommand_relined]
        cases InsnLine.ofCommand line raw c _ [] with
        | error e => rfl
        | ok l =>
          simp [Reading.behind, OpenBlock.relined, MethodBlock.relined, pure,
            Except.pure, Except.map]

theorem switchLine_behind (s : OpenSwitch) (raw : List Char) :
    switchLine (r.behind before f) (block.relined f) (m.relined f) (s.relined f) raw =
      ((switchLine r block m s raw).map (.behind before f)).mapError (.relined f) := by
  unfold switchLine
  change (if Text.sameIgnoringCase raw s.closing then _ else _) = _
  split
  · rw [OpenSwitch.relined]
    dsimp only
    rw [InsnLine.ofCommand_relined]
    cases InsnLine.ofCommand s.line s.raw s.command s.kind s.lines with
    | error e => rfl
    | ok l =>
      simp [Reading.behind, OpenBlock.relined, MethodBlock.relined, Except.map, Except.mapError]
  · rfl

theorem significantLine_behind (line : Nat) (raw : List Char) :
    significantLine (r.behind before f) (f line) raw =
      ((significantLine r line raw).map (.behind before f)).mapError (.relined f) := by
  have located (x : Except ScriptFault Reading) :
      (x.map (Reading.behind before f)).mapError (ScriptError.mk (f line)) =
        ((x.mapError (ScriptError.mk line)).map (Reading.behind before f)).mapError
          (.relined f) := by
    cases x <;> rfl
  obtain ⟨classes, block⟩ := r
  cases block with
  | none =>
    change Except.mapError _ (Except.map _ (openClass (f line) raw)) =
      Except.mapError _ (Except.map _ (Except.mapError _ (Except.map _ (openClass line raw))))
    rw [openClass_relined]
    cases openClass line raw <;> rfl
  | inClass c =>
    exact (congrArg _ (classLine_behind f before ⟨classes, _⟩ c line raw)).trans (located _)
  | inMethod c m =>
    exact (congrArg _ (methodLine_behind f before ⟨classes, _⟩ c m line raw)).trans (located _)
  | inSwitch c m s => exact switchLine_behind f before ⟨classes, _⟩ c m s raw

end Script

end Relined

/-! ### The lines that count -/

namespace Script

/-- The lines that count among trimmed lines, each with its number. The first line has the number
`n + 1`. -/
def numbered : Nat → List (List Char) → List (Nat × List Char)
  | _, [] => []
  | n, l :: ls => if isPassedOver l then numbered (n + 1) ls else (n + 1, l) :: numbered (n + 1) ls

/-- Reads lines that count. -/
def readNumbered (r : Reading) (ls : List (Nat × List Char)) : Except ScriptError Reading :=
  ls.foldlM (fun r l => significantLine r l.1 l.2) r

/-- What has been read at the end of a text of so many lines. -/
def Reading.close (count : Nat) (r : Reading) : Except ScriptError Script :=
  match missingEnd? r.block with
  | some closing => .error ⟨count, .missingEnd closing⟩
  | none => .ok ⟨r.classes⟩

theorem readLines_eq (r : Reading) (n : Nat) (ls : List (List Char)) :
    readLines r n ls = readNumbered r (numbered n (ls.map Text.trim)) := by
  induction ls generalizing r n with
  | nil => rfl
  | cons l ls ih =>
    rw [readLines, List.map_cons, numbered]
    split
    · exact ih r (n + 1)
    · rw [readNumbered, List.foldlM_cons]
      cases significantLine r (n + 1) (Text.trim l) with
      | error e => rfl
      | ok r' => exact ih r' (n + 1)

theorem parse_eq (text : String) :
    parse text = readNumbered {} (numbered 0 (Text.trimmedLines text.toList)) >>=
      Reading.close (Text.lines text.toList).length := by
  rw [parse, readLines_eq, ← Text.trimmedLines]
  cases readNumbered {} (numbered 0 (Text.trimmedLines text.toList)) <;> rfl

theorem numbered_append (n : Nat) (ls ms : List (List Char)) :
    numbered n (ls ++ ms) = numbered n ls ++ numbered (n + ls.length) ms := by
  induction ls generalizing n with
  | nil => rfl
  | cons l ls ih =>
    have later := ih (n + 1)
    rw [Nat.add_right_comm, Nat.add_assoc] at later
    rw [List.cons_append, numbered, numbered, List.length_cons, later]
    split <;> rfl

theorem numbered_add (n d : Nat) (ls : List (List Char)) :
    numbered (n + d) ls = (numbered n ls).map fun l => (l.1 + d, l.2) := by
  induction ls generalizing n with
  | nil => rfl
  | cons l ls ih =>
    have later := ih (n + 1)
    rw [Nat.add_right_comm] at later
    rw [numbered, numbered, later, Nat.add_right_comm]
    split <;> rfl

theorem map_snd_numbered (n : Nat) (ls : List (List Char)) :
    (numbered n ls).map Prod.snd = ls.filter fun l => !isPassedOver l := by
  induction ls generalizing n with
  | nil => rfl
  | cons l ls ih =>
    rw [numbered]
    split
    · rename_i passed
      rw [ih, List.filter_cons_of_neg (by simp [passed])]
    · rename_i counts
      rw [List.map_cons, ih, List.filter_cons_of_pos (by simp [counts])]

theorem readNumbered_append (r : Reading) (ls ms : List (Nat × List Char)) :
    readNumbered r (ls ++ ms) = readNumbered r ls >>= fun r => readNumbered r ms :=
  List.foldlM_append ..

/-- Under other numbers, lines are read as the same with these numbers. -/
theorem readNumbered_behind (before : List ClassBlock) (f : Nat → Nat) (r : Reading)
    (ls : List (Nat × List Char)) :
    readNumbered (r.behind before f) (ls.map fun l => (f l.1, l.2)) =
      ((readNumbered r ls).map (.behind before f)).mapError (.relined f) := by
  induction ls generalizing r with
  | nil => rfl
  | cons l ls ih =>
    rw [List.map_cons, readNumbered, readNumbered, List.foldlM_cons, List.foldlM_cons,
      significantLine_behind]
    cases significantLine r l.1 l.2 with
    | error e => rfl
    | ok r' => exact ih r'

theorem missingEnd?_relined (f : Nat → Nat) (block : OpenBlock) :
    missingEnd? (block.relined f) = missingEnd? block := by
  cases block <;> rfl

/-! ### Scripts one behind the other -/

theorem classes_of_close {count : Nat} {r : Reading} {script : Script}
    (closed : r.close count = .ok script) :
    r = ⟨script.classes, .none⟩ := by
  obtain ⟨classes, block⟩ := r
  cases block with
  | none =>
    cases closed
    rfl
  | _ => cases closed

theorem close_behind (before : List ClassBlock) (f : Nat → Nat) {count count' : Nat} {r : Reading}
    {script : Script} (closed : r.close count = .ok script) :
    (r.behind before f).close count' = .ok ⟨before ++ (script.relined f).classes⟩ := by
  rw [classes_of_close closed]
  rfl

/-- The lines of a text that is followed by a line break count as they do without it. -/
theorem numbered_break (n : Nat) (s : List Char) {br : List Char}
    (isBreak : br = ['\n'] ∨ br = ['\r', '\n']) :
    numbered n (Text.trimmedLines (s ++ br)) = numbered n (Text.trimmedLines s) := by
  obtain ⟨front, u, rfl, ends, noBreak⟩ := Text.exists_lastLine s
  have last : Text.trimmedLines (u ++ br) = [Text.trim u] := by
    rcases isBreak with rfl | rfl
    · exact Text.trimmedLines_break noBreak
    · have noBreak' : '\n' ∉ u ++ ['\r'] := by simp [noBreak]
      have lines := Text.trimmedLines_break noBreak'
      rwa [List.append_assoc, Text.trim_append_right (List.forall_mem_singleton.2 rfl)] at lines
  rw [List.append_assoc, Text.trimmedLines_append ends, Text.trimmedLines_append ends, last,
    numbered_append, numbered_append]
  by_cases empty : u = []
  · subst empty
    rfl
  · rw [Text.trimmedLines_of_noBreak noBreak empty]

theorem endsLine_break (s : List Char) {br : List Char}
    (isBreak : br = ['\n'] ∨ br = ['\r', '\n']) :
    Text.EndsLine (s ++ br) := by
  rcases isBreak with rfl | rfl
  · exact Text.endsLine_append_break s
  · have ends := Text.endsLine_append_break (s ++ ['\r'])
    rwa [List.append_assoc] at ends

/-- A script behind another one is read as it is by itself, with higher line numbers. -/
theorem parse_append {first second br : String} {before after : Script}
    (isBreak : br.toList = ['\n'] ∨ br.toList = ['\r', '\n'])
    (parsedFirst : parse first = .ok before) (parsedSecond : parse second = .ok after) :
    parse (first ++ br ++ second) =
      .ok ⟨before.classes ++
        (after.relined (· + (Text.lines (first ++ br).toList).length)).classes⟩ := by
  rw [parse_eq] at parsedFirst parsedSecond
  obtain ⟨r, readFirst, closedFirst⟩ := bind_eq_ok parsedFirst
  obtain ⟨r', readSecond, closedSecond⟩ := bind_eq_ok parsedSecond
  obtain rfl := classes_of_close closedFirst
  have start : (⟨before.classes, .none⟩ : Reading) =
      Reading.behind before.classes (· + (Text.lines (first ++ br).toList).length) {} := by
    simp [Reading.behind, OpenBlock.relined]
  have count : (Text.trimmedLines (first ++ br).toList).length =
      (Text.lines (first ++ br).toList).length :=
    List.length_map ..
  have ends : Text.EndsLine (first ++ br).toList := by
    rw [String.toList_append]
    exact endsLine_break _ isBreak
  have further := readNumbered_behind before.classes (· + (Text.lines (first ++ br).toList).length)
    {}
    (numbered 0 (Text.trimmedLines second.toList))
  rw [← start, ← numbered_add, readSecond] at further
  rw [parse_eq, String.toList_append (s := first ++ br), Text.trimmedLines_append ends,
    numbered_append, readNumbered_append, count]
  rw [show numbered 0 (Text.trimmedLines (first ++ br).toList) =
    numbered 0 (Text.trimmedLines first.toList) by
    rw [String.toList_append]; exact numbered_break 0 _ isBreak, readFirst, ok_bind, further]
  exact close_behind _ _ closedSecond

/-! ### Blank lines, comments and blanks around lines -/

/-- The lines of a text that count, trimmed. -/
def significant (s : List Char) : List (List Char) :=
  (Text.trimmedLines s).filter fun l => !isPassedOver l

/-- Two texts differ in lines that are passed over and in blanks at the starts and ends of lines. -/
inductive Respaced : List Char → List Char → Prop where
  /-- A blank line or a comment comes in between two lines. -/
  | line {front line rest : List Char} : Text.EndsLine front → '\n' ∉ line →
      isPassedOver (Text.trim line) = true →
        Respaced (front ++ rest) (front ++ (line ++ '\n' :: rest))
  /-- A blank line or a comment comes in at the end. -/
  | lastLine {front line : List Char} : Text.EndsLine front → '\n' ∉ line →
      isPassedOver (Text.trim line) = true → Respaced front (front ++ line)
  /-- The blanks at the start of a line change. -/
  | start {front old new rest : List Char} : Text.EndsLine front → Text.IsSpacing old →
      Text.IsSpacing new → Respaced (front ++ (old ++ rest)) (front ++ (new ++ rest))
  /-- The blanks at the end of a line change. -/
  | stop {front old new rest : List Char} : Text.StartsBreak rest → Text.IsSpacing old →
      Text.IsSpacing new → Respaced (front ++ (old ++ rest)) (front ++ (new ++ rest))
  | refl (s : List Char) : Respaced s s
  | symm {s t : List Char} : Respaced s t → Respaced t s
  | trans {s t u : List Char} : Respaced s t → Respaced t u → Respaced s u

theorem significant_append {front : List Char} (ends : Text.EndsLine front) (s : List Char) :
    significant (front ++ s) = significant front ++ significant s := by
  rw [significant, Text.trimmedLines_append ends, List.filter_append]
  rfl

/-- What counts of a text is what counts of its first line and of the rest. -/
theorem significant_line {u : List Char} (noBreak : '\n' ∉ u) {rest : List Char}
    (breaks : Text.StartsBreak rest) :
    significant (u ++ rest) = [Text.trim u].filter (fun l => !isPassedOver l) ++
      significant rest.tail := by
  by_cases empty : u ++ rest = []
  · obtain ⟨rfl, rfl⟩ := List.append_eq_nil_iff.1 empty
    rfl
  · rw [significant, Text.trimmedLines_line noBreak breaks empty, ← List.singleton_append,
      List.filter_append]
    rfl

theorem significant_of_passedOver {line : List Char} (noBreak : '\n' ∉ line)
    (passed : isPassedOver (Text.trim line) = true) {rest : List Char}
    (breaks : Text.StartsBreak rest) :
    significant (line ++ rest) = significant rest.tail := by
  rw [significant_line noBreak breaks, List.filter_cons_of_neg (by simp [passed])]
  rfl

/-- The blanks at the start of a line do not count. -/
theorem significant_start {w : List Char} (spacing : Text.IsSpacing w) (s : List Char) :
    significant (w ++ s) = significant s := by
  obtain ⟨u, rest, rfl, noBreak, breaks⟩ := Text.exists_firstLine s
  have both : '\n' ∉ w ++ u := by simp [noBreak, spacing.noBreak]
  rw [← List.append_assoc, significant_line both breaks, significant_line noBreak breaks,
    Text.trim_append_left spacing.blank]

/-- The blanks at the end of a line do not count. -/
theorem significant_stop {w rest : List Char} (spacing : Text.IsSpacing w)
    (breaks : Text.StartsBreak rest) (s : List Char) :
    significant (s ++ (w ++ rest)) = significant (s ++ rest) := by
  obtain ⟨front, u, rfl, ends, noBreak⟩ := Text.exists_lastLine s
  have both : '\n' ∉ u ++ w := by simp [noBreak, spacing.noBreak]
  rw [List.append_assoc, List.append_assoc, significant_append ends, significant_append ends,
    ← List.append_assoc u, significant_line both breaks, significant_line noBreak breaks,
    Text.trim_append_right spacing.blank]

theorem Respaced.significant_eq {s t : List Char} (respaced : Respaced s t) :
    significant s = significant t := by
  induction respaced with
  | line ends noBreak passed =>
    have breaks (rest : List Char) : Text.StartsBreak ('\n' :: rest) :=
      fun c first => (Option.some.inj first).symm
    rw [significant_append ends, significant_append ends,
      significant_of_passedOver noBreak passed (breaks _)]
    rfl
  | @lastLine front line ends noBreak passed =>
    have none : significant (line ++ []) = significant [] :=
      significant_of_passedOver noBreak passed fun _ => nofun
    rw [List.append_nil] at none
    rw [significant_append ends, none]
    exact (List.append_nil _).symm
  | start ends old new =>
    rw [significant_append ends, significant_append ends, significant_start old,
      significant_start new]
  | stop breaks old new => rw [significant_stop old breaks, significant_stop new breaks]
  | refl => rfl
  | symm _ ih => exact ih.symm
  | trans _ _ first second => exact first.trans second

/-- A script without line numbers depends on the lines that count. -/
theorem unnumbered_parse (text : String) :
    unnumbered (parse text) =
      (readNumbered {} ((significant text.toList).map fun l => (0, l)) >>= Reading.close 0).mapError
        ScriptError.fault := by
  have zeros : (significant text.toList).map (fun l => (0, l)) =
      (numbered 0 (Text.trimmedLines text.toList)).map fun l => (0, l.2) := by
    rw [significant, ← map_snd_numbered 0, List.map_map]
    rfl
  have read := readNumbered_behind [] (fun _ => 0) {} (numbered 0 (Text.trimmedLines text.toList))
  rw [show Reading.behind [] (fun _ => 0) {} = {} from rfl] at read
  rw [parse_eq, zeros, read]
  cases readNumbered {} (numbered 0 (Text.trimmedLines text.toList)) with
  | error e => rfl
  | ok r =>
    rw [ok_bind]
    change _ = ((Reading.behind [] (fun _ => 0) r).close 0).mapError _
    unfold Reading.close
    rw [show (Reading.behind [] (fun _ => 0) r).block = r.block.relined fun _ => 0 from rfl,
      missingEnd?_relined]
    cases missingEnd? r.block <;> rfl

/-- How a script is laid out is nothing to what it says. Behind another one it reads as it does by
itself, with line numbers raised by the lines before it. Blank lines, comments and the blanks around
lines change line numbers only. -/
theorem parse_layout :
    (∀ {first second br : String} {before after : Script}, br = "\n" ∨ br = "\r\n" →
      parse first = .ok before → parse second = .ok after →
      parse (first ++ br ++ second) =
        .ok ⟨before.classes ++
          (after.relined (· + (Text.lines (first ++ br).toList).length)).classes⟩) ∧
    (∀ {a b : String}, Respaced a.toList b.toList →
      unnumbered (parse a) = unnumbered (parse b)) := by
  refine ⟨fun isBreak parsedFirst parsedSecond => ?_, fun respaced => ?_⟩
  · exact parse_append (isBreak.imp (by rintro rfl; rfl) (by rintro rfl; rfl))
      parsedFirst parsedSecond
  · rw [unnumbered_parse, unnumbered_parse, respaced.significant_eq]

/-- A method with a switch behind a class, and the same method with a comment amid the switch. -/
theorem parse_layout_switch :
    parse (".class A\n.end-class" ++ "\n" ++
        ".class B\n.method m ()V\n.switch-table 0 0 ~d\n~e\n.end-switch-table\n.end-method\n.end-class") =
      .ok ⟨[⟨.keep, .ordinary, ⟨"A", false⟩, 1, [], [], [], []⟩,
        ⟨.keep, .ordinary, ⟨"B", false⟩, 3, [], [], [],
          [⟨.keep, ⟨"m", false⟩, "()V", ⟨[], .void⟩, false, false, false,
            [⟨.keep, .switchTable, .tableSwitch (.is 0) (.is 0) (.weak "d") [.weak "e"], 5,
              ".switch-table 0 0 ~d"⟩], 4⟩]⟩]⟩ ∧
    unnumbered (parse
      ".class B\n.method m ()V\n.switch-table 0 0 ~d\n~e\n.end-switch-table\n.end-method\n.end-class") =
    unnumbered (parse
      ".class B\n.method m ()V\n.switch-table 0 0 ~d\n // none\n~e\n.end-switch-table\n.end-method\n.end-class") := by
  have together :
      ".class B\n.method m ()V\n.switch-table 0 0 ~d\n~e\n.end-switch-table\n.end-method\n.end-class".toList =
      ".class B\n.method m ()V\n.switch-table 0 0 ~d\n".toList ++
        "~e\n.end-switch-table\n.end-method\n.end-class".toList := by decide +kernel
  have comment :
      ".class B\n.method m ()V\n.switch-table 0 0 ~d\n // none\n~e\n.end-switch-table\n.end-method\n.end-class".toList =
      ".class B\n.method m ()V\n.switch-table 0 0 ~d\n".toList ++
        (" // none".toList ++ '\n' :: "~e\n.end-switch-table\n.end-method\n.end-class".toList) := by
          decide +kernel
  refine ⟨parse_layout.1 (.inl rfl)
    (show parse ".class A\n.end-class" =
      .ok ⟨[⟨.keep, .ordinary, ⟨"A", false⟩, 1, [], [], [], []⟩]⟩ by decide +kernel)
    (show parse ".class B\n.method m ()V\n.switch-table 0 0 ~d\n~e\n.end-switch-table\n.end-method\n.end-class" =
      .ok ⟨[⟨.keep, .ordinary, ⟨"B", false⟩, 1, [], [], [],
        [⟨.keep, ⟨"m", false⟩, "()V", ⟨[], .void⟩, false, false, false,
          [⟨.keep, .switchTable, .tableSwitch (.is 0) (.is 0) (.weak "d") [.weak "e"], 3,
            ".switch-table 0 0 ~d"⟩],
          2⟩]⟩]⟩ by decide +kernel), parse_layout.2 ?_⟩
  rw [together, comment]
  exact .line (by decide) (by decide) (by decide)

end Script

end JvmPatch
