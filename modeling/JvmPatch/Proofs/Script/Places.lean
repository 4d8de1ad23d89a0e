import JvmPatch.Proofs.Script.LineNumbers
import JvmPatch.Proofs.Script.Parsing

/-! What a script has from one of its lines. Other lines neither add to it nor take from it, so that
in an accepted script it is what the step at the line gives. A line within a switch has to be one of
its targets. -/

set_option autoImplicit false

namespace JvmPatch

/-! ### Lines of switches -/

/-- A line that stands for no target of a switch. -/
def IsNoCase (l : List Char) : Prop :=
  (∀ t, Pattern.labelRef (Text.trim l) ≠ .ok t) ∧ ∀ q, Pattern.switchCase l ≠ .ok q

theorem Pattern.compile_of_isNoCase {kind : PatternKind} (switch : kind.takesLines = true)
    {lines : List (List Char)} {l : List Char} (member : l ∈ lines) (noCase : IsNoCase l)
    (params : List (List Char)) (text : List Char) (p : Pattern) :
    compile kind params text lines ≠ .ok p := by
  have fails {α : Type} {read : List Char → Except OperandError α} (refused : ∀ a, read l ≠ .ok a)
    (as : List α) :
      lines.mapM read ≠ .ok as := by
    intro all
    obtain ⟨a, -, isRead⟩ := exists_mem_of_mem_right (forall₂_of_mapM_ok all).flip member
    exact refused a isRead
  intro compiled
  cases kind with
  | switchTable =>
    match params, compiled with
    | [_, _, _], compiled =>
      obtain ⟨_, -, compiled⟩ := bind_eq_ok compiled
      obtain ⟨_, -, compiled⟩ := bind_eq_ok compiled
      obtain ⟨_, -, compiled⟩ := bind_eq_ok compiled
      obtain ⟨targets, all, -⟩ := bind_eq_ok compiled
      exact fails noCase.1 targets all
  | switchLookup =>
    match params, compiled with
    | [_], compiled =>
      obtain ⟨cases, all, -⟩ := bind_eq_ok compiled
      exact fails noCase.2 cases all
  | _ => cases switch

/-! ### What comes from a line -/

theorem InsnLine.line_of_ofCommand {line : Nat} {raw : List Char} {c : Command} {kind : PatternKind}
    {lines : List (List Char)} {l : InsnLine}
    (built : ofCommand line raw c kind lines = .ok l) : l.line = line := by
  obtain ⟨pattern, -, built⟩ := bind_eq_ok built
  dsimp only at built
  split at built
  · obtain ⟨_, -, built⟩ := bind_eq_ok built
    cases built
    rfl
  · split at built <;> cases built
    rfl
  · cases built
    rfl

theorem FieldLine.line_of_parse {line : Nat} {c : Command} {f : FieldLine}
    (parsed : parse line c = .ok f) :
    f.line = line := by
  unfold parse at parsed
  split at parsed
  · obtain ⟨type, -, parsed⟩ := bind_eq_ok parsed
    split at parsed
    · cases parsed
    · obtain ⟨value, -, parsed⟩ := bind_eq_ok parsed
      cases parsed
      rfl
  · cases parsed

/-- A method block is opened without instructions. -/
theorem MethodBlock.insns_of_parseHead {line : Nat} {c : Command} {m : MethodBlock}
    (parsed : parseHead line c = .ok m) : m.insns = [] := by
  have kept : ∀ ws (m : MethodBlock), m.insns = [] →
      Ends (fun m : MethodBlock => m.insns = []) (fun _ => True) (m.withModifiers ws) := by
    intro ws
    induction ws with
    | nil => exact fun m none => none
    | cons w ws ih =>
      intro m none
      unfold withModifiers
      split
      · exact ih _ none
      split
      · exact ih _ none
      split
      · exact ih _ none
      · trivial
  have ends : Ends (fun m : MethodBlock => m.insns = []) (fun _ => True) (parseHead line c) := by
    unfold parseHead
    split
    · exact (Ends.any _ fun _ => trivial).bind fun type _ => kept _ _ rfl
    · trivial
  rwa [parsed] at ends

/-- The instructions of a class block, method by method. -/
def ClassBlock.insnLines (c : ClassBlock) : List InsnLine := c.methods.flatMap MethodBlock.insns

namespace Script

def insnLines (s : Script) : List InsnLine := s.classes.flatMap ClassBlock.insnLines

def OpenBlock.insnLines : OpenBlock → List InsnLine
  | .none => []
  | .inClass c => c.insnLines
  | .inMethod c m | .inSwitch c m _ => c.insnLines ++ m.insns

def OpenBlock.fieldLines : OpenBlock → List FieldLine
  | .none => []
  | .inClass c | .inMethod c _ | .inSwitch c _ _ => c.fields

/-- The instructions that have been read from the line of a number. -/
def Reading.insnsAt (n : Nat) (r : Reading) : List InsnLine :=
  (r.classes.flatMap ClassBlock.insnLines ++ r.block.insnLines).filter (·.line == n)

/-- The fields that have been read from the line of a number. -/
def Reading.fieldsAt (n : Nat) (r : Reading) : List FieldLine :=
  (r.classes.flatMap ClassBlock.fields ++ r.block.fieldLines).filter (·.line == n)

/-- A switch that is open starts in another line. -/
def OpenBlock.SwitchNotAt (n : Nat) : OpenBlock → Prop
  | .inSwitch _ _ s => s.line ≠ n ∧ s.kind.takesLines = true
  | _ => True

/-- What has been read from the line of a number stays the same. -/
structure Reading.SameAt (n : Nat) (r r' : Reading) : Prop where
  insns : r'.insnsAt n = r.insnsAt n
  fields : r'.fieldsAt n = r.fieldsAt n
  switch : r'.block.SwitchNotAt n

section OtherLines

variable {n line : Nat} {r : Reading} {c : ClassBlock} {m : MethodBlock} {raw : List Char}

theorem openClass_sameAt (opened : openClass line raw = .ok c) :
    Reading.SameAt n ⟨r.classes, .none⟩ ⟨r.classes, .inClass c⟩ := by
  obtain ⟨command, -, opened⟩ := bind_eq_ok opened
  split at opened
  · cases opened
  split at opened
  · cases opened
    exact ⟨rfl, rfl, trivial⟩
  · cases opened

variable (other : line ≠ n)

include other

theorem classLine_sameAt :
    Ends (Reading.SameAt n ⟨r.classes, .inClass c⟩) (fun _ => True) (classLine r c line raw) := by
  refine (Ends.any _ fun _ => trivial).bind fun command _ =>
    (Ends.any _ fun _ => trivial).bind fun _ _ => ?_
  dsimp only
  split
  · refine ⟨?_, ?_, trivial⟩ <;>
      simp [Reading.insnsAt, Reading.fieldsAt, OpenBlock.insnLines, OpenBlock.fieldLines]
  split
  · exact (Ends.any _ fun _ => trivial).bind fun s _ => ⟨rfl, rfl, trivial⟩
  split
  · exact (Ends.any _ fun _ => trivial).bind fun s _ => ⟨rfl, rfl, trivial⟩
  split
  · cases parsed : FieldLine.parse line command with
    | error e => trivial
    | ok f =>
      have elsewhere : f.line ≠ n := FieldLine.line_of_parse parsed ▸ other
      exact ⟨rfl, by simp [Reading.fieldsAt, OpenBlock.fieldLines, elsewhere], trivial⟩
  split
  · cases parsed : MethodBlock.parseHead line command with
    | error e => trivial
    | ok m =>
      have none := MethodBlock.insns_of_parseHead parsed
      exact ⟨by simp [Reading.insnsAt, OpenBlock.insnLines, none], rfl, trivial⟩
  · trivial

theorem methodLine_sameAt :
    Ends (Reading.SameAt n ⟨r.classes, .inMethod c m⟩) (fun _ => True)
      (methodLine r c m line raw) := by
  refine (Ends.any _ fun _ => trivial).bind fun command _ =>
    (Ends.any _ fun _ => trivial).bind fun _ _ => ?_
  split
  · exact ⟨by simp [Reading.insnsAt, OpenBlock.insnLines, ClassBlock.insnLines], rfl, trivial⟩
  split
  · trivial
  split
  · rename_i kind _ switch
    exact ⟨rfl, rfl, other, switch⟩
  · cases built : InsnLine.ofCommand line raw command _ [] with
    | error e => trivial
    | ok l =>
      have elsewhere : l.line ≠ n := InsnLine.line_of_ofCommand built ▸ other
      exact ⟨by simp [Reading.insnsAt, OpenBlock.insnLines, elsewhere], rfl, trivial⟩

omit other in
theorem switchLine_sameAt {s : OpenSwitch} (elsewhere : (OpenBlock.inSwitch c m s).SwitchNotAt n) :
    Ends (Reading.SameAt n ⟨r.classes, .inSwitch c m s⟩) (fun _ => True)
      (switchLine r c m s raw) := by
  unfold switchLine
  split
  · split
    · trivial
    · rename_i l built
      have lineElsewhere : l.line ≠ n := InsnLine.line_of_ofCommand built ▸ elsewhere.1
      exact ⟨by simp [Reading.insnsAt, OpenBlock.insnLines, lineElsewhere], rfl, trivial⟩
  · exact ⟨rfl, rfl, elsewhere⟩

/-- A step takes nothing from other lines. -/
theorem significantLine_sameAt (elsewhere : r.block.SwitchNotAt n) :
    Ends (Reading.SameAt n r) (fun _ => True) (significantLine r line raw) := by
  have located (x : Except ScriptFault Reading)
    (same : Ends (Reading.SameAt n r) (fun _ => True) x) :
      Ends (Reading.SameAt n r) (fun _ => True) (x.mapError (ScriptError.mk line)) :=
    (same.mono (fun _ h => h) fun _ _ => trivial).mapError
  obtain ⟨classes, block⟩ := r
  cases block with
  | none =>
    refine located _ ?_
    cases opened : openClass line raw with
    | error e => trivial
    | ok c => exact openClass_sameAt (r := ⟨classes, .none⟩) opened
  | inClass c => exact located _ (classLine_sameAt (r := ⟨classes, .inClass c⟩) other)
  | inMethod c m => exact located _ (methodLine_sameAt (r := ⟨classes, .inMethod c m⟩) other)
  | inSwitch c m s => exact switchLine_sameAt (r := ⟨classes, .inSwitch c m s⟩) elsewhere

end OtherLines

theorem readNumbered_sameAt {n : Nat} {r : Reading} {ls : List (Nat × List Char)}
    (others : ∀ l ∈ ls, l.1 ≠ n) (elsewhere : r.block.SwitchNotAt n) :
    Ends (Reading.SameAt n r) (fun _ => True) (readNumbered r ls) := by
  induction ls generalizing r with
  | nil => exact ⟨rfl, rfl, elsewhere⟩
  | cons l ls ih =>
    rw [readNumbered, List.foldlM_cons]
    refine (significantLine_sameAt (others l (.head _)) elsewhere).bind fun r' same => ?_
    refine (ih (fun l member => others l (.tail _ member)) same.switch).mono (fun r'' same' => ?_)
      fun _ h => h
    exact ⟨same'.insns.trans same.insns, same'.fields.trans same.fields, same'.switch⟩

/-! ### Switches that cannot be closed -/

/-- A switch that is open has taken a line that stands for no target. -/
def OpenBlock.Spoiled : OpenBlock → Prop
  | .inSwitch _ _ s => s.kind.takesLines = true ∧ ∃ l ∈ s.lines, IsNoCase l
  | _ => False

theorem significantLine_spoiled {r : Reading} (spoiled : r.block.Spoiled) (line : Nat)
    (raw : List Char) :
    Ends (fun r' => r'.block.Spoiled) (fun _ => True) (significantLine r line raw) := by
  obtain ⟨classes, block⟩ := r
  cases block with
  | inSwitch c m s =>
    obtain ⟨switch, l, member, noCase⟩ := spoiled
    change Ends _ _ (switchLine _ c m s raw)
    unfold switchLine
    split
    · split
      · trivial
      · rename_i insn built
        exact absurd (InsnLine.mode_of_ofCommand built).2
          (Pattern.compile_of_isNoCase switch member noCase _ _ _)
    · exact ⟨switch, l, List.mem_append_left _ member, noCase⟩
  | _ => exact spoiled.elim

theorem readNumbered_spoiled {r : Reading} (spoiled : r.block.Spoiled)
    (ls : List (Nat × List Char)) :
    Ends (fun r' => r'.block.Spoiled) (fun _ => True) (readNumbered r ls) := by
  induction ls generalizing r with
  | nil => exact spoiled
  | cons l ls ih =>
    rw [readNumbered, List.foldlM_cons]
    exact (significantLine_spoiled spoiled l.1 l.2).bind fun r' spoiled' => ih spoiled'

theorem close_ne_of_spoiled {r : Reading} (spoiled : r.block.Spoiled) (count : Nat)
    (script : Script) :
    r.close count ≠ .ok script := by
  intro closed
  rw [classes_of_close closed] at spoiled
  exact spoiled

/-! ### The step at a line -/

theorem number_of_mem_numbered {n : Nat} {ls : List (List Char)} :
    ∀ l ∈ numbered n ls, n < l.1 ∧ l.1 ≤ n + ls.length := by
  induction ls generalizing n with
  | nil => exact fun _ => nofun
  | cons l ls ih =>
    have later : ∀ l ∈ numbered (n + 1) ls, n < l.1 ∧ l.1 ≤ n + (ls.length + 1) :=
      fun l member => by
      have := ih l member
      omega
    intro l' member
    rw [numbered] at member
    split at member
    · exact later l' member
    · rcases List.mem_cons.1 member with rfl | inside
      · exact ⟨Nat.lt_succ_self n, by simp⟩
      · exact later l' inside

/-- A trimmed line that counts. -/
structure Counts (line : List Char) : Prop where
  isLine : Text.IsLine line
  some : line ≠ []
  trimmed : Text.trim line = line
  counts : isPassedOver line = false

section Place

variable {text : String} (l : Text.LineIn text.toList) (counts : Counts l.line)

include counts

theorem numbered_line :
    numbered 0 (Text.trimmedLines text.toList) = numbered 0 (Text.trimmedLines l.front) ++
      (l.number, l.line) :: numbered l.number (Text.trimmedLines l.rest.tail) := by
  have count : (Text.trimmedLines l.front).length = (Text.lines l.front).length :=
    List.length_map ..
  rw [l.trimmedLines_eq counts.isLine counts.some counts.trimmed, numbered_append, numbered,
    if_neg (by simp [counts.counts]), Nat.zero_add, count]
  rfl

/-- Reading goes on behind a line with what the step at the line gives. -/
theorem readLines_line {r r' : Reading} (read : readLines {} 0 (Text.lines l.front) = .ok r)
    (step : significantLine r l.number l.line = .ok r') :
    readLines {} 0 (Text.lines text.toList) = readLines r' l.number (Text.lines l.rest.tail) := by
  rw [readLines_eq, ← Text.trimmedLines] at read
  rw [readLines_eq, readLines_eq, ← Text.trimmedLines, ← Text.trimmedLines, numbered_line l counts,
    readNumbered_append, read, ok_bind, readNumbered, List.foldlM_cons, step, ok_bind]
  rfl

/-- Of an accepted script, what comes from a line is what the step at the line gives. -/
theorem exists_step_of_parse {script : Script} (parsed : parse text = .ok script) :
    ∃ r r', (r.insnsAt l.number = [] ∧ r.fieldsAt l.number = [] ∧ r.block.SwitchNotAt l.number) ∧
      significantLine r l.number l.line = .ok r' ∧ ¬r'.block.Spoiled ∧
      (r'.block.SwitchNotAt l.number →
        script.insnLines.filter (·.line == l.number) = r'.insnsAt l.number ∧
        (script.classes.flatMap ClassBlock.fields).filter (·.line == l.number) =
          r'.fieldsAt l.number) := by
  rw [parse_eq, numbered_line l counts, readNumbered_append] at parsed
  obtain ⟨r'', read, closed⟩ := bind_eq_ok parsed
  obtain ⟨r, front, read⟩ := bind_eq_ok read
  rw [readNumbered, List.foldlM_cons] at read
  obtain ⟨r', step, rest⟩ := bind_eq_ok read
  have count : (Text.trimmedLines l.front).length = (Text.lines l.front).length :=
    List.length_map ..
  have before : ∀ e ∈ numbered 0 (Text.trimmedLines l.front), e.1 ≠ l.number := fun e member => by
    have := number_of_mem_numbered e member
    rw [Text.LineIn.number]
    omega
  have behind : ∀ e ∈ numbered l.number (Text.trimmedLines l.rest.tail), e.1 ≠ l.number :=
    fun e member => by
    have := number_of_mem_numbered e member
    omega
  have same := readNumbered_sameAt (r := {}) before trivial
  rw [front] at same
  refine ⟨r, r', ⟨same.insns, same.fields, same.switch⟩, step, ?_, ?_⟩
  · intro spoiled
    have still := readNumbered_spoiled spoiled (numbered l.number (Text.trimmedLines l.rest.tail))
    rw [readNumbered, rest] at still
    exact close_ne_of_spoiled still _ _ closed
  · intro elsewhere
    have same' := readNumbered_sameAt behind elsewhere
    rw [readNumbered, rest] at same'
    obtain rfl := classes_of_close closed
    have insns := same'.insns
    have fields := same'.fields
    rw [Reading.insnsAt, OpenBlock.insnLines, List.append_nil] at insns
    rw [Reading.fieldsAt, OpenBlock.fieldLines, List.append_nil] at fields
    exact ⟨insns, fields⟩

end Place

end Script

end JvmPatch
