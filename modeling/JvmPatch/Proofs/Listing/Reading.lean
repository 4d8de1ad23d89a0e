import JvmPatch.Listing.Class
import JvmPatch.Proofs.Listing.Operands

/-! Reading the lines of a listing. A text is read from a state to a state, whatever comes after
it. -/

set_option autoImplicit false

namespace JvmPatch

theorem toList_marked (s : String) : ("." ++ s).toList = '.' :: s.toList := by
  rw [String.toList_append]
  rfl

namespace Script

/-- The lines of a text lead from one state of reading to another one, and from one line number to
another one. -/
def Takes (text : String) (r : Reading) (n : Nat) (r' : Reading) (n' : Nat) : Prop :=
  ∀ rest, readLines r n (Text.lines (text.toList ++ rest)) = readLines r' n' (Text.lines rest)

namespace Takes

variable {r r' r'' : Reading} {n n' n'' : Nat}

theorem empty (r : Reading) (n : Nat) : Takes "" r n r n := fun _ => rfl

theorem append {first second : String} (takes : Takes first r n r' n')
    (further : Takes second r' n' r'' n'') :
    Takes (first ++ second) r n r'' n'' := by
  intro rest
  rw [String.toList_append, List.append_assoc, takes, further]

/-- A line that is not passed over. -/
theorem line {text : String} (depth : Nat) (isLine : Text.IsLine text.toList)
    (first : ∀ c ∈ text.toList.head?, Text.isBlank c = false)
    (last : ∀ c ∈ text.toList.getLast?, Text.isBlank c = false)
    (counts : isPassedOver text.toList = false)
    (reads : significantLine r (n + 1) text.toList = .ok r') :
    Takes (indented depth text) r n r' (n + 1) := by
  intro rest
  have spaces : Text.IsLine (List.replicate (4 * depth) ' ') := by
    intro c member
    rw [(List.mem_replicate.1 member).2]
    decide
  have chars : (indented depth text).toList ++ rest =
      (List.replicate (4 * depth) ' ' ++ text.toList) ++ '\n' :: rest := by
    simp [indented, String.toList_append,
      String.toList_ofList (l := List.replicate (4 * depth) ' ')]
  rw [chars, Text.lines_append (spaces.append isLine), readLines]
  simp only [Text.trim_indented first last, counts, reads, if_neg Bool.false_ne_true]

/-- A line that starts with a mark. -/
theorem marked {text : String} {s : List Char} (depth : Nat) (split : text.toList = '.' :: s)
    (isLine : Text.IsLine s) (last : ∀ c ∈ s.getLast?, Text.isBlank c = false)
    (reads : significantLine r (n + 1) ('.' :: s) = .ok r') :
    Takes (indented depth text) r n r' (n + 1) := by
  refine line depth ?_ ?_ ?_ ?_ ?_
  · rw [split]
    exact isLine.cons (by decide) (by decide)
  · rw [split]
    rintro c ⟨⟩
    decide
  · rw [split]
    intro c isLast
    cases s with
    | nil =>
      obtain rfl : '.' = c := Option.some.inj isLast
      decide
    | cons d s =>
      rw [List.getLast?_cons_cons] at isLast
      exact last c isLast
  · rw [split]
    rfl
  · rwa [split]

/-- Texts are read one after the other, each adding something to what has been read. -/
theorem each {α β : Type} (text : α → String) (state : List β → Reading)
    (fits : α → β → Prop) {xs : List α}
    (one : ∀ x ∈ xs, ∀ ys n, ∃ y n', Takes (text x) (state ys) n (state (ys ++ [y])) n' ∧ fits x y)
    (ys : List β) (n : Nat) :
    ∃ zs n', Takes (String.join (xs.map text)) (state ys) n (state (ys ++ zs)) n' ∧
      List.Forall₂ fits xs zs := by
  induction xs generalizing ys n with
  | nil => exact ⟨[], n, by rw [List.append_nil]; exact .empty _ _, .nil⟩
  | cons x xs ih =>
    obtain ⟨y, n', takes, holds⟩ := one x (.head _) ys n
    obtain ⟨zs, n'', further, all⟩ := ih (fun z member => one z (.tail _ member)) (ys ++ [y]) n'
    refine ⟨y :: zs, n'', ?_, .cons holds all⟩
    rw [List.append_assoc, List.singleton_append] at further
    rw [List.map_cons, String.join_cons]
    exact takes.append further

end Takes

end Script

/-! ### The lines of a method -/

namespace ListedInsn

open Script

variable {i : ListedInsn} {p : Pattern} {r : Reading} {c : ClassBlock} {m : MethodBlock}

theorem ofCommand_of_keep {command : Command} {kind : PatternKind} {lines : List (List Char)}
    (keeps : command.mode = .keep)
    (compiles : Pattern.compile kind command.params (command.textFrom 0) lines = .ok p) (line : Nat)
    (raw : List Char) :
    InsnLine.ofCommand line raw command kind lines = .ok ⟨.keep, kind, p, line,
      String.ofList raw⟩ := by
  rw [InsnLine.ofCommand, compiles, keeps]
  rfl

theorem eq_point_of_lowerAscii {d : Char} (same : Text.lowerAscii d = '.') : d = '.' := by
  unfold Text.lowerAscii at same
  split at same
  · rename_i letter
    have low : 65 ≤ d.toNat := UInt32.le_iff_toNat_le.1 letter.1
    have high : d.toNat ≤ 90 := UInt32.le_iff_toNat_le.1 letter.2
    have valid : (d.toNat + 32).isValidChar := .inl (by omega)
    have number := congrArg Char.toNat same
    rw [Char.ofNat, dif_pos valid] at number
    change d.toNat + 32 = 46 at number
    omega
  · exact same

/-- The lines of a switch are collected up to the one that closes it. -/
theorem takes_lines {s : OpenSwitch} {lines : List String} (n : Nat)
    (mark : ∃ rest, s.closing = '.' :: rest)
    (cases : ∀ l ∈ lines, Text.IsWord l.toList ∧ ∀ c ∈ l.toList.head?, c ≠ '.' ∧ c ≠ '/') :
    ∃ n', Takes (String.join (lines.map (indented 3))) { r with block := .inSwitch c m s } n
      { r with
        block := .inSwitch c m { s with lines := s.lines ++ lines.map String.toList } } n' := by
  have one (l : String) (member : l ∈ lines) (ls : List (List Char)) (n : Nat) :
      ∃ z n', Takes (indented 3 l)
        { r with block := .inSwitch c m { s with lines := s.lines ++ ls } } n
        { r with block := .inSwitch c m { s with lines := s.lines ++ (ls ++ [z]) } } n' ∧
          z = l.toList := by
    obtain ⟨word, head⟩ := cases l member
    refine ⟨l.toList, n + 1, .line 3 word.isLine ?_ ?_ ?_ ?_, rfl⟩
    · exact fun c first => word.noBlank c (List.mem_of_mem_head? first)
    · exact fun c last => word.noBlank c (List.mem_of_mem_getLast? last)
    · obtain ⟨d, w, same, -⟩ := word.exists_cons
      have notSlash : d ≠ '/' := (head d (by rw [same]; rfl)).2
      rw [same]
      unfold isPassedOver
      split
      · rename_i none
        cases none
      · rename_i comment
        exact absurd (List.cons.inj comment).1 notSlash
      · rfl
    · obtain ⟨rest, closes⟩ := mark
      have other : Text.sameIgnoringCase l.toList s.closing = false := by
        obtain ⟨d, w, same, -⟩ := word.exists_cons
        rw [closes, same, Text.sameIgnoringCase, beq_eq_false_iff_ne]
        intro equal
        exact (head d (by rw [same]; rfl)).1 (eq_point_of_lowerAscii (List.cons.inj equal).1)
      change switchLine _ _ _ _ _ = _
      rw [switchLine, show OpenSwitch.closing { s with lines := s.lines ++ ls } =
        s.closing from rfl, other, if_neg Bool.false_ne_true, List.append_assoc]
  obtain ⟨zs, n', takes, all⟩ := Takes.each (indented 3) _ _ one [] n
  have same : zs = lines.map String.toList := by
    rw [← List.forall₂_eq_eq_eq, List.forall₂_map_right_iff]
    exact all.flip
  subst same
  simp only [List.append_nil, List.nil_append] at takes
  exact ⟨n', takes⟩

/-- What a listing shows for an instruction is read as a line of a method block. -/
theorem IsReadAs.takes (isRead : i.IsReadAs p) (keeps : m.mode = .keep) (n : Nat) :
    ∃ l n', Takes i.text { r with block := .inMethod c m } n
      { r with block := .inMethod c { m with insns := m.insns ++ [l] } } n' ∧
      l.mode = .keep ∧ l.pattern = p := by
  obtain ⟨command, kind, parsed, mode, word, notEnd, named, compiles, closing⟩ := isRead.reads
  have nested : checkNested m.mode command.mode "methods" = .ok () := by
    rw [keeps]
    rfl
  have first (r' : Reading) (outcome : (if kind.takesLines then
      pure { r with block := .inSwitch c m ⟨n + 1, '.' :: i.line.toList, command, kind, []⟩ }
      else do
        let insn ← InsnLine.ofCommand (n + 1) ('.' :: i.line.toList) command kind []
        pure { r with block := .inMethod c { m with insns := m.insns ++ [insn] } }) =
          Except.ok r') :
      Takes (indented 2 ("." ++ i.line)) { r with block := .inMethod c m } n r' (n + 1) := by
    refine .marked 2 (toList_marked _) isRead.isLine isRead.last ?_
    change (methodLine _ c m (n + 1) ('.' :: i.line.toList)).mapError _ = _
    rw [methodLine, parsed, ok_bind, nested, ok_bind, if_neg notEnd, named]
    dsimp only
    rw [outcome]
    rfl
  rw [ListedInsn.text, isRead.isShown, if_neg Bool.false_ne_true]
  cases takesLines : kind.takesLines with
  | false =>
    rw [takesLines] at closing
    obtain ⟨closes, noLines⟩ := closing
    rw [noLines, List.map_nil] at compiles
    refine ⟨⟨.keep, kind, p, n + 1, String.ofList ('.' :: i.line.toList)⟩, n + 1, ?_, rfl, rfl⟩
    have takes := first _ (by
      rw [takesLines, if_neg Bool.false_ne_true, ofCommand_of_keep mode compiles]
      rfl)
    rw [closes, noLines]
    exact (takes.append (.empty _ _)).append (.empty _ _)
  | true =>
    rw [takesLines, if_pos rfl] at closing
    have takes := first _ (by
      rw [takesLines, if_pos rfl]
      rfl)
    have mark : ∃ rest, OpenSwitch.closing ⟨n + 1, '.' :: i.line.toList, command, kind, []⟩ =
        '.' :: rest := by
      rw [OpenSwitch.closing, mode]
      exact ⟨_, rfl⟩
    obtain ⟨n', further⟩ := takes_lines (r := r) (c := c) (m := m) (n + 1) mark isRead.lines
    refine ⟨⟨.keep, kind, p, n + 1, String.ofList ('.' :: i.line.toList)⟩, n' + 1,
      (takes.append further).append ?_, rfl, rfl⟩
    have closingLine : ".end-" ++ command.nameText = "." ++ ("end-" ++ command.nameText) := by
      rw [← String.append_assoc]
      rfl
    have chars : ("end-" ++ command.nameText).toList = "end-".toList ++ command.name := by
      rw [String.toList_append, Command.nameText, String.toList_ofList (l := command.name)]
    have lineWord : Text.IsWord ("end-" ++ command.nameText).toList := by
      have front : Text.IsWord "end-".toList := by decide
      rw [chars]
      exact word.append front.noBlank
    rw [closing, Option.toList_some, List.map_singleton, String.join_cons, String.join_nil,
      String.append_empty, closingLine]
    refine .marked 2 (toList_marked _) lineWord.isLine ?_ ?_
    · exact fun c last => lineWord.noBlank c (List.mem_of_mem_getLast? last)
    · have closes : Text.sameIgnoringCase ('.' :: ("end-" ++ command.nameText).toList)
          (OpenSwitch.closing ⟨n + 1, '.' :: i.line.toList, command, kind,
            [] ++ i.lines.map String.toList⟩) =
            true := by
        rw [OpenSwitch.closing, mode, chars]
        exact beq_self_eq_true _
      change switchLine _ _ _ _ _ = _
      rw [switchLine, if_pos closes, List.nil_append, ofCommand_of_keep mode compiles]

end ListedInsn

/-- Lines that are read as patterns are read one after the other. -/
theorem ListedInsn.takes_each {α : Type} (xs : List α) (item : α → ListedInsn)
    (fits : α → Pattern → Prop) (one : ∀ x ∈ xs, ∃ p, (item x).IsReadAs p ∧ fits x p)
    (r : Script.Reading) (c : ClassBlock) {m : MethodBlock} (keeps : m.mode = .keep) (n : Nat) :
    ∃ ls n', Script.Takes (String.join (xs.map fun x => (item x).text))
        { r with block := .inMethod c m } n
        { r with block := .inMethod c { m with insns := m.insns ++ ls } } n' ∧
      List.Forall₂ (fun x l => l.mode = .keep ∧ fits x l.pattern) xs ls := by
  have reads (x : α) (member : x ∈ xs) (ls : List InsnLine) (n : Nat) :
      ∃ l n', Script.Takes (item x).text
          { r with block := .inMethod c { m with insns := m.insns ++ ls } } n
          { r with block := .inMethod c { m with insns := m.insns ++ (ls ++ [l]) } } n' ∧
        (l.mode = .keep ∧ fits x l.pattern) := by
    obtain ⟨p, isRead, holds⟩ := one x member
    obtain ⟨l, n', takes, mode, pattern⟩ :=
      isRead.takes (r := r) (c := c) (m := { m with insns := m.insns ++ ls }) keeps n
    rw [List.append_assoc] at takes
    exact ⟨l, n', takes, mode, pattern ▸ holds⟩
  obtain ⟨ls, n', takes, all⟩ := Script.Takes.each _ _ _ reads [] n
  rw [List.append_nil] at takes
  exact ⟨ls, n', takes, all⟩

/-- A body that scripts can spell out in a method of a given type. -/
structure Code.IsPlain (code : Code) (type : MethodDesc) : Prop where
  insns : ∀ insn ∈ code.insns, insn.IsPlain type
  regions : ∀ r ∈ code.regions, r.IsPlain

namespace Code

open Script

variable {code : Code} {type : MethodDesc}

/-- What is shown for an instruction that is shown. -/
def shownAs (names : LabelNames) (insn : Insn) : ListedInsn :=
  (ListedInsn.ofInsn names insn).getD { line := "" }

theorem filterMap_ofInsn {names : LabelNames} {insns : List Insn}
    (shown : ∀ insn ∈ insns, names.shows insn = true →
      (ListedInsn.ofInsn names insn).isSome = true) :
    insns.filterMap (ListedInsn.ofInsn names) = (insns.filter names.shows).map (shownAs names) := by
  induction insns with
  | nil => rfl
  | cons insn insns ih =>
    have rest := ih fun other member => shown other (.tail _ member)
    cases isShown : names.shows insn with
    | true =>
      obtain ⟨i, isItem⟩ := Option.isSome_iff_exists.1 (shown insn (.head _) isShown)
      rw [List.filterMap_cons_some isItem, List.filter_cons_of_pos isShown, List.map_cons, rest,
        shownAs, isItem]
      rfl
    | false =>
      have none : ListedInsn.ofInsn names insn = none := by
        cases insn with
        | line => rfl
        | label l =>
          have unnamed : names.name? l = none :=
            Option.not_isSome_iff_eq_none.1 (by simpa [LabelNames.shows] using isShown)
          rw [ListedInsn.ofInsn, unnamed]
          rfl
        | _ => cases isShown
      rw [List.filterMap_cons_none none, List.filter_cons_of_neg (by simp [isShown]), rest]

theorem isSome_name? {l : Label} (used : l ∈ code.usedLabels) :
    ((LabelNames.ofCode code).name? l).isSome = true :=
  Option.isSome_iff_exists.2 (LabelNames.exists_name? ((LabelNames.mem_ofCode code l).2 used))

theorem isReadBack (plain : code.IsPlain type) {insn : Insn} (member : insn ∈ code.insns)
    (shown : (LabelNames.ofCode code).shows insn = true) :
    ListedInsn.IsReadBack (LabelNames.ofCode code) type insn :=
  ListedInsn.ofInsn_isReadBack (plain.insns insn member) shown fun _ target =>
    isSome_name? (List.mem_append_left _ (List.mem_flatMap.2 ⟨insn, member, target⟩))

theorem forall_of_forall₂ {α β : Type} {p : β → Prop} {xs : List α} {ys : List β}
    (all : List.Forall₂ (fun _ y => p y) xs ys) : ∀ y ∈ ys, p y := by
  induction all with
  | nil => exact List.forall_mem_nil _
  | cons holds _ ih => exact List.forall_mem_cons.2 ⟨holds, ih⟩

/-- The lines for a body are read, and they show the body. -/
theorem takes_listed (plain : code.IsPlain type) (r : Reading) (c : ClassBlock) {m : MethodBlock}
    (keeps : m.mode = .keep) (n : Nat) :
    ∃ ls n', Takes code.listed { r with block := .inMethod c m } n
        { r with block := .inMethod c { m with insns := m.insns ++ ls } } n' ∧
      code.ShownBy (LabelNames.ofCode code) type ls := by
  obtain ⟨forRegions, n', takesRegions, regions⟩ := ListedInsn.takes_each code.regions
    (fun region => { line := region.listed (LabelNames.ofCode code) })
    (fun region p => p.DepictsRegion (LabelNames.ofCode code) region)
    (fun region member => Region.exists_isReadAs (plain.regions region member) fun l inside =>
      isSome_name? (List.mem_append_right _ (List.mem_flatMap.2 ⟨region, member, inside⟩))) r
        c keeps n
  obtain ⟨forInsns, n'', takesInsns, insns⟩ := ListedInsn.takes_each
    (code.insns.filter (LabelNames.ofCode code).shows) (shownAs (LabelNames.ofCode code))
    (fun insn p => p.Depicts (LabelNames.ofCode code) type insn) (fun insn member => by
      obtain ⟨inside, shown⟩ := List.mem_filter.1 member
      obtain ⟨i, p, isItem, isRead, depicts⟩ := isReadBack plain inside shown
      refine ⟨p, ?_, depicts⟩
      rwa [shownAs, isItem]) r c (m := { m with insns := m.insns ++ forRegions }) keeps n'
  have areRegions : ∀ l ∈ forRegions, l.pattern.isTryCatch = true :=
    forall_of_forall₂ (regions.imp fun _ _ h => Pattern.isTryCatch_of_depictsRegion h.2)
  have areInsns : ∀ l ∈ forInsns, l.pattern.isTryCatch = false :=
    forall_of_forall₂ (insns.imp fun _ _ h => Pattern.isTryCatch_of_depicts h.2)
  refine ⟨forRegions ++ forInsns, n'', ?_, ?_, ?_, ?_⟩
  · have texts : code.regions.map (fun region =>
          indented 2 ("." ++ region.listed (LabelNames.ofCode code))) =
        code.regions.map fun region =>
          ListedInsn.text { line := region.listed (LabelNames.ofCode code) } :=
      List.map_congr_left fun region _ => by simp [ListedInsn.text]
    have items := filterMap_ofInsn fun insn member shown => by
      obtain ⟨i, _, isItem, -⟩ := isReadBack plain member shown
      exact Option.isSome_iff_exists.2 ⟨i, isItem⟩
    rw [listed, texts, items, List.map_map]
    rw [List.append_assoc] at takesInsns
    exact takesRegions.append takesInsns
  · intro l member
    rcases List.mem_append.1 member with inside | inside
    · exact forall_of_forall₂ (regions.imp fun _ _ h => h.1) l inside
    · exact forall_of_forall₂ (insns.imp fun _ _ h => h.1) l inside
  · rw [List.filter_append, List.filter_eq_self.2 areRegions,
      List.filter_eq_nil_iff.2 fun l member => by simp [areInsns l member], List.append_nil]
    exact regions.imp fun _ _ h => h.2
  · have others : (forRegions ++ forInsns).filter (fun l => !l.pattern.isTryCatch) = forInsns := by
      rw [List.filter_append, List.filter_eq_nil_iff.2 fun l member => by
        simp [areRegions l member],
        List.nil_append, List.filter_eq_self.2 fun l member => by simp [areInsns l member]]
    rw [others]
    exact insns.imp fun _ _ h => h.2

end Code

end JvmPatch
