import JvmPatch.Proofs.Text.Words

/-! Where the lines of a text lie. A text that ends a line can be cut off from what follows, and
what counts of a line is what is left of it after trimming. -/

set_option autoImplicit false

namespace JvmPatch.Text

/-- The lines of a text without the blanks around them. -/
def trimmedLines (s : List Char) : List (List Char) := (lines s).map trim

def EndsLine (s : List Char) : Prop := ∀ c ∈ s.getLast?, c = '\n'

instance (s : List Char) : Decidable (EndsLine s) :=
  decidable_of_iff (s.getLast?.all (· == '\n') = true) (by simp [EndsLine, Option.all_eq_true])

/-- A text before which a line ends. -/
def StartsBreak (s : List Char) : Prop := ∀ c ∈ s.head?, c = '\n'

/-- Blanks that end no line. -/
def IsSpacing (s : List Char) : Prop := ∀ c ∈ s, isBlank c = true ∧ c ≠ '\n'

/-! ### Trimming -/

section Trimming

variable {w : List Char} (blank : ∀ c ∈ w, isBlank c = true)

include blank

theorem trimStart_append (s : List Char) : trimStart (w ++ s) = trimStart s :=
  List.dropWhile_append_of_pos blank

theorem trimEnd_append (s : List Char) : trimEnd (s ++ w) = trimEnd s := by
  rw [trimEnd, List.reverse_append,
    List.dropWhile_append_of_pos fun c member => blank c (List.mem_reverse.1 member), trimEnd]

/-- Blanks before a text are dropped. -/
theorem trim_append_left (s : List Char) : trim (w ++ s) = trim s := by
  rw [trim, trimStart_append blank, trim]

/-- Blanks after a text are dropped. -/
theorem trim_append_right (s : List Char) : trim (s ++ w) = trim s := by
  rw [trim, trim, trimStart, List.dropWhile_append, ← trimStart, ← trimStart]
  split
  · rename_i allBlank
    have noRest : trimStart w = [] := by
      rw [← List.append_nil w, trimStart_append blank]
      rfl
    rw [noRest, List.isEmpty_iff.1 allBlank]
  · exact trimEnd_append blank _

end Trimming

theorem trimEnd_cons {c : Char} (noBlank : isBlank c = false) (s : List Char) :
    trimEnd (c :: s) = c :: trimEnd s := by
  rw [trimEnd, List.reverse_cons, List.dropWhile_append]
  split
  · rename_i allBlank
    rw [trimEnd, List.isEmpty_iff.1 allBlank, List.dropWhile_cons_of_neg (by simp [noBlank])]
    rfl
  · rw [List.reverse_append, trimEnd]
    rfl

theorem trim_cons {c : Char} (noBlank : isBlank c = false) (s : List Char) :
    trim (c :: s) = c :: trimEnd s := by
  rw [trim, trimStart_of_head (by rintro d ⟨⟩; exact noBlank), trimEnd_cons noBlank]

theorem IsSpacing.blank {w : List Char} (spacing : IsSpacing w) : ∀ c ∈ w, isBlank c = true :=
  fun c member => (spacing c member).1

theorem IsSpacing.noBreak {w : List Char} (spacing : IsSpacing w) : '\n' ∉ w :=
  fun member => (spacing _ member).2 rfl

/-! ### Lines -/

theorem EndsLine.tail {c : Char} {s : List Char} (ends : EndsLine (c :: s)) : EndsLine s := by
  cases s with
  | nil => exact fun _ => nofun
  | cons d s =>
    intro last isLast
    exact ends last (by rwa [List.getLast?_cons_cons])

theorem endsLine_append_break (s : List Char) : EndsLine (s ++ ['\n']) := by
  intro c last
  rw [List.getLast?_append] at last
  exact (Option.some.inj last).symm

theorem lines_eq_nil {s : List Char} (none : lines s = []) : s = [] := by
  unfold lines at none
  split at none
  · rfl
  · cases none
  · cases none
  · split at none <;> cases none

/-- The lines of a text are those of a start that ends a line and those of the rest. -/
theorem lines_append_of_endsLine {front : List Char} (ends : EndsLine front) (s : List Char) :
    lines (front ++ s) = lines front ++ lines s := by
  fun_induction lines front with
  | case1 => rfl
  | case2 front ih => rw [List.cons_append, lines, ih ends.tail, List.cons_append]
  | case3 front ih =>
    rw [List.cons_append, List.cons_append, lines, ih ends.tail.tail, List.cons_append]
  | case4 c front notFeed _ none ih =>
    rw [lines_eq_nil none] at ends
    exact absurd (ends c rfl) notFeed
  | case5 c front notFeed notReturn l ls some ih =>
    rw [List.cons_append, lines, ih ends.tail, some]
    · rfl
    · exact notFeed
    · intro s' isReturn same
      cases front with
      | nil => cases some
      | cons d front => exact notReturn front isReturn (by rw [(List.cons.inj same).1])

/-- A text without line breaks is one line, unless it is empty. -/
theorem lines_of_noBreak {u : List Char} (noBreak : '\n' ∉ u) (some : u ≠ []) : lines u = [u] := by
  induction u with
  | nil => exact absurd rfl some
  | cons c u ih =>
    have notFeed : c ≠ '\n' := fun same => noBreak (same ▸ .head _)
    have rest : '\n' ∉ u := fun member => noBreak (.tail _ member)
    rw [lines]
    · cases u with
      | nil => rfl
      | cons d u => rw [ih rest (List.cons_ne_nil _ _)]
    · exact notFeed
    · rintro s - rfl
      exact rest (.head _)

/-- A line break ends a line, together with a carriage return before it. -/
theorem exists_lines_break {u : List Char} (noBreak : '\n' ∉ u) :
    ∃ l, lines (u ++ ['\n']) = [l] ∧ (u = l ∨ u = l ++ ['\r']) := by
  induction u with
  | nil => exact ⟨[], rfl, .inl rfl⟩
  | cons c u ih =>
    have notFeed : c ≠ '\n' := fun same => noBreak (same ▸ .head _)
    have rest : '\n' ∉ u := fun member => noBreak (.tail _ member)
    by_cases isReturn : c = '\r' ∧ u = []
    · obtain ⟨rfl, rfl⟩ := isReturn
      exact ⟨[], rfl, .inr rfl⟩
    · obtain ⟨l, same, ended⟩ := ih rest
      refine ⟨c :: l, ?_, ?_⟩
      · rw [List.cons_append, lines, same]
        · exact notFeed
        · intro s carriage starts
          cases u with
          | nil => exact isReturn ⟨carriage, rfl⟩
          | cons d u => exact rest (by rw [(List.cons.inj starts).1]; exact .head _)
      · rcases ended with rfl | rfl
        · exact .inl rfl
        · exact .inr rfl

/-- The lines of a text without blanks around them are those of a start that ends a line and those
of the rest. -/
theorem trimmedLines_append {front : List Char} (ends : EndsLine front) (s : List Char) :
    trimmedLines (front ++ s) = trimmedLines front ++ trimmedLines s := by
  rw [trimmedLines, lines_append_of_endsLine ends, List.map_append]
  rfl

theorem trimmedLines_of_noBreak {u : List Char} (noBreak : '\n' ∉ u) (some : u ≠ []) :
    trimmedLines u = [trim u] := by
  rw [trimmedLines, lines_of_noBreak noBreak some]
  rfl

theorem trimmedLines_break {u : List Char} (noBreak : '\n' ∉ u) :
    trimmedLines (u ++ ['\n']) = [trim u] := by
  obtain ⟨l, same, rfl | rfl⟩ := exists_lines_break noBreak
  · rw [trimmedLines, same]
    rfl
  · rw [trimmedLines, same, trim_append_right (List.forall_mem_singleton.2 rfl)]
    rfl

/-- The lines of a text are its first line and those of the rest. -/
theorem trimmedLines_line {u rest : List Char} (noBreak : '\n' ∉ u) (breaks : StartsBreak rest)
    (some : u ++ rest ≠ []) : trimmedLines (u ++ rest) = trim u :: trimmedLines rest.tail := by
  cases rest with
  | nil =>
    rw [List.append_nil] at some
    rw [List.append_nil, trimmedLines_of_noBreak noBreak some]
    rfl
  | cons c rest =>
    obtain rfl := breaks c rfl
    have split : u ++ '\n' :: rest = (u ++ ['\n']) ++ rest := by simp
    rw [split, trimmedLines_append (endsLine_append_break u), trimmedLines_break noBreak]
    rfl

/-- A text up to its last line break, and its last line. -/
theorem exists_lastLine (s : List Char) : ∃ front u, s = front ++ u ∧ EndsLine front ∧
    '\n' ∉ u := by
  induction s with
  | nil => exact ⟨[], [], rfl, fun _ => nofun, List.not_mem_nil⟩
  | cons c s ih =>
    obtain ⟨front, u, rfl, ends, noBreak⟩ := ih
    cases front with
    | cons d front =>
      refine ⟨c :: d :: front, u, rfl, ?_, noBreak⟩
      intro last isLast
      exact ends last (by rwa [List.getLast?_cons_cons] at isLast)
    | nil =>
      by_cases isFeed : c = '\n'
      · exact ⟨[c], u, rfl, fun last isLast => Option.some.inj isLast ▸ isFeed, noBreak⟩
      · refine ⟨[], c :: u, rfl, fun _ => nofun, ?_⟩
        rintro (_ | ⟨_, member⟩)
        · exact isFeed rfl
        · exact noBreak member

/-- The first line of a text, and the rest. -/
theorem exists_firstLine (s : List Char) : ∃ u rest, s = u ++ rest ∧ '\n' ∉ u ∧
    StartsBreak rest := by
  refine ⟨s.takeWhile (· != '\n'), s.dropWhile (· != '\n'),
    List.takeWhile_append_dropWhile.symm, ?_, ?_⟩
  · intro member
    have passes := List.all_eq_true.1 List.all_takeWhile '\n' member
    exact absurd passes (by decide)
  · intro c first
    have fails := List.head?_dropWhile_not (· != '\n') s
    rw [Option.mem_def.1 first] at fails
    simpa using fails

/-! ### Line ends -/

/-- A text of lines that end with a line feed, with or without a carriage return before it. The last
line need not end. -/
inductive LaidOut : List (List Char) → List Char → Prop
  | nil : LaidOut [] []
  | last {l : List Char} : l ≠ [] → LaidOut [l] l
  | feed (l : List Char) {ls : List (List Char)} {s : List Char} :
      LaidOut ls s → LaidOut (l :: ls) (l ++ '\n' :: s)
  | returnFeed (l : List Char) {ls : List (List Char)} {s : List Char} :
      LaidOut ls s → LaidOut (l :: ls) (l ++ '\r' :: '\n' :: s)

theorem LaidOut.lines_eq {ls : List (List Char)} {s : List Char} (laid : LaidOut ls s)
    (all : ∀ l ∈ ls, IsLine l) :
    lines s = ls := by
  induction laid with
  | nil => rfl
  | @last l some =>
    exact lines_of_noBreak (fun feed => (all l (.head _) _ feed).1 rfl) some
  | feed l _ ih => rw [lines_append (all l (.head _)), ih fun m member => all m (.tail _ member)]
  | returnFeed l _ ih =>
    rw [lines_append_return (all l (.head _)), ih fun m member => all m (.tail _ member)]

/-! ### A line within a text -/

/-- A line of a text, with the blanks around it and with what stands before and behind it. -/
structure LineIn (s : List Char) where
  front : List Char
  indent : List Char
  line : List Char
  trail : List Char
  rest : List Char
  split : s = front ++ (indent ++ (line ++ (trail ++ rest)))
  ends : EndsLine front
  indented : IsSpacing indent
  trailing : IsSpacing trail
  breaks : StartsBreak rest

/-- The lines of a text are numbered from one. -/
def LineIn.number {s : List Char} (l : LineIn s) : Nat := (lines l.front).length + 1

theorem LineIn.trimmedLines_eq {s : List Char} (l : LineIn s) (isLine : IsLine l.line)
    (some : l.line ≠ []) (trimmed : trim l.line = l.line) :
    trimmedLines s = trimmedLines l.front ++ l.line :: trimmedLines l.rest.tail := by
  have noBreak : '\n' ∉ l.indent ++ (l.line ++ l.trail) := by
    simp only [List.mem_append, not_or]
    exact ⟨l.indented.noBreak, fun member => (isLine _ member).1 rfl, l.trailing.noBreak⟩
  have whole : s = l.front ++ ((l.indent ++ (l.line ++ l.trail)) ++ l.rest) := by
    simpa using l.split
  rw [congrArg trimmedLines whole, trimmedLines_append l.ends,
    trimmedLines_line noBreak l.breaks (by simp [some]), trim_append_left l.indented.blank,
    trim_append_right l.trailing.blank, trimmed]

end JvmPatch.Text
