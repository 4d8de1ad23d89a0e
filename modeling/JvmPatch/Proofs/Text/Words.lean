import JvmPatch.Text.Blank

/-! A text that is put together from words and lines falls into these words and lines again. -/

set_option autoImplicit false

namespace JvmPatch.Text

/-- A word has a character, and none that is blank. -/
structure IsWord (w : List Char) : Prop where
  ne_nil : w ≠ []
  noBlank : ∀ c ∈ w, isBlank c = false

instance (w : List Char) : Decidable (IsWord w) :=
  decidable_of_iff (w ≠ [] ∧ w.any isBlank = false)
    ⟨fun both => ⟨both.1, by simpa using both.2⟩,
      fun word => ⟨word.ne_nil, by simpa using word.noBlank⟩⟩

/-- A text that is empty or starts with a space, so that it ends a word before it. -/
inductive StartsApart : List Char → Prop
  | nil : StartsApart []
  | space (s : List Char) : StartsApart (' ' :: s)

namespace IsWord

variable {w : List Char}

theorem exists_cons (word : IsWord w) : ∃ c s, w = c :: s ∧ isBlank c = false := by
  cases w with
  | nil => exact absurd rfl word.ne_nil
  | cons c s => exact ⟨c, s, rfl, word.noBlank c (.head _)⟩

theorem append {v : List Char} (left : ∀ c ∈ v, isBlank c = false) (word : IsWord w) :
    IsWord (v ++ w) where
  ne_nil := by
    intro empty
    exact word.ne_nil (List.append_eq_nil_iff.1 empty).2
  noBlank c member := by
    rcases List.mem_append.1 member with inside | inside
    · exact left c inside
    · exact word.noBlank c inside

end IsWord

/-! ### Words -/

section Words

variable {w rest : List Char}

theorem wordsFrom_inside (noBlank : ∀ c ∈ w, isBlank c = false) (apart : StartsApart rest) :
    wordsFrom true (w ++ rest) = words rest := by
  induction w with
  | nil =>
    cases apart with
    | nil => rfl
    | space s => rfl
  | cons c w ih =>
    rw [List.cons_append, wordsFrom, if_neg (by simp [noBlank c (.head _)]), if_pos rfl]
    exact ih fun d member => noBlank d (.tail _ member)

theorem takeWhile_word (noBlank : ∀ c ∈ w, isBlank c = false) (apart : StartsApart rest) :
    (w ++ rest).takeWhile (fun c => !isBlank c) = w := by
  rw [List.takeWhile_append_of_pos fun c member => by simp [noBlank c member]]
  cases apart with
  | nil => simp
  | space s => rw [List.takeWhile_cons_of_neg (by decide), List.append_nil]

/-- The first word of a text. -/
theorem words_append (word : IsWord w) (apart : StartsApart rest) :
    words (w ++ rest) = ⟨w, w ++ rest⟩ :: words rest := by
  have whole := takeWhile_word word.noBlank apart
  obtain ⟨c, s, rfl, noBlank⟩ := word.exists_cons
  rw [List.cons_append] at whole
  rw [words, List.cons_append, wordsFrom, if_neg (by simp [noBlank]), if_neg Bool.false_ne_true,
    whole, wordsFrom_inside (fun d member => word.noBlank d (.tail _ member)) apart]

/-- The first word of a text that does not start with a blank runs with it. -/
theorem words_cons {c : Char} (noBlank : isBlank c = false) (s : List Char) :
    ∃ w ts, words (c :: s) = ⟨c :: w, c :: s⟩ :: ts :=
  ⟨s.takeWhile fun d => !isBlank d, wordsFrom true s, by
    rw [words, wordsFrom, if_neg (by simp [noBlank]), if_neg Bool.false_ne_true,
      List.takeWhile_cons_of_pos (by simp [noBlank])]⟩

theorem words_space (s : List Char) : words (' ' :: s) = words s := rfl

/-- Words with a space before each. -/
def spaced (ws : List (List Char)) : List Char := ws.flatMap fun w => ' ' :: w

theorem spaced_cons (w : List Char) (ws : List (List Char)) :
    spaced (w :: ws) = ' ' :: (w ++ spaced ws) := rfl

theorem spaced_append (vs ws : List (List Char)) : spaced (vs ++ ws) = spaced vs ++ spaced ws :=
  List.flatMap_append

theorem startsApart_spaced (ws : List (List Char)) {rest : List Char} (apart : StartsApart rest) :
    StartsApart (spaced ws ++ rest) := by
  cases ws with
  | nil => exact apart
  | cons w ws => exact .space _

theorem intercalate_space (w : List Char) (ws : List (List Char)) :
    [' '].intercalate (w :: ws) = w ++ spaced ws := by
  induction ws generalizing w with
  | nil => simp [spaced]
  | cons v ws ih =>
    rw [List.intercalate_cons_cons, ih, spaced_cons, List.append_assoc, List.singleton_append]

/-- The words of a text, with what follows each of them. -/
theorem words_spaced {ws : List (List Char)} (all : ∀ w ∈ ws, IsWord w) {rest : List Char}
    (apart : StartsApart rest) :
    ∃ ts, words (spaced ws ++ rest) = ts ++ words rest ∧ ts.map Word.chars = ws := by
  induction ws with
  | nil => exact ⟨[], rfl, rfl⟩
  | cons w ws ih =>
    obtain ⟨ts, split, chars⟩ := ih fun v member => all v (.tail _ member)
    refine ⟨⟨w, w ++ (spaced ws ++ rest)⟩ :: ts, ?_, by simp [chars]⟩
    rw [spaced_cons, List.cons_append, words_space, List.append_assoc,
      words_append (all w (.head _)) (startsApart_spaced ws apart)]
    exact congrArg _ split

theorem chars_words_spaced {ws : List (List Char)} (all : ∀ w ∈ ws, IsWord w) :
    (words (spaced ws)).map Word.chars = ws := by
  obtain ⟨ts, split, chars⟩ := words_spaced all StartsApart.nil
  rw [List.append_nil, show words [] = [] from rfl, List.append_nil] at split
  rw [split, chars]

/-- A line of words ends in the last character of a word. -/
theorem getLast?_spaced (word : IsWord w) {ws : List (List Char)} (all : ∀ v ∈ ws, IsWord v) :
    ∀ c ∈ (w ++ spaced ws).getLast?, isBlank c = false := by
  intro c last
  rcases List.eq_nil_or_concat ws with rfl | ⟨front, v, rfl⟩
  · rw [show spaced [] = [] from rfl, List.append_nil] at last
    exact word.noBlank c (List.mem_of_mem_getLast? last)
  · have wordLast := all v (by simp)
    obtain ⟨d, s, rfl, -⟩ := wordLast.exists_cons
    have ends : w ++ spaced (front ++ [d :: s]) = (w ++ spaced front ++ [' ']) ++ (d :: s) := by
      simp [spaced_append, spaced_cons, show spaced [] = [] from rfl]
    rw [List.concat_eq_append, ends, List.getLast?_append, List.getLast?_cons,
      Option.some_or] at last
    exact wordLast.noBlank c (List.mem_of_mem_getLast? (by rwa [List.getLast?_cons]))

/-- The words of a text are what stands between its blanks, where that is not empty. -/
theorem chars_words (s : List Char) :
    (words s).map Word.chars = (s.splitOnP isBlank).filter (· ≠ []) := by
  -- in the middle of a word, the rest of the word is passed over
  suffices scanned : ∃ rest, s.splitOnP isBlank = s.takeWhile (fun c => !isBlank c) :: rest ∧
      (wordsFrom true s).map Word.chars = rest.filter (· ≠ []) ∧
      (words s).map Word.chars = (s.takeWhile (fun c => !isBlank c) :: rest).filter (· ≠ []) by
    obtain ⟨rest, split, -, chars⟩ := scanned
    rw [split, chars]
  induction s with
  | nil => exact ⟨[], List.splitOnP_nil, rfl, rfl⟩
  | cons c s ih =>
    obtain ⟨rest, split, inside, outside⟩ := ih
    cases blank : isBlank c with
    | true =>
      refine ⟨s.takeWhile (fun c => !isBlank c) :: rest, ?_, ?_, ?_⟩
      · rw [List.splitOnP_cons_eq_if_modifyHead, if_pos blank, split,
          List.takeWhile_cons_of_neg (by simp [blank])]
      · rw [wordsFrom, if_pos blank, ← words, outside]
      · rw [words, wordsFrom, if_pos blank, ← words, outside,
          List.takeWhile_cons_of_neg (by simp [blank])]
        rfl
    | false =>
      have notBlank : ¬isBlank c = true := by simp [blank]
      have whole : (c :: s).takeWhile (fun d => !isBlank d) =
          c :: s.takeWhile (fun d => !isBlank d) :=
        List.takeWhile_cons_of_pos (by simp [blank])
      refine ⟨rest, ?_, ?_, ?_⟩
      · rw [List.splitOnP_cons_eq_if_modifyHead, if_neg notBlank, split, whole,
          List.modifyHead_cons]
      · rw [wordsFrom, if_neg notBlank, if_pos rfl, inside]
      · rw [words, wordsFrom, if_neg notBlank, if_neg Bool.false_ne_true, List.map_cons,
          inside, whole]
        rfl

end Words

/-! ### Lines -/

/-- A line does not hold characters that end lines. -/
def IsLine (l : List Char) : Prop := ∀ c ∈ l, c ≠ '\n' ∧ c ≠ '\r'

instance (l : List Char) : Decidable (IsLine l) :=
  decidable_of_iff ((l.all fun c => c != '\n' && c != '\r') = true) (by simp [IsLine])

theorem IsWord.isLine {w : List Char} (word : IsWord w) : IsLine w := by
  intro c member
  have noBlank := word.noBlank c member
  constructor <;> rintro rfl <;> exact absurd noBlank (by decide)

theorem IsLine.append {l m : List Char} (left : IsLine l) (right : IsLine m) : IsLine (l ++ m) :=
  fun c member => (List.mem_append.1 member).elim (left c) (right c)

theorem IsLine.cons {c : Char} {l : List Char} (line : IsLine l) (notFeed : c ≠ '\n')
    (notReturn : c ≠ '\r') : IsLine (c :: l) := by
  intro d member
  rcases List.mem_cons.1 member with rfl | inside
  · exact ⟨notFeed, notReturn⟩
  · exact line d inside

theorem isLine_spaced {ws : List (List Char)} (all : ∀ w ∈ ws, IsWord w) : IsLine (spaced ws) := by
  intro c member
  obtain ⟨w, isWord, inside⟩ := List.mem_flatMap.1 member
  exact (all w isWord).isLine.cons (by decide) (by decide) c inside

/-- What stands in front of a text on the same line goes to its first line. -/
theorem lines_append_of_cons {l m rest : List Char} {ls : List (List Char)} (line : IsLine l)
    (first : lines rest = m :: ls) : lines (l ++ rest) = (l ++ m) :: ls := by
  induction l with
  | nil => exact first
  | cons c l ih =>
    have tail := ih fun d member => line d (.tail _ member)
    obtain ⟨notFeed, notReturn⟩ := line c (.head _)
    rw [List.cons_append, lines]
    · rw [tail, List.cons_append]
    · exact notFeed
    · rintro s rfl
      exact absurd rfl notReturn

theorem lines_append {l : List Char} (line : IsLine l) (rest : List Char) :
    lines (l ++ '\n' :: rest) = l :: lines rest := by
  rw [lines_append_of_cons line (show lines ('\n' :: rest) = [] :: lines rest from rfl),
    List.append_nil]

theorem lines_append_return {l : List Char} (line : IsLine l) (rest : List Char) :
    lines (l ++ '\r' :: '\n' :: rest) = l :: lines rest := by
  rw [lines_append_of_cons line (show lines ('\r' :: '\n' :: rest) = [] :: lines rest from rfl),
    List.append_nil]

/-! ### Trimming -/

theorem trimStart_of_head {s : List Char} (head : ∀ c ∈ s.head?, isBlank c = false) :
    trimStart s = s := by
  cases s with
  | nil => rfl
  | cons c s => rw [trimStart, List.dropWhile_cons_of_neg (by simp [head c rfl])]

theorem trimEnd_of_last {s : List Char} (last : ∀ c ∈ s.getLast?, isBlank c = false) :
    trimEnd s = s := by
  have reversed := trimStart_of_head (s := s.reverse) (by rwa [List.head?_reverse])
  rw [trimEnd, ← trimStart, reversed, List.reverse_reverse]

/-- The blanks around a text are dropped. -/
theorem trim_indented {s : List Char} (head : ∀ c ∈ s.head?, isBlank c = false)
    (last : ∀ c ∈ s.getLast?, isBlank c = false) (n : Nat) :
    trim (List.replicate n ' ' ++ s) = s := by
  have start : trimStart (List.replicate n ' ' ++ s) = s := by
    rw [trimStart, List.dropWhile_append_of_pos fun c member => by
      rw [(List.mem_replicate.1 member).2]
      rfl]
    exact trimStart_of_head head
  rw [trim, start, trimEnd_of_last last]

theorem IsWord.trim {w : List Char} (word : IsWord w) : trim w = w :=
  trim_indented (fun c head => word.noBlank c (List.mem_of_mem_head? head))
    (fun c last => word.noBlank c (List.mem_of_mem_getLast? last)) 0

/-- Blanks at the start of a text are not part of its words. -/
theorem words_trimStart_append (s t : List Char) : words (trimStart s ++ t) = words (s ++ t) := by
  induction s with
  | nil => rfl
  | cons c s ih =>
    cases blank : isBlank c with
    | true =>
      rw [trimStart, List.dropWhile_cons_of_pos blank, ← trimStart, ih, List.cons_append, words,
        words, wordsFrom, if_pos blank]
    | false => rw [trimStart, List.dropWhile_cons_of_neg (by simp [blank])]

end JvmPatch.Text
