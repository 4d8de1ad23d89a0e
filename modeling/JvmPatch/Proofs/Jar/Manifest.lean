import JvmPatch.Jar.Manifest
import JvmPatch.Proofs.Text.Lines

/-! Manifests with folded lines. However the value of an attribute is folded and however the lines
end, it is read as it was before. All sections are read as one, so that the last `Class-Path` of a
manifest counts, be it in the main section or in a later one. -/

set_option autoImplicit false

namespace JvmPatch

namespace Manifest

open Text (IsLine LaidOut)

/-! ### Attributes as manifests write them -/

/-- An attribute of a manifest. The first piece of its value stands behind the name, and each
further piece on a line of its own, behind a space. -/
structure FoldedAttribute where
  name : List Char
  /-- The blanks between the colon and the value. -/
  gap : List Char := [' ']
  first : List Char
  more : List (List Char) := []
  name_isLine : IsLine name := by decide
  name_noColon : ':' ∉ name := by decide
  name_noSpace : name.head? ≠ some ' ' := by decide
  gap_isLine : IsLine gap := by decide
  gap_isBlank : gap.all Text.isBlank = true := by decide
  first_isLine : IsLine first := by decide
  more_isLine : ∀ p ∈ more, IsLine p := by decide

namespace FoldedAttribute

variable (a : FoldedAttribute)

/-- The unfolded value. -/
def value : List Char := a.first ++ a.more.flatten

def lines : List (List Char) := (a.name ++ ':' :: (a.gap ++ a.first)) :: a.more.map (' ' :: ·)

/-- Whether the attribute gives the class path. Blanks around the name do not matter. -/
def IsClassPath : Prop := Text.trim a.name = "Class-Path".toList

instance : DecidablePred IsClassPath :=
  fun a => inferInstanceAs (Decidable (Text.trim a.name = "Class-Path".toList))

/-- What is read of an attribute. -/
def kept : Attribute := ⟨Text.trim a.name, Text.trimStart (a.gap ++ a.first) ++ a.more.flatten⟩

theorem isLine_lines : ∀ l ∈ a.lines, IsLine l := by
  intro l member
  rcases List.mem_cons.1 member with rfl | further
  · exact a.name_isLine.append ((a.gap_isLine.append a.first_isLine).cons (by decide) (by decide))
  · obtain ⟨p, piece, rfl⟩ := List.mem_map.1 further
    exact (a.more_isLine p piece).cons (by decide) (by decide)

theorem words_kept : Text.words a.kept.value = Text.words a.value := by
  rw [kept, value, Text.trimStart_append (List.all_eq_true.1 a.gap_isBlank),
    Text.words_trimStart_append]

end FoldedAttribute

/-- A section of a manifest after the main one. At least one empty line is in front of it. -/
structure LaterSection where
  furtherEmptyLines : Nat
  attributes : List FoldedAttribute

/-- The lines of a section and of what is in front of it. -/
def LaterSection.lines (s : LaterSection) : List (List Char) :=
  List.replicate (s.furtherEmptyLines + 1) [] ++ s.attributes.flatMap FoldedAttribute.lines

/-- The lines of a manifest with the attributes of its main section and with later sections. -/
def sectionLines (main : List FoldedAttribute) (later : List LaterSection) : List (List Char) :=
  main.flatMap FoldedAttribute.lines ++ later.flatMap LaterSection.lines

/-! ### Reading the lines -/

/-- The first line does not go on with what is before it. -/
def StartsApart (ls : List (List Char)) : Prop := ∀ l ∈ ls.head?, l.head? ≠ some ' '

theorem attributesFrom_line (started : Option Attribute) {l : List Char}
    (apart : l.head? ≠ some ' ') (ls : List (List Char)) :
    attributesFrom started (l :: ls) = started.toList ++
      attributesFrom (Attribute.ofLine? l) ls := by
  rw [attributesFrom]
  rintro more rfl
  exact apart rfl

/-- What has been started ends where a line does not go on with it. -/
theorem attributesFrom_of_startsApart (started : Option Attribute) {ls : List (List Char)}
    (apart : StartsApart ls) :
    attributesFrom started ls = started.toList ++ attributesFrom none ls := by
  cases ls with
  | nil => rw [attributesFrom, attributesFrom, Option.toList_none, List.append_nil]
  | cons l ls =>
    have first := apart l rfl
    rw [attributesFrom_line started first, attributesFrom_line none first, Option.toList_none,
      List.nil_append]

theorem attributesFrom_emptyLines (n : Nat) (ls : List (List Char)) :
    attributesFrom none (List.replicate n [] ++ ls) = attributesFrom none ls := by
  induction n with
  | zero => rfl
  | succ n ih =>
    have noAttribute : Attribute.ofLine? [] = none := rfl
    rw [List.replicate_succ, List.cons_append, attributesFrom_line none (by simp), noAttribute, ih,
      Option.toList_none, List.nil_append]

theorem ofLine?_append {name : List Char} (noColon : ':' ∉ name) (value : List Char) :
    Attribute.ofLine? (name ++ ':' :: value) = some ⟨Text.trim name, Text.trimStart value⟩ := by
  have different : ∀ c ∈ name, (c != ':') = true := by
    intro c member
    rw [bne_iff_ne]
    rintro rfl
    exact noColon member
  rw [Attribute.ofLine?, if_pos (by simp), List.takeWhile_append_of_pos different,
    List.dropWhile_append_of_pos different, List.takeWhile_cons_of_neg (by simp),
    List.dropWhile_cons_of_neg (by simp), List.append_nil, List.drop_one, List.tail_cons]

/-- The pieces of a value are joined as they are. -/
theorem attributesFrom_pieces (a : Attribute) (pieces : List (List Char)) (ls : List (List Char)) :
    attributesFrom (some a) (pieces.map (' ' :: ·) ++ ls) =
      attributesFrom (some ⟨a.key, a.value ++ pieces.flatten⟩) ls := by
  induction pieces generalizing a with
  | nil => rw [List.map_nil, List.nil_append, List.flatten_nil, List.append_nil]
  | cons p pieces ih =>
    rw [List.map_cons, List.cons_append, attributesFrom, Option.map_some, ih, List.flatten_cons,
      List.append_assoc]

namespace FoldedAttribute

variable {a : FoldedAttribute} {as : List FoldedAttribute} {ls : List (List Char)}

theorem startsApart_lines (a : FoldedAttribute) (ls : List (List Char)) :
    StartsApart (a.lines ++ ls) := by
  intro l first
  obtain rfl : a.name ++ ':' :: (a.gap ++ a.first) = l := Option.some.inj first
  have starts := a.name_noSpace
  cases name : a.name with
  | nil => simp
  | cons c rest => rwa [name] at starts

theorem attributesFrom_lines (apart : StartsApart ls) :
    attributesFrom none (a.lines ++ ls) = a.kept :: attributesFrom none ls := by
  have first := a.startsApart_lines ls _ rfl
  rw [lines, List.cons_append, attributesFrom_line none first, ofLine?_append a.name_noColon,
    attributesFrom_pieces, attributesFrom_of_startsApart _ apart]
  rfl

theorem startsApart_flatMap_lines (as : List FoldedAttribute) (apart : StartsApart ls) :
    StartsApart (as.flatMap lines ++ ls) := by
  cases as with
  | nil => exact apart
  | cons a as =>
    rw [List.flatMap_cons, List.append_assoc]
    exact a.startsApart_lines _

theorem attributesFrom_flatMap_lines (as : List FoldedAttribute) (apart : StartsApart ls) :
    attributesFrom none (as.flatMap lines ++ ls) = as.map kept ++ attributesFrom none ls := by
  induction as with
  | nil => rfl
  | cons a as ih =>
    rw [List.flatMap_cons, List.append_assoc,
      attributesFrom_lines (startsApart_flatMap_lines as apart), ih, List.map_cons,
      List.cons_append]

end FoldedAttribute

section Sections

variable (main : List FoldedAttribute) (later : List LaterSection)

theorem startsApart_sections : StartsApart (later.flatMap LaterSection.lines) := by
  cases later with
  | nil => exact fun _ => nofun
  | cons s later =>
    intro l first
    rw [List.flatMap_cons, LaterSection.lines, List.replicate_succ, List.cons_append,
      List.cons_append, List.head?_cons] at first
    obtain rfl : [] = l := Option.some.inj first
    simp

/-- The attributes of later sections are read like those of the main section. -/
theorem attributesFrom_sections :
    attributesFrom none (later.flatMap LaterSection.lines) =
      (later.flatMap LaterSection.attributes).map FoldedAttribute.kept := by
  induction later with
  | nil => rfl
  | cons s later ih =>
    rw [List.flatMap_cons, LaterSection.lines, List.append_assoc, attributesFrom_emptyLines,
      FoldedAttribute.attributesFrom_flatMap_lines _ (startsApart_sections later), ih,
      List.flatMap_cons, List.map_append]

theorem isLine_sectionLines : ∀ l ∈ sectionLines main later, IsLine l := by
  intro l member
  rcases List.mem_append.1 member with inMain | inLater
  · obtain ⟨a, -, inside⟩ := List.mem_flatMap.1 inMain
    exact a.isLine_lines l inside
  · obtain ⟨s, -, inside⟩ := List.mem_flatMap.1 inLater
    rcases List.mem_append.1 inside with empty | inAttributes
    · rw [(List.mem_replicate.1 empty).2]
      exact fun _ => nofun
    · obtain ⟨a, -, inside⟩ := List.mem_flatMap.1 inAttributes
      exact a.isLine_lines l inside

variable {main later} {content : List Char}

theorem dropReturns_of_isLine {l : List Char} (line : IsLine l) :
    (l.reverse.dropWhile (· == '\r')).reverse = l := by
  suffices kept : l.reverse.dropWhile (· == '\r') = l.reverse by rw [kept, List.reverse_reverse]
  cases ends : l.reverse with
  | nil => rfl
  | cons c rest =>
    have notReturn := (line c (List.mem_reverse.1 (ends ▸ .head _))).2
    rw [List.dropWhile_cons_of_neg (by simpa using notReturn)]

/-- A manifest is read as the attributes of all its sections. -/
theorem attributes_laidOut (laid : LaidOut (sectionLines main later) content) :
    attributes content =
      (main ++ later.flatMap LaterSection.attributes).map FoldedAttribute.kept := by
  have all := isLine_sectionLines main later
  have same : lines content = sectionLines main later := by
    rw [lines, laid.lines_eq all]
    exact (List.map_congr_left fun l member => dropReturns_of_isLine (all l member)).trans
      (List.map_id _)
  rw [attributes, same, sectionLines,
    FoldedAttribute.attributesFrom_flatMap_lines _ (startsApart_sections later),
    attributesFrom_sections, List.map_append]

end Sections

/-! ### The class path -/

/-- The entries of a class path: what stands between white space, seen from the directory of the
archive. -/
def entries (jar : Path) (value : List Char) : List Path :=
  ((value.splitOnP Text.isBlank).filter (· ≠ [])).map fun w =>
    (jar.parent?.getD ⟨""⟩).join ⟨String.ofList w⟩

section ClassPath

variable {main : List FoldedAttribute} {later : List LaterSection} {content : List Char}

/-- The last `Class-Path` of all sections counts. -/
theorem paths_of_last (laid : LaidOut (sectionLines main later) content)
    (front back : List FoldedAttribute) {a : FoldedAttribute}
    (whole : main ++ later.flatMap LaterSection.attributes = front ++ a :: back)
    (isClassPath : a.IsClassPath) (last : ∀ b ∈ back, ¬b.IsClassPath) (jar : Path) :
    paths jar content = entries jar a.value := by
  have none : (back.map FoldedAttribute.kept).reverse.find?
      (fun b => b.key == "Class-Path".toList) = none := by
    refine List.find?_eq_none.2 fun b member => ?_
    obtain ⟨c, listed, rfl⟩ := List.mem_map.1 (List.mem_reverse.1 member)
    exact fun same => last c listed (beq_iff_eq.1 same)
  have isKey : (a.kept.key == "Class-Path".toList) = true := beq_iff_eq.2 isClassPath
  have found : classPath? content = some a.kept.value := by
    rw [classPath?, attributes_laidOut laid, whole, List.map_append, List.map_cons,
      List.reverse_append, List.reverse_cons, List.append_assoc, List.find?_append, none,
      List.singleton_append, List.find?_cons, isKey, Option.none_or, Option.map_some]
  rw [paths, found, Option.getD_some, a.words_kept, entries, ← Text.chars_words, List.map_map]
  rfl

/-- The class path of a manifest with a `Class-Path` in its main section, where the value may be
folded in any way, other attributes may stand before and after it, and lines may end in both ways.
It is the list of the entries of the unfolded value, unless later sections have a `Class-Path`
again: then the last one of these counts instead. -/
theorem paths_folded (jar : Path) {before after : List FoldedAttribute} {a : FoldedAttribute}
    (isClassPath : a.IsClassPath) (others : ∀ b ∈ after, ¬b.IsClassPath)
    (laid : LaidOut (sectionLines (before ++ a :: after) later) content) :
    ((∀ s ∈ later, ∀ b ∈ s.attributes, ¬b.IsClassPath) → paths jar content = entries jar a.value) ∧
      ∀ front b back, later.flatMap LaterSection.attributes = front ++ b :: back → b.IsClassPath →
        (∀ c ∈ back, ¬c.IsClassPath) → paths jar content = entries jar b.value := by
  constructor
  · intro none
    refine paths_of_last laid before (after ++ later.flatMap LaterSection.attributes) ?_ isClassPath
      (fun b member => ?_) jar
    · rw [List.append_assoc, List.cons_append]
    · rcases List.mem_append.1 member with inMain | inLater
      · exact others b inMain
      · obtain ⟨s, section_, inside⟩ := List.mem_flatMap.1 inLater
        exact none s section_ b inside
  · intro front b back split again last
    refine paths_of_last laid (before ++ a :: after ++ front) back ?_ again last jar
    rw [split, List.append_assoc, List.append_assoc, List.append_assoc]

/-- A class path that is folded within an entry and has an empty piece, with line ends of both
kinds. -/
theorem paths_folded_withinEntry :
    let before : List FoldedAttribute := [{ name := "A".toList, gap := [], first := "x".toList }]
    let a : FoldedAttribute :=
      { name := "Class-Path".toList, first := "a.jar b".toList, more := [[], ".jar /c.jar".toList] }
    let after : List FoldedAttribute :=
      [{ name := "B".toList, first := "y".toList, more := ["z".toList] }]
    let later : List LaterSection := [⟨0, [{ name := "Name".toList, first := "p/".toList }]⟩]
    let content := "A:x\r\nClass-Path: a.jar b\n \r\n .jar /c.jar\nB: y\n z\r\n\nName: p/".toList
    a.IsClassPath ∧ (∀ b ∈ after, ¬b.IsClassPath) ∧
      LaidOut (sectionLines (before ++ a :: after) later) content ∧
      paths ⟨"opt/app.jar"⟩ content = [⟨"opt/a.jar"⟩, ⟨"opt/b.jar"⟩, ⟨"/c.jar"⟩] := by
  intro before a after later content
  have isClassPath : a.IsClassPath := by decide
  have others : ∀ b ∈ after, ¬b.IsClassPath := by decide
  have laid : LaidOut (sectionLines (before ++ a :: after) later) content :=
    .returnFeed _ (.feed
      _ (.returnFeed _ (.feed _ (.feed _ (.returnFeed _ (.feed [] (.last (by decide))))))))
  have none : ∀ s ∈ later, ∀ b ∈ s.attributes, ¬b.IsClassPath := by decide
  refine ⟨isClassPath, others, laid, ?_⟩
  rw [(paths_folded ⟨"opt/app.jar"⟩ isClassPath others laid).1 none]
  decide +kernel

/-- The `Class-Path` of a later section takes the place of the one in the main section. -/
theorem paths_laterSection :
    let a : FoldedAttribute := { name := "Class-Path".toList, first := "a.jar".toList }
    let later : List LaterSection :=
      [⟨0, [{ name := "Name".toList, first := "p/".toList },
        { name := "Class-Path".toList, first := "b.jar".toList }]⟩]
    let content := "Class-Path: a.jar\n\nName: p/\nClass-Path: b.jar\n".toList
    a.IsClassPath ∧ LaidOut (sectionLines [a] later) content ∧
      paths ⟨"app.jar"⟩ content = [⟨"b.jar"⟩] ∧
      paths ⟨"app.jar"⟩ content ≠ entries ⟨"app.jar"⟩ a.value := by
  intro a later content
  have laid : LaidOut (sectionLines [a] later) content :=
    .feed _ (.feed [] (.feed _ (.feed _ .nil)))
  exact ⟨by decide, laid, by decide +kernel, by decide +kernel⟩

end ClassPath

end Manifest

end JvmPatch
