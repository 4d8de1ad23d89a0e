import JvmPatch.Proofs.Run.Destinations

/-! Places of files, and of what is named as seen from the directory of a file. A path that leads to
a file ends with the name of the file, and what is joined to the path without that name is found in
the directory of the file. -/

set_option autoImplicit false

namespace JvmPatch

/-! ### Texts from pieces -/

theorem slash_not_mem_of_mem_splitAtSlashes {s piece : List Char}
    (member : piece ∈ splitAtSlashes s) :
    '/' ∉ piece := by
  induction s generalizing piece with
  | nil =>
    rw [splitAtSlashes, List.mem_singleton] at member
    simp [member]
  | cons c s ih =>
    rw [splitAtSlashes] at member
    split at member
    · rcases List.mem_cons.1 member with rfl | rest
      · simp
      · exact ih rest
    · rename_i other
      cases pieces : splitAtSlashes s with
      | nil => exact absurd pieces (splitAtSlashes_ne_nil s)
      | cons p ps =>
        rw [pieces] at member
        rcases List.mem_cons.1 member with rfl | rest
        · have free := ih (pieces ▸ List.mem_cons_self)
          rw [List.mem_cons, not_or]
          exact ⟨Ne.symm other, free⟩
        · exact ih (pieces ▸ .tail _ rest)

theorem splitAtSlashes_of_not_mem {s : List Char} (free : '/' ∉ s) : splitAtSlashes s = [s] := by
  induction s with
  | nil => rfl
  | cons c s ih =>
    rw [List.mem_cons, not_or] at free
    rw [splitAtSlashes, if_neg (Ne.symm free.1), ih free.2]

/-- Pieces are found again in the text that they make up. -/
theorem splitAtSlashes_intercalate {pieces : List (List Char)} (some : pieces ≠ [])
    (free : ∀ piece ∈ pieces, '/' ∉ piece) :
    splitAtSlashes (List.intercalate ['/'] pieces) = pieces := by
  induction pieces with
  | nil => exact absurd rfl some
  | cons first rest ih =>
    have one := splitAtSlashes_of_not_mem (free first List.mem_cons_self)
    cases rest with
    | nil => simpa [List.intercalate] using one
    | cons second rest =>
      have more := ih (List.cons_ne_nil second rest) fun piece member => free piece (.tail _ member)
      have text : List.intercalate ['/'] (first :: second :: rest) =
          first ++ '/' :: List.intercalate ['/'] (second :: rest) := by
        simp [List.intercalate]
      rw [text, splitAtSlashes_append, one, more]
      rfl

/-- A text is made up of its pieces. -/
theorem intercalate_splitAtSlashes (s : List Char) :
    List.intercalate ['/'] (splitAtSlashes s) = s := by
  induction s with
  | nil => rfl
  | cons c s ih =>
    rw [splitAtSlashes]
    cases pieces : splitAtSlashes s with
    | nil => exact absurd pieces (splitAtSlashes_ne_nil s)
    | cons p ps =>
      rw [pieces] at ih
      split
      · rename_i slash
        rw [slash, ← ih]
        simp [List.intercalate]
      · rw [← ih]
        cases ps <;> simp [List.intercalate]

namespace Path

theorem pieces_ne_nil (p : Path) : p.pieces ≠ [] := splitAtSlashes_ne_nil _

theorem pieces_injective : Function.Injective pieces := by
  intro p q same
  have texts : p.text.toList = q.text.toList := by
    rw [← intercalate_splitAtSlashes p.text.toList, ← intercalate_splitAtSlashes q.text.toList]
    exact congrArg (List.intercalate ['/']) same
  cases p
  cases q
  exact congrArg Path.mk (String.toList_inj.1 texts)

/-- An absolute path has an empty first piece and others. -/
theorem isAbsolute_iff {p : Path} : p.isAbsolute = true ↔ ∃ rest, rest ≠ [] ∧
    p.pieces = [] :: rest := by
  unfold isAbsolute pieces
  cases p.text.toList with
  | nil => simp [splitAtSlashes]
  | cons c s =>
    rw [splitAtSlashes, List.head?_cons, beq_iff_eq, Option.some.injEq]
    by_cases slash : c = '/'
    · simp only [slash, if_true, true_iff]
      exact ⟨_, splitAtSlashes_ne_nil s, rfl⟩
    · simp only [slash, if_false, false_iff]
      split <;> simp

end Path

def IsName (piece : List Char) : Prop := isIdlePiece piece = false ∧ piece ≠ ['.', '.']

theorem IsName.ne_nil {piece : List Char} (named : IsName piece) : piece ≠ [] := by
  rintro rfl
  exact Bool.noConfusion named.1

/-! ### Names of files -/

namespace Path

variable {p : Path} {before : List (List Char)} {last : List Char}

theorem text_ne_empty (whole : p.pieces = before ++ [last])
    (named : IsName last) : p.text ≠ "" := by
  intro empty
  rw [pieces, empty] at whole
  have only : before ++ [last] = [] ++ [[]] := whole.symm
  exact named.ne_nil (List.append_inj_right' only rfl |> List.singleton_inj.1)

/-- The last piece is the name of the file, if it is a name. -/
theorem fileName?_of_pieces (whole : p.pieces = before ++ [last]) (named : IsName last) :
    p.fileName? = some last := by
  have busy : (!isIdlePiece last && last != ['.', '.']) = true := by
    rw [named.1, Bool.not_false, Bool.true_and]
    exact bne_iff_ne.2 named.2
  have isLast : p.components.getLast? = some last := by
    rw [components, if_neg (text_ne_empty whole named), whole]
    cases before with
    | nil => rfl
    | cons first rest =>
      rw [List.cons_append]
      dsimp only
      rw [List.filter_append, List.filter_cons_of_pos (by rw [named.1]; rfl), ← List.cons_append]
      exact List.getLast?_append_of_ne_nil _ (by simp)
  rw [fileName?, isLast, Option.filter_some, if_pos busy]

/-- Whether a path names an archive depends on the name of the file only. -/
theorem isJar_of_pieces (whole : p.pieces = before ++ [last]) (named : IsName last)
    (free : '/' ∉ last) :
    p.isJar = (Path.mk (String.ofList last)).isJar := by
  have alone : (Path.mk (String.ofList last)).pieces = [] ++ [last] := by
    rw [pieces, String.toList_ofList]
    exact splitAtSlashes_of_not_mem free
  rw [isJar, isJar, extension?, extension?, fileName?_of_pieces whole named,
    fileName?_of_pieces alone named]

end Path

/-! ### What is named beside a file -/

theorem exists_trimIdle (pieces : List (List Char)) :
    ∃ idle, pieces = trimIdle pieces ++ idle ∧ ∀ piece ∈ idle, isIdlePiece piece = true := by
  have split := List.takeWhile_append_dropWhile (p := isIdlePiece) (l := pieces.reverse)
  refine ⟨(pieces.reverse.takeWhile isIdlePiece).reverse, ?_, fun piece member => ?_⟩
  · rw [trimIdle, ← List.reverse_append, split, List.reverse_reverse]
  · exact List.mem_takeWhile_imp (List.mem_reverse.1 member)

theorem trimIdle_concat {pieces : List (List Char)} {last : List Char}
    (named : isIdlePiece last = false) :
    trimIdle (pieces ++ [last]) = pieces ++ [last] := by
  rw [trimIdle, List.reverse_append, List.reverse_singleton, List.singleton_append,
    List.dropWhile_cons_of_neg (by simp [named])]
  simp

theorem not_idle_of_getLast?_trimIdle {pieces : List (List Char)} {last : List Char}
    (ends : (trimIdle pieces).getLast? = some last) : isIdlePiece last = false := by
  rw [trimIdle, List.getLast?_reverse] at ends
  have head := List.head?_dropWhile_not isIdlePiece pieces.reverse
  rw [ends] at head
  simpa using head

/-- What is left in a path of the pieces before its last one when that one is dropped. -/
def keptPieces : List (List Char) → List (List Char)
  | [] => []
  | first :: rest => first :: trimIdle rest

namespace Path

variable {p word : Path} {before : List (List Char)} {last : List Char}

/-- A path as seen from the directory of another one. -/
def beside (p word : Path) : Path := (p.parent?.getD ⟨""⟩).join word

theorem beside_of_isAbsolute (absolute : word.isAbsolute = true) : p.beside word = word := by
  rw [beside, join, if_pos (by rw [absolute, Bool.true_or])]

theorem pieces_join {base word : Path} {pieces : List (List Char)}
    (relative : word.isAbsolute = false) (whole : base.pieces = pieces)
    (ends : pieces.getLast? ≠ some []) :
    (base.join word).pieces = pieces ++ word.pieces := by
  obtain ⟨s⟩ := base
  have open_ : ¬s.toList.getLast? = some '/' := by
    intro slashed
    obtain ⟨before, chars⟩ := List.getLast?_eq_some_iff.1 slashed
    refine ends ?_
    rw [← whole, Path.pieces, chars, splitAtSlashes_append]
    simp [splitAtSlashes]
  have some : s ≠ "" := by
    rintro rfl
    exact ends (whole ▸ rfl)
  rw [join, if_neg (by simp [relative, some]), if_neg open_, Path.pieces, String.toList_append,
    String.toList_append, List.append_assoc, ← whole]
  exact splitAtSlashes_append s.toList word.text.toList

/-- The pieces of the name of the file make room for those of the path that is joined. -/
theorem pieces_beside (whole : p.pieces = before ++ [last]) (named : IsName last)
    (relative : word.isAbsolute = false) :
    (p.beside word).pieces = keptPieces before ++ word.pieces := by
  cases before with
  | nil =>
    have parent : p.parent? = some ⟨""⟩ := by
      rw [parent?, whole]
      exact if_neg named.ne_nil
    rw [beside, parent, Option.getD_some, join, if_pos (by simp)]
    rfl
  | cons first rest =>
    have parent : p.parent? = some (ofPieces (first :: trimIdle rest)) := by
      rw [parent?, whole, List.cons_append]
      dsimp only
      rw [trimIdle_concat named.1]
      cases split : rest ++ [last] with
      | nil => simp at split
      | cons second others => simp only [← split, List.dropLast_concat]
    rw [beside, parent, Option.getD_some, keptPieces]
    by_cases root : first :: trimIdle rest = [[]]
    · -- the directory is the root, whose text ends with a slash already
      rw [root, ofPieces, join, if_neg (by simp [relative]), if_pos (by decide), pieces,
        String.toList_append]
      exact splitAtSlashes_append [] word.text.toList
    · obtain ⟨idle, apart, -⟩ := exists_trimIdle rest
      have free : ∀ piece ∈ first :: trimIdle rest, '/' ∉ piece := fun piece member => by
        refine slash_not_mem_of_mem_splitAtSlashes (s := p.text.toList) ?_
        change piece ∈ p.pieces
        rw [whole, apart]
        rcases List.mem_cons.1 member with rfl | kept
        · exact List.mem_cons_self
        · exact List.mem_append_left _ (.tail _ (List.mem_append_left _ kept))
      have text : ofPieces (first :: trimIdle rest) =
          ⟨String.ofList (List.intercalate ['/'] (first :: trimIdle rest))⟩ := by
        unfold ofPieces
        split
        · rename_i same
          exact absurd same root
        · rfl
      refine pieces_join relative ?_ ?_
      · rw [text, pieces, String.toList_ofList]
        exact splitAtSlashes_intercalate (List.cons_ne_nil _ _) free
      · intro ends
        cases kept : trimIdle rest with
        | nil =>
          rw [kept] at ends root
          exact root (by simpa using ends)
        | cons second others =>
          rw [kept, List.getLast?_cons_cons, ← kept] at ends
          exact Bool.noConfusion (not_idle_of_getLast?_trimIdle ends)

/-- Where a path starts is not changed by what comes behind its directory. -/
theorem isAbsolute_beside (whole : p.pieces = before ++ [last]) (named : IsName last)
    (relative : word.isAbsolute = false) : (p.beside word).isAbsolute = p.isAbsolute := by
  have joined := pieces_beside whole named relative
  rw [Bool.eq_iff_iff, isAbsolute_iff, isAbsolute_iff, joined, whole]
  cases before with
  | nil =>
    rw [← Bool.not_eq_true, isAbsolute_iff] at relative
    exact iff_of_false relative fun ⟨rest, _, same⟩ => named.ne_nil (List.cons.inj same).1
  | cons first rest =>
    constructor
    · rintro ⟨_, -, same⟩
      obtain rfl : first = [] := (List.cons.inj same).1
      exact ⟨rest ++ [last], by simp, rfl⟩
    · rintro ⟨_, -, same⟩
      obtain rfl : first = [] := (List.cons.inj same).1
      exact ⟨trimIdle rest ++ word.pieces, by simp [pieces_ne_nil], rfl⟩

end Path

namespace FileTree

variable {t : FileTree} {p word : Path} {place next : Location} {before : List (List Char)}
  {last : List Char}

theorem advance_of_isName {piece : List Char} (named : IsName piece) (place : Location) :
    advance place piece = place ++ [String.ofList piece] := by
  rw [advance, if_neg (by simp [named.1]), if_neg named.2]

/-- Where a path leads that is seen from a directory, whatever is there. -/
def resolve (dir : Location) (word : Path) : Location :=
  word.pieces.foldl advance (if word.isAbsolute then [] else dir)

theorem foldl_advance_keptPieces (before : List (List Char)) (place : Location) :
    (keptPieces before).foldl advance place = before.foldl advance place := by
  cases before with
  | nil => rfl
  | cons first rest =>
    obtain ⟨idle, apart, each⟩ := exists_trimIdle rest
    rw [keptPieces, List.foldl_cons, List.foldl_cons]
    conv_rhs => rw [apart]
    rw [List.foldl_append, foldl_advance_idle each]

/-- What is named beside a file is found from the directory of the file. -/
theorem destination_beside (whole : p.pieces = before ++ [last]) (named : IsName last) :
    destination (p.beside word) = resolve (before.foldl advance (start p)) word := by
  by_cases absolute : word.isAbsolute = true
  · rw [Path.beside_of_isAbsolute absolute, destination, start, resolve]
    simp only [absolute, if_true]
  · rw [Bool.not_eq_true] at absolute
    rw [destination, Path.pieces_beside whole named absolute, List.foldl_append, start,
      Path.isAbsolute_beside whole named absolute, foldl_advance_keptPieces, resolve, absolute]
    rfl

theorem locate_ok (located : t.locate p = .ok place) : place = destination p := by
  obtain ⟨_, -, walked⟩ := bind_eq_ok located
  exact foldlM_step_ok walked

/-- Directories stand at all places above a place. -/
def Grounded (t : FileTree) (place : Location) : Prop :=
  ∀ dir, dir <+: place → dir ≠ place → t.hasDirectory dir = true

theorem grounded_nil (t : FileTree) : t.Grounded [] :=
  fun _ above other => absurd (List.prefix_nil.1 above) other

theorem grounded_concat (grounded : t.Grounded place) (directory : t.hasDirectory place = true)
    (name : String) :
    t.Grounded (place ++ [name]) := by
  intro dir above other
  rcases List.prefix_concat_iff.1 above with same | above
  · exact absurd same other
  · by_cases here : dir = place
    · exact here ▸ directory
    · exact grounded dir above here

theorem grounded_dropLast (grounded : t.Grounded place) : t.Grounded place.dropLast := by
  intro dir above other
  refine grounded dir (above.trans (List.dropLast_prefix place)) ?_
  rintro rfl
  exact other (above.eq_of_length_le (by simp [List.length_dropLast]))

theorem hasDirectory_dropLast (grounded : t.Grounded place)
    (directory : t.hasDirectory place = true) :
    t.hasDirectory place.dropLast = true := by
  by_cases same : place.dropLast = place
  · rwa [same]
  · exact grounded _ (List.dropLast_prefix place) same

theorem hasDirectory_of_step {piece : List Char} (stepped : t.step place piece = .ok next) :
    t.hasDirectory place = true := by
  unfold step at stepped
  split at stepped
  · cases stepped
  · rename_i directory
    simpa using directory

theorem grounded_step {piece : List Char} (grounded : t.Grounded place)
    (stepped : t.step place piece = .ok next) :
    t.Grounded next := by
  have directory := hasDirectory_of_step stepped
  rw [step_ok stepped, advance]
  split
  · exact grounded
  split
  · exact grounded_dropLast grounded
  · exact grounded_concat grounded directory _

theorem grounded_foldlM {pieces : List (List Char)} (grounded : t.Grounded place)
    (walked : pieces.foldlM t.step place = .ok next) : t.Grounded next := by
  induction pieces generalizing place with
  | nil =>
    cases walked
    exact grounded
  | cons piece pieces ih =>
    rw [List.foldlM_cons] at walked
    obtain ⟨between, first, rest⟩ := bind_eq_ok walked
    exact ih (grounded_step grounded first) rest

theorem grounded_start (t : FileTree) (p : Path) : t.Grounded (start p) := by
  unfold start
  split
  · exact grounded_nil t
  · exact grounded_concat (grounded_nil t) rfl "home"

/-- A path that leads to a file ends with the name of the file. -/
theorem locate_file (located : t.locate p = .ok place) (file : t.hasDirectory place = false) :
    ∃ before last, p.pieces = before ++ [last] ∧ IsName last ∧
      place = before.foldl advance (start p) ++ [String.ofList last] := by
  obtain ⟨_, -, walked⟩ := bind_eq_ok located
  obtain ⟨before, last, whole⟩ := (List.eq_nil_or_concat p.pieces).resolve_left p.pieces_ne_nil
  rw [List.concat_eq_append] at whole
  rw [whole, List.foldlM_append] at walked
  obtain ⟨dir, upTo, stepped⟩ := bind_eq_ok walked
  rw [List.foldlM_cons] at stepped
  obtain ⟨_, stepped, done⟩ := bind_eq_ok stepped
  cases done
  have grounded := grounded_foldlM (grounded_start t p) upTo
  have directory := hasDirectory_of_step stepped
  have here := step_ok stepped
  rw [advance] at here
  refine ⟨before, last, whole, ?_⟩
  split at here
  · rw [here, directory] at file
    cases file
  split at here
  · rw [here, hasDirectory_dropLast grounded directory] at file
    cases file
  · rename_i busy down
    exact ⟨⟨Bool.not_eq_true _ ▸ busy, down⟩, by rw [here, foldlM_step_ok upTo]⟩

end FileTree

/-! ### Paths with one spelling -/

namespace Path

variable {p q word : Path} {before : List (List Char)} {last : List Char}

/-- The pieces of a path behind the root, if it starts there. -/
def steps (p : Path) : List (List Char) := if p.isAbsolute then p.pieces.tail else p.pieces

/-- Every step of a path names something. -/
def Plain (p : Path) : Prop := ∀ piece ∈ p.steps, IsName piece

theorem pieces_eq (p : Path) : p.pieces = if p.isAbsolute then [] :: p.steps else p.steps := by
  unfold steps
  by_cases absolute : p.isAbsolute = true
  · obtain ⟨rest, -, whole⟩ := isAbsolute_iff.1 absolute
    rw [if_pos absolute, if_pos absolute, whole, List.tail_cons]
  · rw [if_neg absolute, if_neg absolute]

/-- What is named beside a plainly spelled file is plainly spelled. -/
theorem plain_beside (plain : p.Plain) (whole : p.pieces = before ++ [last]) (named : IsName last)
    (wordPlain : word.Plain) : (p.beside word).Plain := by
  by_cases absolute : word.isAbsolute = true
  · rwa [beside_of_isAbsolute absolute]
  rw [Bool.not_eq_true] at absolute
  have words : ∀ piece ∈ word.pieces, IsName piece := by
    rw [pieces_eq, absolute]
    exact wordPlain
  have kept (rest : List (List Char)) : ∀ piece ∈ trimIdle rest, piece ∈ rest :=
    fun piece member => by
    obtain ⟨idle, apart, -⟩ := exists_trimIdle rest
    rw [apart]
    exact List.mem_append_left _ member
  unfold Plain steps at plain ⊢
  rw [isAbsolute_beside whole named absolute, pieces_beside whole named absolute]
  rw [whole] at plain
  cases before with
  | nil =>
    intro piece member
    refine words piece ?_
    split at member
    · exact List.mem_of_mem_tail member
    · exact member
  | cons first rest =>
    split at plain
    · rename_i rooted
      rw [if_pos rooted]
      intro piece member
      rcases List.mem_append.1 member with old | new
      · exact plain piece (List.mem_append_left _ (kept rest piece old))
      · exact words piece new
    · rename_i relative
      rw [if_neg relative]
      intro piece member
      rcases List.mem_append.1 member with old | new
      · refine plain piece (List.mem_append_left _ ?_)
        rcases List.mem_cons.1 old with rfl | old
        · exact .head _
        · exact .tail _ (kept rest piece old)
      · exact words piece new

end Path

namespace FileTree

variable {p q : Path}

theorem foldl_advance_names {pieces : List (List Char)} (named : ∀ piece ∈ pieces, IsName piece)
    (place : Location) :
    pieces.foldl advance place = place ++ pieces.map String.ofList := by
  induction pieces generalizing place with
  | nil => simp
  | cons piece pieces ih =>
    rw [List.foldl_cons, advance_of_isName (named piece (.head _)),
      ih fun other member => named other (.tail _ member)]
    simp

theorem destination_of_plain (plain : p.Plain) :
    destination p = start p ++ p.steps.map String.ofList := by
  rw [destination, Path.pieces_eq]
  split
  · exact foldl_advance_names plain _
  · exact foldl_advance_names plain _

/-- Plainly spelled paths that both start at the root, or both do not, are the same if they lead to
the same place. -/
theorem eq_of_destination_eq (plain : p.Plain) (plain' : q.Plain)
    (starts : p.isAbsolute = q.isAbsolute) (same : destination p = destination q) : p = q := by
  rw [destination_of_plain plain, destination_of_plain plain', start, start, starts] at same
  have steps := List.map_injective_iff.2 (fun _ _ => String.ofList_inj.1)
    (List.append_cancel_left same)
  refine Path.pieces_injective ?_
  rw [p.pieces_eq, q.pieces_eq, starts, steps]

end FileTree

end JvmPatch
