import JvmPatch.Proofs.Run.Failure
import JvmPatch.Proofs.Steps
import JvmPatch.Proofs.Table
import Mathlib.Data.List.TakeWhile

/-! Where the files of a directory output go. Each one is put where the name of its class leads from
the output directory. The names are taken as they are, so this is below the directory unless a name
starts at the root or climbs out with pieces of two dots. -/

set_option autoImplicit false

namespace JvmPatch

/-! ### Where paths lead -/

theorem splitAtSlashes_ne_nil (s : List Char) : splitAtSlashes s ≠ [] := by
  cases s with
  | nil => simp [splitAtSlashes]
  | cons c s =>
    rw [splitAtSlashes]
    split
    · simp
    · split <;> simp

/-- A slash separates what stands before it from what stands behind it. -/
theorem splitAtSlashes_append (s t : List Char) :
    splitAtSlashes (s ++ '/' :: t) = splitAtSlashes s ++ splitAtSlashes t := by
  induction s with
  | nil => simp [splitAtSlashes]
  | cons c s ih =>
    rw [List.cons_append, splitAtSlashes, splitAtSlashes, ih]
    by_cases slash : c = '/'
    · rw [if_pos slash, if_pos slash, List.cons_append]
    · rw [if_neg slash, if_neg slash]
      cases pieces : splitAtSlashes s with
      | nil => exact absurd pieces (splitAtSlashes_ne_nil s)
      | cons p ps => rfl

/-- What has no slash in it continues the last piece. -/
theorem splitAtSlashes_append_of_not_mem (s : List Char) {t : List Char} (free : '/' ∉ t) :
    ∃ before last, splitAtSlashes (s ++ t) = before ++ [last ++ t] := by
  induction s with
  | nil =>
    refine ⟨[], [], ?_⟩
    induction t with
    | nil => rfl
    | cons c t ih =>
      rw [List.mem_cons, not_or] at free
      have rest := ih free.2
      rw [List.nil_append] at rest
      rw [List.nil_append, splitAtSlashes, if_neg (Ne.symm free.1), rest]
      rfl
  | cons c s ih =>
    obtain ⟨before, last, split⟩ := ih
    rw [List.cons_append, splitAtSlashes, split]
    by_cases slash : c = '/'
    · exact ⟨[] :: before, last, by rw [if_pos slash]; rfl⟩
    · rw [if_neg slash]
      cases before with
      | nil => exact ⟨[], c :: last, rfl⟩
      | cons p ps => exact ⟨(c :: p) :: ps, last, rfl⟩

namespace FileTree

/-- Where a piece of a path leads from a place, whatever is there. -/
def advance (place : Location) (piece : List Char) : Location :=
  if isIdlePiece piece then place
  else if piece = ['.', '.'] then place.dropLast
  else place ++ [String.ofList piece]

/-- Where a path leads, whatever is there. -/
def destination (p : Path) : Location := p.pieces.foldl advance (start p)

variable {t later : FileTree}

theorem step_ok {place next : Location} {piece : List Char}
    (stepped : t.step place piece = .ok next) :
    next = advance place piece := by
  unfold step at stepped
  unfold advance
  split at stepped
  · cases stepped
  split at stepped
  · rename_i idle
    cases stepped
    rw [if_pos idle]
  rename_i named
  rw [if_neg named]
  split at stepped
  · rename_i up
    cases stepped
    rw [if_pos up]
  rename_i down
  rw [if_neg down]
  dsimp only at stepped
  split at stepped
  · cases stepped
    rfl
  · split at stepped <;> cases stepped

theorem foldlM_step_ok {pieces : List (List Char)} {place next : Location}
    (stepped : pieces.foldlM t.step place = .ok next) : next = pieces.foldl advance place := by
  induction pieces generalizing place with
  | nil =>
    cases stepped
    rfl
  | cons piece pieces ih =>
    rw [List.foldlM_cons] at stepped
    obtain ⟨between, first, rest⟩ := bind_eq_ok stepped
    rw [List.foldl_cons, ← step_ok first]
    exact ih rest

theorem foldl_advance_idle {pieces : List (List Char)}
    (idle : ∀ piece ∈ pieces, isIdlePiece piece = true) (place : Location) :
    pieces.foldl advance place = place := by
  induction pieces with
  | nil => rfl
  | cons piece pieces ih =>
    rw [List.foldl_cons, advance, if_pos (idle piece List.mem_cons_self)]
    exact ih fun other member => idle other (.tail _ member)

theorem pathEnd_entry {p : Path} {place : Location} {slashed : Bool}
    (ends : t.pathEnd p = .ok (.entry place slashed)) :
    place = destination p := by
  unfold pathEnd at ends
  obtain ⟨_, -, ends⟩ := bind_eq_ok ends
  have split := List.takeWhile_append_dropWhile (p := List.isEmpty) (l := p.pieces.reverse)
  have idle : ∀ piece ∈ (p.pieces.reverse.takeWhile List.isEmpty).reverse,
      isIdlePiece piece = true := by
    intro piece member
    have empty := List.mem_takeWhile_imp (List.mem_reverse.1 member)
    rw [List.isEmpty_iff.1 empty]
    rfl
  generalize p.pieces.reverse.takeWhile List.isEmpty = slashes at ends split idle
  cases named : p.pieces.reverse.dropWhile List.isEmpty with
  | nil =>
    rw [named] at ends
    cases ends
  | cons last before =>
    have whole : p.pieces = before.reverse ++ [last] ++ slashes.reverse := by
      rw [named] at split
      rw [← List.reverse_reverse p.pieces, ← split]
      simp
    have full : last.isEmpty = false := by
      have head := List.head?_dropWhile_not List.isEmpty p.pieces.reverse
      rw [named] at head
      simpa using head
    rw [named] at ends
    dsimp only at ends
    obtain ⟨dir, stepped, ends⟩ := bind_eq_ok ends
    split at ends
    · obtain ⟨_, -, ends⟩ := bind_eq_ok ends
      cases ends
    rename_i plain
    split at ends
    · cases ends
    split at ends
    · cases ends
    cases ends
    rw [not_or] at plain
    have busy : isIdlePiece last = false := by
      rw [isIdlePiece]
      cases last with
      | nil => cases full
      | cons c rest => simpa using plain.1
    rw [destination, whole, List.foldl_append, List.foldl_append, foldl_advance_idle idle,
      ← foldlM_step_ok stepped, List.foldl_cons, List.foldl_nil, advance, if_neg (by simp [busy]),
      if_neg plain.2]

/-- The given files and archives are all that has come to a tree. -/
def Wrote (written : List (Location × FileNode)) (t later : FileTree) : Prop :=
  ∀ place node, node ≠ .directory → later.node? place = some node → t.node? place = some node ∨
    (place, node) ∈ written

variable {written : List (Location × FileNode)}

theorem Wrote.refl (written : List (Location × FileNode)) (t : FileTree) : Wrote written t t :=
  fun _ _ _ there => .inl there

theorem Wrote.trans {middle : FileTree} (first : Wrote written t middle)
    (second : Wrote written middle later) :
    Wrote written t later := by
  intro place node file there
  rcases second place node file there with between | new
  · exact first place node file between
  · exact .inr new

theorem node?_put (place : Location) (node : FileNode) (other : Location) :
    (t.put place node).node? other = if other ≠ [] ∧ other = place then some node
      else t.node? other := by
  unfold node? put
  by_cases root : other = []
  · rw [if_pos root, if_pos root, if_neg fun both => both.1 root]
  · rw [if_neg root, if_neg root, Table.get?_insert]
    by_cases same : other = place
    · rw [if_pos same, if_pos ⟨root, same⟩]
    · rw [if_neg same, if_neg fun both => same both.2]

theorem wrote_put {place : Location} {node : FileNode}
    (new : node = .directory ∨ (place, node) ∈ written) :
    Wrote written t (t.put place node) := by
  intro other found file there
  rw [node?_put] at there
  split at there
  · rename_i here
    cases there
    exact .inr (here.2 ▸ new.resolve_left file)
  · exact .inl there

/-- What is put at a path is put where the path leads. -/
theorem wrote_putFile {p : Path} {node : FileNode} (put : t.putFile p node = .ok later)
    (new : (destination p, node) ∈ written) : Wrote written t later := by
  obtain ⟨ends, led, put⟩ := bind_eq_ok put
  cases ends with
  | directory => cases put
  | entry place slashed =>
    dsimp only at put
    split at put
    · cases put
    · cases put
      exact wrote_put (.inr (pathEnd_entry led ▸ new))

theorem wrote_makeDirectory {p : Path} (made : t.makeDirectory p = .ok later) :
    Wrote written t later := by
  obtain ⟨ends, -, made⟩ := bind_eq_ok made
  cases ends with
  | directory => cases made
  | entry place slashed =>
    dsimp only at made
    split at made
    · cases made
    · cases made
      exact wrote_put (.inl rfl)

theorem wrote_makeDirectories (paths : List Path) (t : FileTree) :
    Wrote written t (t.makeDirectories paths).2 := by
  induction paths generalizing t with
  | nil => exact .refl _ _
  | cons p above ih =>
    rw [makeDirectories]
    split
    · exact .refl _ _
    split
    · rename_i made
      exact wrote_makeDirectory made
    · have climbed := ih t
      split
      · rename_i made
        rwa [made] at climbed
      · rename_i made
        rw [made] at climbed
        split
        · rename_i last
          exact climbed.trans (wrote_makeDirectory last)
        · exact climbed
    · exact .refl _ _

end FileTree

open FileTree in
/-- The given files and archives are all that is written. -/
def Contract.writing (written : List (Location × FileNode)) : Contract where
  succeeds w later := Wrote written w.tree later.tree
  fails w _ later := Wrote written w.tree later.tree
  refl w := .refl written w.tree
  trans := .trans
  failsAfter := .trans

namespace RunM

open FileTree

variable {α : Type} {written : List (Location × FileNode)}

theorem writes_file {x : StateM World (Except FileError α)} (f : FileError → RunError)
    (writes : ∀ w, Wrote written w.tree (x.run w).2.tree) : Keeps (.writing written) (file f x) :=
  have leads {w result later} (ran : x.run w = (result, later)) :
      Wrote written w.tree later.tree := by
    have wrote := writes w
    rwa [ran] at wrote
  .file (fun _ _ _ ran => leads ran) fun _ _ _ failed => leads failed

theorem writes_makeParent (p : Path) : Keeps (.writing written) (makeParent p) := by
  unfold makeParent
  split
  · exact .pure ()
  · split
    · exact .pure ()
    · exact writes_file _ fun w => wrote_makeDirectories _ w.tree

theorem writes_writeFile {p : Path} {content : Bytes} (f : FileError → RunError)
    (new : (destination p, .file content) ∈ written) : Keeps (.writing written)
      (file f (FileAccess.writeFile p content : StateM World (Except FileError Unit))) := by
  refine writes_file f fun w => ?_
  change Wrote written w.tree (World.update (fun t => t.putFile p (.file content)) w).2.tree
  rw [World.update]
  cases put : w.tree.putFile p (.file content) with
  | ok later => exact wrote_putFile put new
  | error e => exact .refl _ _

theorem writes_writeDirectory (output : Path) (files : List (String × Bytes)) :
    Keeps (.writing (files.map fun e => (destination (output.join ⟨e.1⟩), .file e.2)))
      (writeDirectory output files) :=
  .forM fun e member => (writes_makeParent _).bind fun _ =>
    writes_writeFile _ (List.mem_map.2 ⟨e, member, rfl⟩)

end RunM

/-! ### Below the output directory -/

/-- Whether pieces that are followed from a given depth never climb above where that depth is
counted from. -/
def descends : Nat → List (List Char) → Bool
  | _, [] => true
  | depth, piece :: pieces =>
    if isIdlePiece piece then descends depth pieces
    else if piece = ['.', '.'] then decide (0 < depth) && descends (depth - 1) pieces
    else descends (depth + 1) pieces

/-- A path that does not start at the root and never climbs above where it starts. -/
def Path.StaysBelow (p : Path) : Prop := p.isAbsolute = false ∧ descends 0 p.pieces = true

/-- A place is in the directory at another one, or in one below that. -/
def Under (dir place : Location) : Prop := ∃ first rest, place = dir ++ first :: rest

namespace FileTree

theorem start_append {s t : String} (named : s ≠ "") : start ⟨s ++ t⟩ = start ⟨s⟩ := by
  have some : ∃ c cs, s.toList = c :: cs := by
    cases chars : s.toList with
    | nil => exact absurd (String.toList_eq_nil_iff.1 chars) named
    | cons c cs => exact ⟨c, cs, rfl⟩
  obtain ⟨c, cs, chars⟩ := some
  simp [start, Path.isAbsolute, String.toList_append, chars]

/-- A relative path leads on from where the path leads to which it is joined. -/
theorem destination_join {base p : Path} (relative : p.isAbsolute = false) :
    destination (base.join p) = p.pieces.foldl advance (destination base) := by
  obtain ⟨s⟩ := base
  obtain ⟨u⟩ := p
  unfold Path.join
  by_cases empty : s = ""
  · subst empty
    rw [if_pos (by simp)]
    have home : start ⟨u⟩ = start ⟨""⟩ := by
      rw [start, relative]
      rfl
    rw [destination, home]
    rfl
  rw [if_neg (by simp [relative, empty])]
  split
  · rename_i slashed
    obtain ⟨before, chars⟩ := List.getLast?_eq_some_iff.1 slashed
    have pieces : (Path.mk (s ++ u)).pieces = splitAtSlashes before ++ (Path.mk u).pieces := by
      rw [Path.pieces, String.toList_append, chars, List.append_assoc]
      exact splitAtSlashes_append before u.toList
    have base : (Path.mk s).pieces = splitAtSlashes before ++ [[]] := by
      rw [Path.pieces, chars]
      exact splitAtSlashes_append before []
    rw [destination, destination, pieces, base, start_append empty, List.foldl_append,
      List.foldl_append]
    rfl
  · have pieces : (Path.mk (s ++ "/" ++ u)).pieces = (Path.mk s).pieces ++ (Path.mk u).pieces := by
      rw [Path.pieces, String.toList_append, String.toList_append, List.append_assoc]
      exact splitAtSlashes_append s.toList u.toList
    rw [destination, destination, pieces, String.append_assoc, start_append empty,
      List.foldl_append]

/-- Pieces that never climb too far lead below the directory, if the last one is a name. -/
theorem under_foldl {last : List Char} (named : isIdlePiece last = false)
    (plain : last ≠ ['.', '.']) (dir : Location) (before : List (List Char)) :
    ∀ extra : Location, descends extra.length (before ++ [last]) = true →
      Under dir ((before ++ [last]).foldl advance (dir ++ extra)) := by
  induction before with
  | nil =>
    intro extra _
    rw [List.nil_append, List.foldl_cons, List.foldl_nil, advance,
      if_neg (by simp [named]), if_neg plain]
    cases extra with
    | nil => exact ⟨String.ofList last, [], by simp⟩
    | cons first rest => exact ⟨first, rest ++ [String.ofList last], by simp⟩
  | cons piece before ih =>
    intro extra below
    rw [List.cons_append, List.foldl_cons, advance]
    rw [List.cons_append, descends] at below
    by_cases idle : isIdlePiece piece = true
    · rw [if_pos idle] at below ⊢
      exact ih extra below
    rw [if_neg idle] at below ⊢
    by_cases up : piece = ['.', '.']
    · rw [if_pos up, Bool.and_eq_true, decide_eq_true_eq] at below
      rw [if_pos up, List.dropLast_append_of_ne_nil (List.ne_nil_of_length_pos below.1)]
      exact ih extra.dropLast (by rw [List.length_dropLast]; exact below.2)
    · rw [if_neg up] at below ⊢
      rw [List.append_assoc]
      exact ih (extra ++ [String.ofList piece]) (by rw [List.length_append]; exact below)

/-- A class file goes below the output directory if its name does not lead out of it. -/
theorem under_destination (output : Path) {name : String}
    (stays : (Path.mk (classFileName name)).StaysBelow) :
    Under (destination output) (destination (output.join ⟨classFileName name⟩)) := by
  obtain ⟨before, last, pieces⟩ :=
    splitAtSlashes_append_of_not_mem name.toList (t := ".class".toList) (by decide)
  have isSplit : (Path.mk (classFileName name)).pieces = before ++ [last ++ ".class".toList] := by
    rw [Path.pieces, classFileName, String.toList_append, pieces]
  have long : 6 ≤ (last ++ ".class".toList).length := by
    rw [List.length_append]
    exact Nat.le_add_left _ _
  have plain (short : List Char) (few : short.length < 6) : last ++ ".class".toList ≠ short := by
    rintro rfl
    omega
  have named : isIdlePiece (last ++ ".class".toList) = false := by
    rw [isIdlePiece, Bool.or_eq_false_iff, beq_eq_false_iff_ne, beq_eq_false_iff_ne]
    exact ⟨plain [] (by decide), plain ['.'] (by decide)⟩
  rw [destination_join stays.1, isSplit]
  have below := under_foldl named (plain ['.', '.'] (by decide)) (destination output) before []
    (isSplit ▸ stays.2)
  rwa [List.append_nil] at below

end FileTree

namespace RunM

open FileTree

/-- Whatever becomes of a directory output, each file that is there afterwards and was not there
before is the file of a visible class, at the place to which the name of the class leads from the
output directory. That is below the directory if the name neither starts at the root nor climbs
out. -/
theorem writeOutput_destinations {set : ClassSet} {output : Path} {resources : Archive}
    {w later : World} {result : Except RunError Unit}
    (ran : outcome (writeOutput set output resources) w = (result, later))
    (directory : output.isJar = false) {place : Location} {node : FileNode}
    (file : node ≠ .directory) (now : later.tree.node? place = some node)
    (before : w.tree.node? place ≠ some node) :
    ∃ id ∈ set.candidates, (set.classAt id).isExternal = false ∧
      (∃ content, set.store id = .ok content ∧ node = .file content) ∧
      place = destination (output.join ⟨classFileName (set.classAt id).name⟩) ∧
      ((Path.mk (classFileName (set.classAt id).name)).StaysBelow →
        Under (destination output) place) := by
  unfold writeOutput at ran
  cases encoded : set.outputFiles with
  | error e =>
    rw [encoded] at ran
    cases ran
    exact absurd now before
  | ok files =>
    rw [encoded] at ran
    dsimp only at ran
    rw [if_neg (by simp [directory])] at ran
    have writes : Wrote (files.map fun e => (destination (output.join ⟨e.1⟩), .file e.2)) w.tree
        later.tree := by
      cases result with
      | ok _ => exact (writes_writeDirectory output files).ok ran
      | error e => exact (writes_writeDirectory output files).error ran
    have new := (writes place node file now).resolve_left before
    obtain ⟨⟨name, content⟩, member, isWritten⟩ := List.mem_map.1 new
    cases isWritten
    obtain ⟨id, listed, stored⟩ := exists_mem_of_mem_right (forall₂_of_mapM_ok encoded) member
    obtain ⟨candidate, provided⟩ := List.mem_filter.1 listed
    obtain ⟨content', encoded, named⟩ := bind_eq_ok stored
    cases named
    exact ⟨id, candidate, by simpa using provided, ⟨content, encoded, rfl⟩, rfl,
      under_destination output⟩

/-- A single file is written once the directory for it has been made. -/
theorem outcome_writeDirectory_one {output above : Path} {name : String}
    {content : Bytes} {w : World} {made later : FileTree}
    (parent : (output.join ⟨name⟩).parent? = some above) (named : above.text ≠ "")
    (makes : w.tree.makeDirectories (withAncestors above.pieces.length above) = (.ok (), made))
    (puts : made.putFile (output.join ⟨name⟩) (.file content) = .ok later) :
    outcome (writeDirectory output [(name, content)]) w = (.ok (), { w with tree := later }) := by
  have makesParent :
      outcome (makeParent (output.join ⟨name⟩)) w = (.ok (), { w with tree := made }) := by
    rw [makeParent, parent]
    dsimp only
    rw [if_neg named, outcome_file]
    change (Except.mapError _ (w.tree.makeDirectories _).1,
      { w with tree := (w.tree.makeDirectories _).2 }) = _
    rw [makes]
    rfl
  have writes : outcome (file (.write (output.join ⟨name⟩))
      (FileAccess.writeFile (output.join ⟨name⟩) content : StateM World (Except FileError Unit)))
        { w with tree := made } =
        (.ok (), { w with tree := later }) := by
    rw [outcome_file]
    change
      (Except.mapError _
          (World.update (fun t => t.putFile _ (.file content)) { w with tree := made }).1,
        (World.update (fun t => t.putFile _ (.file content)) { w with tree := made }).2) = _
    rw [World.update]
    dsimp only
    rw [puts]
    rfl
  change outcome ((do
    makeParent (output.join ⟨name⟩)
    file (.write (output.join ⟨name⟩)) (FileAccess.writeFile (output.join ⟨name⟩) content)) >>=
      fun _ => pure ()) w = _
  rw [outcome_bind, outcome_bind_of_ok makesParent, writes]
  rfl

/-- The bytes of a class file without supertypes and members, for a class with a name of few
bytes. -/
def bareClass (name : Bytes) : Bytes :=
  [0xca, 0xfe, 0xba, 0xbe, 0, 0, 0, 0x32, 0, 3, 1, 0, name.length.toUInt8] ++ name ++
    [7, 0, 1, 0, 0x21, 0, 2, 0, 0, 0, 0, 0, 0, 0, 0, 0, 0]

/-- The class file of `../x`. -/
def climbing : Bytes := bareClass [0x2e, 0x2e, 0x2f, 0x78]

/-- The class set of a class without supertypes and members that has been read. -/
def bareSet (name : String) (bytes : Bytes) : ClassSet :=
  { classes := #[{ ClassEntry.fresh name none 33 with modified := false, source := some bytes }] }

/-- A class file, and what is put beside it. -/
def besideClass (bytes : Bytes) (made : List (Location × FileNode)) : World :=
  { tree := ⟨⟨[(["home"], .directory), (["home", "A.class"], .file bytes)] ++ made⟩⟩ }

/-- Writes the class of the file into a directory. -/
def rewrites : Options := { inputs := [⟨"A.class"⟩], output := some ⟨"out"⟩ }

theorem outcome_writeOutput_below :
    outcome (writeOutput (bareSet "x" [0]) ⟨"out"⟩ []) (besideClass [0] []) =
    (.ok (), besideClass [0] [(["home", "out"], .directory),
      (["home", "out", "x.class"], .file [0])]) := by
  have files : (bareSet "x" [0]).outputFiles = .ok [("x.class", [0])] := by
    with_unfolding_all decide
  rw [writeOutput, files]
  dsimp only
  rw [if_neg (by decide)]
  have makes : (besideClass [0] []).tree.makeDirectories
      (withAncestors (Path.pieces ⟨"out"⟩).length ⟨"out"⟩) =
      (.ok (), (besideClass [0] [(["home", "out"], .directory)]).tree) := by decide
  exact outcome_writeDirectory_one (by decide) (by decide) makes (by decide)

theorem writeOutput_destinations_below :
    outcome (writeOutput (bareSet "x" [0]) ⟨"out"⟩ []) (besideClass [0] []) =
        (.ok (), besideClass [0] [(["home", "out"], .directory),
          (["home", "out", "x.class"], .file [0])]) ∧
      (Path.mk "out").isJar = false ∧ ∃ id ∈ (bareSet "x" [0]).candidates,
        ((bareSet "x" [0]).classAt id).isExternal = false ∧
        (∃ content, (bareSet "x" [0]).store id = .ok content ∧ FileNode.file [0] = .file content) ∧
        ["home", "out", "x.class"] =
          destination (Path.join ⟨"out"⟩ ⟨classFileName ((bareSet "x" [0]).classAt id).name⟩) ∧
        ((Path.mk (classFileName ((bareSet "x" [0]).classAt id).name)).StaysBelow →
          Under (destination ⟨"out"⟩) ["home", "out", "x.class"]) :=
  ⟨outcome_writeOutput_below, by
    decide, writeOutput_destinations outcome_writeOutput_below (by decide) (by decide)
    (by decide) (by decide)⟩

theorem outcome_readInputs_climbing :
    outcome (readInputs rewrites.inputs) (besideClass climbing []) =
    (.ok { classes := [⟨"A.class", climbing, ⟨⟨"../x", none, [], 33, 50, 0, none⟩, [], []⟩⟩] },
      besideClass climbing []) := by
  have sorted : Path.sorted rewrites.inputs = [⟨"A.class"⟩] := by with_unfolding_all decide
  have directory : (besideClass climbing []).tree.isDirectory ⟨"A.class"⟩ = false := by
    decide
  have content : (besideClass climbing []).tree.readFile ⟨"A.class"⟩ = .ok climbing := by
    decide
  have isClass : (Path.mk "A.class").isClassFile = true := by decide
  have parsed : ClassFile.read climbing = .ok ⟨⟨"../x", none, [], 33, 50, 0, none⟩, [], []⟩ := by
    decide
  have read : outcome (file (.readFile ⟨"A.class"⟩)
      (FileAccess.readFile ⟨"A.class"⟩ : StateM World (Except FileError Bytes)))
        (besideClass climbing []) =
        (.ok climbing, besideClass climbing []) := by
    rw [outcome_file]
    change (Except.mapError _ ((besideClass climbing []).tree.readFile ⟨"A.class"⟩), _) = _
    rw [content]
    rfl
  have asked : outcome (isDirectory ⟨"A.class"⟩) (besideClass climbing []) =
      (.ok false, besideClass climbing []) :=
    directory ▸ rfl
  have one : outcome (readInput ⟨"A.class"⟩) (besideClass climbing []) = (.ok { classes :=
      [⟨"A.class", climbing, ⟨⟨"../x", none, [], 33, 50, 0, none⟩, [], []⟩⟩] },
        besideClass climbing []) := by
    rw [readInput, outcome_bind_of_ok asked, if_neg Bool.false_ne_true, if_pos isClass,
      readClassFile, outcome_bind_of_ok read, parseClass, parsed]
    rfl
  rw [readInputs, sorted, List.mapM_cons, List.mapM_nil, bind_assoc, outcome_bind_of_ok one]
  rfl

theorem outcome_load_climbing : outcome (load rewrites) (besideClass climbing []) =
    (.ok (bareSet "../x" climbing, []), besideClass climbing []) := by
  have present : outcome (([] : List Path).filterM isPresent) (besideClass climbing []) =
    (.ok [], besideClass climbing []) := rfl
  rw [load, outcome_bind_of_ok outcome_readInputs_climbing]
  dsimp only [rewrites]
  rw [outcome_bind_of_ok present, List.append_nil, outcome_bind_of_ok (outcome_readClasspath_nil _)]
  with_unfolding_all decide

theorem outcome_writeOutput_climbing :
    outcome (writeOutput (bareSet "../x" climbing) ⟨"out"⟩ []) (besideClass climbing []) =
    (.ok (), besideClass climbing [(["home", "out"], .directory),
      (["home", "x.class"], .file climbing)]) := by
  have files : (bareSet "../x" climbing).outputFiles = .ok [("../x.class", climbing)] := by
    with_unfolding_all decide
  rw [writeOutput, files]
  dsimp only
  rw [if_neg (by decide)]
  have makes : (besideClass climbing []).tree.makeDirectories
      (withAncestors (Path.pieces ⟨"out/.."⟩).length ⟨"out/.."⟩) =
      (.ok (), (besideClass climbing [(["home", "out"], .directory)]).tree) := by decide
  exact outcome_writeDirectory_one (by decide) (by decide) makes (by decide)

/-- A run writes the class `../x` beside the output directory. -/
theorem writeOutput_destinations_beside : ∃ (o : Options) (output : Path) (w later : World),
    o.output = some output ∧ output.isJar = false ∧ outcome o.run w = (.ok (), later) ∧
      ∃ place content, later.tree.node? place = some (.file content) ∧ w.tree.node? place = none ∧
        ¬Under (destination output) place := by
  have present : outcome (requirePresent .missingInput rewrites.inputs) (besideClass climbing []) =
      (.ok (), besideClass climbing []) := by
    have here : (besideClass climbing []).tree.isPresent ⟨"A.class"⟩ = true := by decide
    have asked : outcome (isPresent ⟨"A.class"⟩) (besideClass climbing []) =
        (.ok true, besideClass climbing []) :=
      here ▸ rfl
    change outcome ((isPresent ⟨"A.class"⟩ >>= _) >>= fun _ => pure ()) _ = _
    rw [bind_assoc, outcome_bind_of_ok asked]
    rfl
  have classpath : outcome (requirePresent .missingClasspathEntry rewrites.classpath)
    (besideClass climbing []) =
    (.ok (), besideClass climbing []) := rfl
  have scripts : outcome (rewrites.patches.mapM readScript) (besideClass climbing []) =
    (.ok [], besideClass climbing []) := rfl
  have ready : outcome (prepare (bareSet "../x" climbing)) (besideClass climbing []) =
    (.ok (bareSet "../x" climbing), besideClass climbing []) := by with_unfolding_all decide
  have applied : outcome (applyScripts rewrites.search (bareSet "../x" climbing) [])
    (besideClass climbing []) =
    (.ok (bareSet "../x" climbing, []), besideClass climbing []) := rfl
  have runs : outcome rewrites.run (besideClass climbing []) =
      (.ok (), besideClass climbing [(["home", "out"], .directory),
        (["home", "x.class"], .file climbing)]) := by
    rw [Options.run, outcome_bind_of_ok present, outcome_bind_of_ok classpath,
      outcome_bind_of_ok scripts, outcome_bind_of_ok outcome_load_climbing]
    dsimp only
    rw [outcome_bind_of_ok ready, outcome_bind_of_ok applied]
    dsimp only [rewrites]
    rw [outcome_bind_of_ok outcome_writeOutput_climbing]
    rfl
  refine ⟨rewrites, ⟨"out"⟩, _, _, rfl, by
    decide, runs, ["home", "x.class"], climbing, by decide,
    by decide, ?_⟩
  have dir : destination ⟨"out"⟩ = ["home", "out"] := by decide
  rw [dir]
  rintro ⟨first, rest, same⟩
  simp at same

end RunM

end JvmPatch
