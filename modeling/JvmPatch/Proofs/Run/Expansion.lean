import JvmPatch.Proofs.Run.Places
import Mathlib.Data.Finset.Dedup
import Mathlib.Data.List.Nodup
import Mathlib.Data.Nat.Digits.Defs
import Mathlib.Order.Interval.Finset.Nat

/-! How a classpath grows by what the manifests of its archives refer to. Entries are told apart by
the texts of their paths. Level by level, exactly the paths are added that the entries lead to, and
there are not enough paths that can be used for the bound on the levels to be reached. -/

set_option autoImplicit false

namespace JvmPatch

/-! ### How many paths can be used -/

namespace Path

/-- A number for a path: its bytes are the digits, and a one in front of them keeps paths of
different lengths apart. -/
def code (p : Path) : Nat :=
  Nat.ofDigits 256 (p.text.toByteArray.data.toList.map UInt8.toNat ++ [1])

theorem digits_code (p : Path) :
    Nat.digits 256 p.code = p.text.toByteArray.data.toList.map UInt8.toNat ++ [1] := by
  refine Nat.digits_ofDigits 256 (by decide) _ (fun d member => ?_) fun _ => by simp
  rcases List.mem_append.1 member with byte | one
  · obtain ⟨b, -, rfl⟩ := List.mem_map.1 byte
    exact b.toNat_lt
  · rw [List.mem_singleton.1 one]
    decide

theorem code_injective : Function.Injective code := by
  intro p q same
  have digits := p.digits_code.symm.trans ((congrArg (Nat.digits 256) same).trans q.digits_code)
  have bytes := List.map_injective_iff.2 (fun _ _ => UInt8.toNat_inj.1)
    (List.append_cancel_right digits)
  have texts : p.text = q.text :=
    String.toByteArray_inj.1 (ByteArray.ext (Array.toList_inj.1 bytes))
  cases p
  cases q
  exact congrArg Path.mk texts

theorem code_pos (p : Path) : 0 < p.code := by
  refine Nat.pos_of_ne_zero fun zero => ?_
  have digits := p.digits_code
  rw [zero, Nat.digits_zero] at digits
  simp at digits

theorem code_lt {p : Path} {size : Nat} (short : p.text.utf8ByteSize ≤ size) :
    p.code < 256 ^ (size + 1) := by
  have below : p.code < 256 ^ (p.text.toByteArray.data.toList.map UInt8.toNat ++ [1]).length := by
    refine Nat.ofDigits_lt_base_pow_length (by decide) fun d member => ?_
    rcases List.mem_append.1 member with byte | one
    · obtain ⟨b, -, rfl⟩ := List.mem_map.1 byte
      exact b.toNat_lt
    · rw [List.mem_singleton.1 one]
      decide
  refine below.trans_le (Nat.pow_le_pow_right (by decide) ?_)
  rw [List.length_append, List.length_map, Array.length_toList]
  exact Nat.succ_le_succ short

/-- Only so many paths are short enough. -/
theorem length_lt_of_short {paths : List Path} (distinct : paths.Nodup) {size : Nat}
    (short : ∀ p ∈ paths, p.text.utf8ByteSize ≤ size) : paths.length < Nat.pow 256 (size + 1) := by
  have codes : (paths.map code).toFinset ⊆ Finset.Ico 1 (256 ^ (size + 1)) := by
    intro n member
    obtain ⟨p, listed, rfl⟩ := List.mem_map.1 (List.mem_toFinset.1 member)
    exact Finset.mem_Ico.2 ⟨p.code_pos, code_lt (short p listed)⟩
  have few := Finset.card_le_card codes
  rw [List.toFinset_card_of_nodup (distinct.map code_injective), List.length_map,
    Nat.card_Ico] at few
  have some : 0 < 256 ^ (size + 1) := Nat.pow_pos (by decide)
  exact Nat.lt_of_le_of_lt few (Nat.sub_lt some Nat.one_pos)

end Path

theorem FileTree.isPresent_short {t : FileTree} {p : Path} (present : t.isPresent p = true) :
    p.text.utf8ByteSize ≤ maxPathBytes := by
  by_contra long
  have refused : t.locate p = checkPath p >>= fun _ => p.pieces.foldlM t.step (start p) := rfl
  rw [isPresent, refused, checkPath] at present
  split at present
  · cases present
  split at present
  · cases present
  rw [if_pos (Nat.lt_of_not_le long)] at present
  cases present

namespace RunM

/-! ### What entries lead to -/

/-- What following an entry gives: what its manifest refers to, or why the entry cannot be used. -/
def follow (w : World) (p : Path) : Except RunError (List Path) :=
  if w.tree.isPresent p then (outcome (references p) w).1 else .error (.missingClasspathEntry p)

def Cites (w : World) (p q : Path) : Prop := ∃ refs, follow w p = .ok refs ∧ q ∈ refs

/-- Entries lead to a path, in any number of steps. -/
def Reached (w : World) (entries : List Path) (q : Path) : Prop :=
  ∃ p ∈ entries, Relation.ReflTransGen (Cites w) p q

variable {w : World} {entries known queue new next : List Path} {p : Path}

theorem Reached.entry (member : p ∈ entries) : Reached w entries p := ⟨p, member, .refl⟩

theorem Reached.cited {q : Path} (reached : Reached w entries p) (cites : Cites w p q) :
    Reached w entries q := by
  obtain ⟨e, member, leads⟩ := reached
  exact ⟨e, member, leads.tail cites⟩

theorem isPresent_of_follow {refs : List Path} (followed : follow w p = .ok refs) :
    w.tree.isPresent p = true := by
  unfold follow at followed
  split at followed
  · assumption
  · cases followed

/-! ### One level -/

/-- A level: those of its paths that are new are added, and what they refer to comes next. -/
structure Level (w : World) (known queue new next : List Path) : Prop where
  distinct : (known ++ new).Nodup
  covers : queue ⊆ known ++ new
  queued : new ⊆ queue
  followed : ∀ p ∈ new, ∃ refs, follow w p = .ok refs ∧ refs ⊆ next
  cited : ∀ q ∈ next, ∃ p ∈ new, Cites w p q

theorem Level.nil (distinct : known.Nodup) : Level w known [] [] [] :=
  ⟨by rwa [List.append_nil], by simp, by simp, by simp, by simp⟩

theorem Level.skip (level : Level w known queue new next) (old : p ∈ known) :
    Level w known (p :: queue) new next where
  distinct := level.distinct
  covers := List.cons_subset.2 ⟨List.mem_append_left _ old, level.covers⟩
  queued := fun _ member => .tail _ (level.queued member)
  followed := level.followed
  cited := level.cited

theorem Level.take {refs : List Path} (level : Level w (known ++ [p]) queue new next)
    (followed : follow w p = .ok refs) : Level w known (p :: queue) (p :: new) (refs ++ next) := by
  have whole : known ++ [p] ++ new = known ++ p :: new := by simp
  refine ⟨whole ▸ level.distinct, List.cons_subset.2 ⟨by simp, whole ▸ level.covers⟩,
    List.cons_subset_cons p level.queued, fun q member => ?_, fun q member => ?_⟩
  · rcases List.mem_cons.1 member with rfl | later
    · exact ⟨refs, followed, List.subset_append_left _ _⟩
    · obtain ⟨others, found, inside⟩ := level.followed q later
      exact ⟨others, found, fun r given => List.mem_append_right _ (inside given)⟩
  · rcases List.mem_append.1 member with first | later
    · exact ⟨p, .head _, refs, followed, first⟩
    · obtain ⟨other, added, cites⟩ := level.cited q later
      exact ⟨other, .tail _ added, cites⟩

theorem outcome_isPresent (w : World) (p : Path) :
    outcome (isPresent p) w = (.ok (w.tree.isPresent p), w) := rfl

/-- A path that is new is followed before the rest of the level. -/
theorem outcome_expandLevel_cons (unknown : known.contains p = false) :
    outcome (expandLevel known (p :: queue)) w =
    match follow w p with
    | .error e => (.error e, w)
    | .ok refs => match outcome (expandLevel (known ++ [p]) queue) w with
      | (.ok (known, next), later) => (.ok (known, refs ++ next), later)
      | (.error e, later) => (.error e, later) := by
  rw [expandLevel, unknown, if_neg Bool.false_ne_true,
    outcome_bind_of_ok (outcome_isPresent w p), follow]
  cases w.tree.isPresent p with
  | false => rfl
  | true =>
    simp only [if_true]
    have same := (reads_references p).same w
    rw [outcome_bind]
    generalize outcome (references p) w = ran at same ⊢
    obtain ⟨result, between⟩ := ran
    obtain rfl : between = w := same
    cases result with
    | error e => rfl
    | ok refs =>
      dsimp only
      rw [outcome_bind]
      generalize outcome (expandLevel (known ++ [p]) queue) between = rest
      obtain ⟨result, later⟩ := rest
      cases result <;> rfl

/-- A level is gone through, or one of its paths cannot be used. -/
theorem outcome_expandLevel (distinct : known.Nodup) :
    (∃ new next, outcome (expandLevel known queue) w = (.ok (known ++ new, next), w) ∧
      Level w known queue new next) ∨
      ∃ e, ∃ p ∈ queue, follow w p = .error e ∧
        outcome (expandLevel known queue) w = (.error e, w) := by
  induction queue generalizing known with
  | nil => exact .inl ⟨[], [], by rw [List.append_nil]; rfl, .nil distinct⟩
  | cons p queue ih =>
    by_cases old : known.contains p = true
    · rw [expandLevel, if_pos old]
      rcases ih distinct with ⟨new, next, ran, level⟩ | ⟨e, q, member, failed, ran⟩
      · exact .inl ⟨new, next, ran, level.skip (List.contains_iff_mem.1 old)⟩
      · exact .inr ⟨e, q, .tail _ member, failed, ran⟩
    · rw [Bool.not_eq_true] at old
      rw [outcome_expandLevel_cons old]
      cases followed : follow w p with
      | error e => exact .inr ⟨e, p, .head _, followed, rfl⟩
      | ok refs =>
        have unknown : p ∉ known := fun member => by
          rw [List.contains_iff_mem.2 member] at old
          cases old
        rcases ih (List.concat_eq_append ▸ distinct.concat unknown) with
          ⟨new, next, ran, level⟩ | ⟨e, q, member, failed, ran⟩
        · refine .inl ⟨p :: new, refs ++ next, ?_, level.take followed⟩
          rw [ran]
          simp
        · refine .inr ⟨e, q, .tail _ member, failed, ?_⟩
          rw [ran]

/-! ### All levels -/

/-- A classpath that is growing: what is known has been followed, and what it refers to is known or
queued. -/
structure Expansion (w : World) (entries known queue : List Path) : Prop where
  distinct : known.Nodup
  covers : entries ⊆ known ++ queue
  reached : ∀ p ∈ known ++ queue, Reached w entries p
  followed : ∀ p ∈ known, ∃ refs, follow w p = .ok refs ∧ refs ⊆ known ++ queue

namespace Expansion

theorem step (expansion : Expansion w entries known queue) (level : Level w known queue new next) :
    Expansion w entries (known ++ new) next := by
  have covers : known ++ queue ⊆ known ++ new :=
    List.append_subset.2 ⟨List.subset_append_left _ _, level.covers⟩
  have reached : ∀ p ∈ known ++ new, Reached w entries p := fun p member =>
    expansion.reached p (List.append_subset.2
      ⟨List.subset_append_left _ _,
        fun _ added => List.mem_append_right _ (level.queued added)⟩ member)
  refine ⟨level.distinct, fun e member => List.mem_append_left _ (covers (expansion.covers member)),
    fun p member => ?_, fun p member => ?_⟩
  · rcases List.mem_append.1 member with here | later
    · exact reached p here
    · obtain ⟨q, added, cites⟩ := level.cited p later
      exact (reached q (List.mem_append_right _ added)).cited cites
  · rcases List.mem_append.1 member with old | added
    · obtain ⟨refs, found, inside⟩ := expansion.followed p old
      exact ⟨refs, found, fun r given => List.mem_append_left _ (covers (inside given))⟩
    · obtain ⟨refs, found, inside⟩ := level.followed p added
      exact ⟨refs, found, fun r given => List.mem_append_right _ (inside given)⟩

/-- When nothing is queued, everything is known that the entries lead to. -/
theorem mem_iff (expansion : Expansion w entries known []) : p ∈ known ↔ Reached w entries p := by
  refine ⟨fun member => expansion.reached p (List.mem_append_left _ member), ?_⟩
  rintro ⟨e, member, leads⟩
  induction leads with
  | refl => simpa using expansion.covers member
  | tail _ cites ih =>
    obtain ⟨refs, found, inside⟩ := expansion.followed _ ih
    obtain ⟨others, same, cited⟩ := cites
    cases found.symm.trans same
    simpa using inside cited

theorem length_lt (expansion : Expansion w entries known queue) : known.length < maxLevels := by
  unfold maxLevels
  refine Path.length_lt_of_short expansion.distinct fun p member => ?_
  obtain ⟨refs, found, -⟩ := expansion.followed p member
  exact FileTree.isPresent_short (isPresent_of_follow found)

end Expansion

/-- A level with which nothing becomes known is the last one. -/
theorem Level.last (level : Level w known queue [] next) : next = [] := by
  cases next with
  | nil => rfl
  | cons q rest =>
    obtain ⟨p, none, -⟩ := level.cited q (.head _)
    cases none

/-- With enough levels left, everything becomes known, or a path that the entries lead to cannot be
used. -/
theorem outcome_expandLevels {levels : Nat} (expansion : Expansion w entries known queue)
    (enough : queue = [] ∨ maxLevels ≤ levels + known.length) :
    (∃ all, outcome (expandLevels levels known queue) w = (.ok all, w) ∧
      Expansion w entries all []) ∨ ∃ e p, Reached w entries p ∧ follow w p = .error e ∧
        outcome (expandLevels levels known queue) w = (.error e, w) := by
  induction levels generalizing known queue with
  | zero =>
    have few := expansion.length_lt
    obtain rfl : queue = [] := enough.resolve_right (by omega)
    exact .inl ⟨known, rfl, expansion⟩
  | succ levels ih =>
    cases queue with
    | nil => exact .inl ⟨known, rfl, expansion⟩
    | cons p queue =>
      rw [expandLevels]
      rcases outcome_expandLevel expansion.distinct with
        ⟨new, next, ran, level⟩ | ⟨e, q, member, failed, ran⟩
      · rw [outcome_bind_of_ok ran]
        refine ih (expansion.step level) ?_
        cases new with
        | nil => exact .inl level.last
        | cons first rest =>
          have enough := enough.resolve_left (List.cons_ne_nil p queue)
          rw [List.length_append, List.length_cons]
          exact .inr (by omega)
      · refine .inr ⟨e, q, expansion.reached q (List.mem_append_right _ member), failed, ?_⟩
        rw [outcome_bind, ran]

/-- What the entries lead to becomes known, or something that they lead to cannot be used. -/
theorem outcome_expandClasspath (w : World) (entries : List Path) :
    (∃ known, outcome (expandClasspath entries) w = (.ok known, w) ∧ known.Nodup ∧
        (∀ p, p ∈ known ↔ Reached w entries p) ∧ ∀ p ∈ known, ∃ refs, follow w p = .ok refs) ∨
      ∃ e p, Reached w entries p ∧ follow w p = .error e ∧
        outcome (expandClasspath entries) w = (.error e, w) := by
  have same (p : Path) : p ∈ Path.sorted entries ↔ p ∈ entries := List.mem_mergeSort
  have start : Expansion w entries [] (Path.sorted entries) :=
    ⟨List.nodup_nil, fun e member => (same e).2 member,
      fun p member => .entry ((same p).1 member), by simp⟩
  have enough : Path.sorted entries = [] ∨ maxLevels ≤ maxLevels + ([] : List Path).length :=
    .inr (Nat.le_add_right _ _)
  rcases outcome_expandLevels start enough with
    ⟨known, ran, expansion⟩ | failed
  · refine .inl ⟨known, ran, expansion.distinct, fun p => expansion.mem_iff, fun p member => ?_⟩
    obtain ⟨refs, found, -⟩ := expansion.followed p member
    exact ⟨refs, found⟩
  · exact .inr failed

end RunM

/-! ### The files that entries lead to -/

def classPathWords (archive : Archive) : List Path :=
  match (archive.lookup manifestEntry).bind Text.decodeUtf8? with
  | none => []
  | some content =>
    (Text.words ((Manifest.classPath? content).getD [])).map fun w => ⟨String.ofList w.chars⟩

namespace FileTree

variable {t : FileTree} {p word : Path} {place : Location}

/-- The file at a place is an archive by its name and by what it holds, and its manifest gives a
path. -/
structure Mentions (t : FileTree) (place : Location) (word : Path) : Prop where
  archive : ∃ archive, t.node? place = some (.archive archive) ∧ word ∈ classPathWords archive
  named : ∃ name, place.getLast? = some name ∧ (Path.mk name).isJar = true

/-- The manifest of the archive at a place refers to another place, as seen from the directory of
the archive. -/
def RefersTo (t : FileTree) (place other : Location) : Prop :=
  ∃ word, t.Mentions place word ∧ other = resolve place.dropLast word

/-- Entries lead to a place, in any number of steps and however paths to the places on the way are
spelled. -/
def Reaches (t : FileTree) (entries : List Path) (place : Location) : Prop :=
  ∃ p ∈ entries, Relation.ReflTransGen t.RefersTo (destination p) place

theorem locate_of_isPresent (present : t.isPresent p = true) :
    t.locate p = .ok (destination p) := by
  unfold isPresent at present
  cases located : t.locate p with
  | ok place => rw [locate_ok located]
  | error e =>
    rw [located] at present
    cases present

theorem readArchive_ok_iff {archive : Archive} (present : t.isPresent p = true) :
    t.readArchive p = .ok archive ↔ t.node? (destination p) = some (.archive archive) := by
  rw [readArchive, find, locate_of_isPresent present, ok_bind]
  cases t.node? (destination p) with
  | none =>
    refine iff_of_false (fun read => ?_) fun here => ?_
    · cases read
    · cases here
  | some node =>
    cases node with
    | archive entries =>
      rw [Option.some.injEq, FileNode.archive.injEq]
      exact Except.ok.injEq entries archive ▸ Iff.rfl
    | directory | file _ =>
      refine iff_of_false (fun read => ?_) fun here => ?_
      · cases read
      · cases here

/-- A path to an archive ends with the name of the archive. -/
theorem locate_archive {archive : Archive} (present : t.isPresent p = true)
    (here : t.node? (destination p) = some (.archive archive)) :
    ∃ before last, p.pieces = before ++ [last] ∧ IsName last ∧
      destination p = before.foldl advance (start p) ++ [String.ofList last] := by
  refine locate_file (locate_of_isPresent present) ?_
  rw [hasDirectory, here]
  rfl

theorem Mentions.exists_name (mentions : t.Mentions (destination p) word)
    (present : t.isPresent p = true) :
    ∃ before last, p.pieces = before ++ [last] ∧ IsName last ∧
      destination p = before.foldl advance (start p) ++ [String.ofList last] := by
  obtain ⟨archive, here, -⟩ := mentions.archive
  exact locate_archive present here

/-- Whether a file is an archive by its name can be told from every path that leads to it. -/
theorem mentions_iff (present : t.isPresent p = true) : t.Mentions (destination p) word ↔
    p.isJar = true ∧ ∃ archive, t.node? (destination p) = some (.archive archive) ∧
      word ∈ classPathWords archive := by
  have name {archive : Archive} (here : t.node? (destination p) = some (.archive archive)) :
      ∃ name, (destination p).getLast? = some name ∧ p.isJar = (Path.mk name).isJar := by
    obtain ⟨before, last, whole, named, same⟩ := locate_archive present here
    have member : last ∈ p.pieces := whole ▸ List.mem_append_right _ (.head _)
    exact ⟨String.ofList last, by rw [same, List.getLast?_concat],
      Path.isJar_of_pieces whole named (slash_not_mem_of_mem_splitAtSlashes member)⟩
  constructor
  · rintro ⟨⟨archive, here, member⟩, _, last, jar⟩
    obtain ⟨_, last', same⟩ := name here
    cases last.symm.trans last'
    exact ⟨same.trans jar, archive, here, member⟩
  · rintro ⟨jar, archive, here, member⟩
    obtain ⟨_, last, same⟩ := name here
    exact ⟨⟨archive, here, member⟩, _, last, same.symm.trans jar⟩

theorem destination_beside_of_mentions (present : t.isPresent p = true)
    (mentions : t.Mentions (destination p) word) :
    destination (p.beside word) = resolve (destination p).dropLast word := by
  obtain ⟨before, last, whole, named, same⟩ := mentions.exists_name present
  rw [destination_beside whole named, same, List.dropLast_concat]

end FileTree

namespace RunM

open FileTree

variable {w : World} {entries known : List Path} {p q word : Path} {place : Location}

/-- What a manifest gives is read as paths beside the archive. -/
theorem manifestPaths_ok {refs : List Path} (given : (outcome (manifestPaths p) w).1 = .ok refs) :
    ∃ archive, w.tree.readArchive p = .ok archive ∧
      refs = (classPathWords archive).map p.beside := by
  have read : outcome
      (file (.readArchive p) (FileAccess.readArchive p : StateM World (Except FileError Archive)))
        w =
      ((w.tree.readArchive p).mapError (.readArchive p), w) := outcome_file _ _ _
  rw [manifestPaths, outcome_bind, read] at given
  cases found : w.tree.readArchive p with
  | error e =>
    rw [found] at given
    cases given
  | ok archive =>
    rw [found] at given
    simp only [Except.mapError] at given
    refine ⟨archive, rfl, ?_⟩
    unfold classPathWords
    cases entry : archive.lookup manifestEntry with
    | none =>
      rw [entry] at given
      cases given
      rfl
    | some bytes =>
      rw [entry] at given
      simp only [Option.bind_some] at given ⊢
      cases decoded : Text.decodeUtf8? bytes with
      | none =>
        rw [decoded] at given
        cases given
      | some content =>
        rw [decoded] at given
        cases given
        rw [Manifest.paths, List.map_map]
        rfl

/-- An entry refers to what the manifest of its archive gives, beside the archive. -/
theorem mem_iff_of_follow {refs : List Path} (followed : follow w p = .ok refs) :
    q ∈ refs ↔ ∃ word, w.tree.Mentions (destination p) word ∧ q = p.beside word := by
  have present := isPresent_of_follow followed
  simp only [mentions_iff present]
  rw [follow, if_pos present, references] at followed
  by_cases jar : p.isJar = true
  · simp only [jar, if_true, true_and, outcome_bind] at followed ⊢
    have given (refs : List Path) (ran : (outcome (manifestPaths p) w).1 = .ok refs) :=
      manifestPaths_ok ran
    generalize outcome (manifestPaths p) w = ran at followed given
    obtain ⟨e | paths, between⟩ := ran
    · cases followed
    · obtain ⟨archive, read, rfl⟩ := given paths rfl
      cases followed
      have here := (readArchive_ok_iff present).1 read
      rw [Path.sorted, List.mem_mergeSort, List.mem_map]
      constructor
      · rintro ⟨word, member, rfl⟩
        exact ⟨word, ⟨archive, here, member⟩, rfl⟩
      · rintro ⟨word, ⟨other, there, member⟩, rfl⟩
        cases here.symm.trans there
        exact ⟨word, member, rfl⟩
  · rw [if_neg jar] at followed
    cases followed
    simp [jar]

/-- One step from an entry that can be used, by paths and by places. -/
theorem cites_iff {refs : List Path} (followed : follow w p = .ok refs) :
    Cites w p q ↔ ∃ word, w.tree.Mentions (destination p) word ∧ q = p.beside word := by
  rw [← mem_iff_of_follow followed, Cites]
  constructor
  · rintro ⟨others, again, member⟩
    cases followed.symm.trans again
    exact member
  · exact fun member => ⟨refs, followed, member⟩

/-- What paths lead to, the files lead to. -/
theorem Reached.reaches (reached : Reached w entries p) :
    w.tree.Reaches entries (destination p) := by
  obtain ⟨e, member, leads⟩ := reached
  refine ⟨e, member, ?_⟩
  induction leads with
  | refl => exact .refl
  | tail _ cites ih =>
    obtain ⟨refs, followed, -⟩ := id cites
    obtain ⟨word, mentions, rfl⟩ := (cites_iff followed).1 cites
    exact ih.tail ⟨word, mentions,
      destination_beside_of_mentions (isPresent_of_follow followed) mentions⟩

/-- Everything that the entries lead to can be used. -/
def AllUsable (w : World) (entries : List Path) : Prop :=
  ∀ p, Reached w entries p → ∃ refs, follow w p = .ok refs

/-- If all paths can be used, some path leads wherever the files lead. -/
theorem AllUsable.exists_reached (usable : AllUsable w entries)
    (reaches : w.tree.Reaches entries place) :
    ∃ p, Reached w entries p ∧ destination p = place := by
  obtain ⟨e, member, leads⟩ := reaches
  induction leads with
  | refl => exact ⟨e, .entry member, rfl⟩
  | tail _ refers ih =>
    obtain ⟨p, reached, rfl⟩ := ih
    obtain ⟨refs, followed⟩ := usable p reached
    obtain ⟨word, mentions, rfl⟩ := refers
    exact ⟨p.beside word, reached.cited ((cites_iff followed).2 ⟨word, mentions, rfl⟩),
      destination_beside_of_mentions (isPresent_of_follow followed) mentions⟩

/-- Entries, and all paths that manifests on the way give, are spelled plainly and start at the root
or all do not. -/
structure PlainlyNamed (w : World) (entries : List Path) (absolute : Bool) : Prop where
  given : ∀ e ∈ entries, e.Plain ∧ e.isAbsolute = absolute
  words : ∀ place word, w.tree.Reaches entries place → w.tree.Mentions place word →
    word.Plain ∧ (word.isAbsolute = true → absolute = true)

theorem PlainlyNamed.reached {absolute : Bool} (named : PlainlyNamed w entries absolute)
    (reached : Reached w entries p) : p.Plain ∧ p.isAbsolute = absolute := by
  obtain ⟨e, member, leads⟩ := reached
  induction leads with
  | refl => exact named.given e member
  | @tail q r leads cites ih =>
    have reached : Reached w entries q := ⟨e, member, leads⟩
    obtain ⟨refs, followed, -⟩ := id cites
    obtain ⟨word, mentions, rfl⟩ := (cites_iff followed).1 cites
    obtain ⟨wordPlain, starts⟩ := named.words _ word reached.reaches mentions
    obtain ⟨before, last, whole, lastNamed, -⟩ :=
      mentions.exists_name (isPresent_of_follow followed)
    refine ⟨Path.plain_beside ih.1 whole lastNamed wordPlain, ?_⟩
    by_cases rooted : word.isAbsolute = true
    · rw [Path.beside_of_isAbsolute rooted, rooted, starts rooted]
    · rw [Path.isAbsolute_beside whole lastNamed (by simpa using rooted), ih.2]

/-- Every classpath is expanded to the end, whatever the manifests refer to. Either something that
the entries lead to cannot be used, or the result is what they lead to, each path once. Then the
places that are listed are those to which the archives refer, and no place is listed twice if all
paths are spelled plainly. -/
theorem expandClasspath_places (w : World) (entries : List Path) :
    (∃ e p, Reached w entries p ∧ w.tree.Reaches entries (destination p) ∧ follow w p = .error e ∧
        outcome (expandClasspath entries) w = (.error e, w)) ∨
      ∃ known, outcome (expandClasspath entries) w = (.ok known, w) ∧ known.Nodup ∧
        AllUsable w entries ∧
        (∀ p, p ∈ known ↔ Reached w entries p) ∧
          (∀ p ∈ known, w.tree.locate p = .ok (destination p)) ∧
        (∀ place, place ∈ known.map destination ↔ w.tree.Reaches entries place) ∧
        ∀ absolute, PlainlyNamed w entries absolute → (known.map destination).Nodup := by
  rcases outcome_expandClasspath w entries with
    ⟨known, ran, distinct, all, followed⟩ | ⟨e, p, reached, failed, ran⟩
  · have usable : AllUsable w entries := fun p reached => followed p ((all p).2 reached)
    refine .inr ⟨known, ran, distinct, usable, all, fun p member => ?_, fun place => ?_,
      fun absolute named => ?_⟩
    · obtain ⟨refs, found⟩ := followed p member
      exact locate_of_isPresent (isPresent_of_follow found)
    · rw [List.mem_map]
      constructor
      · rintro ⟨p, member, rfl⟩
        exact ((all p).1 member).reaches
      · intro reaches
        obtain ⟨p, reached, same⟩ := usable.exists_reached reaches
        exact ⟨p, (all p).2 reached, same⟩
    · refine distinct.map_on fun p here q there same => ?_
      obtain ⟨plain, starts⟩ := named.reached ((all p).1 here)
      obtain ⟨plain', starts'⟩ := named.reached ((all q).1 there)
      exact eq_of_destination_eq plain plain' (starts.trans starts'.symm) same
  · exact .inl ⟨e, p, reached, reached.reaches, failed, ran⟩

/-- An archive with a manifest that gives a class path. -/
def citingArchive (words : String) : FileNode :=
  .archive [(manifestEntry, ("Class-Path: " ++ words ++ "\n").toUTF8.data.toList)]

/-- An archive that refers to itself by another path. -/
def citesItself : World :=
  { tree := ⟨⟨[(["home"], .directory), (["home", "a.jar"], citingArchive "./a.jar")]⟩⟩ }

/-- A place is listed once for each path that leads there. -/
theorem expandClasspath_repeats : ∃ known,
    outcome (expandClasspath [⟨"a.jar"⟩]) citesItself = (.ok known, citesItself) ∧
      ¬(known.map citesItself.tree.locate).Nodup :=
  ⟨[⟨"a.jar"⟩, ⟨"./a.jar"⟩, ⟨"././a.jar"⟩], by decide +kernel, by decide +kernel⟩

end RunM

end JvmPatch
