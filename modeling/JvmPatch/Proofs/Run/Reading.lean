import JvmPatch.Files.Tree
import JvmPatch.Proofs.Steps
import JvmPatch.Run.Basic

/-! What parts of a run do to files in memory. A contract says what a part may leave behind where it
succeeds and where it fails, and parts that keep to a contract keep to it one after the other. The
phases before anything is written only read: they leave the world as they found it. -/

set_option autoImplicit false

namespace JvmPatch

/-- What may become of a world. What is said of a failure has to hold whatever went well before
it. -/
structure Contract where
  succeeds : World → World → Prop
  fails : World → RunError → World → Prop
  refl : ∀ w, succeeds w w
  trans : ∀ {w between later}, succeeds w between → succeeds between later → succeeds w later
  failsAfter : ∀ {w between e later}, succeeds w between → fails between e later → fails w e later

namespace Contract

/-- The world is left as it is. -/
def reading : Contract where
  succeeds w later := later = w
  fails w _ later := later = w
  refl _ := rfl
  trans first second := second.trans first
  failsAfter first second := second.trans first

/-- Only certain errors occur, whatever is done to the world. -/
def failing (allowed : RunError → Prop) : Contract where
  succeeds _ _ := True
  fails _ e _ := allowed e
  refl _ := trivial
  trans _ _ := trivial
  failsAfter _ second := second

end Contract

namespace RunM

variable {α β : Type} {x : RunM (StateM World) α} {f : α → RunM (StateM World) β} {w later : World}
  {e : RunError}

/-- How a part of a run ends on files in memory, and what it leaves behind. -/
def outcome (x : RunM (StateM World) α) (w : World) : Except RunError α × World := x.run.run w

theorem outcome_bind (x : RunM (StateM World) α) (f : α → RunM (StateM World) β) (w : World) :
    outcome (x >>= f) w = match outcome x w with
      | (.ok a, between) => outcome (f a) between
      | (.error e, between) => (.error e, between) := by
  change (match outcome x w with
    | (result, between) => (ExceptT.bindCont f result).run between) = _
  rcases outcome x w with ⟨_ | _, between⟩ <;> rfl

theorem outcome_bind_of_ok {a : α} (ran : outcome x w = (.ok a, later)) :
    outcome (x >>= f) w = outcome (f a) later := by
  rw [outcome_bind, ran]

theorem outcome_bind_ok {b : β} (ran : outcome (x >>= f) w = (.ok b, later)) :
    ∃ a between, outcome x w = (.ok a, between) ∧ outcome (f a) between = (.ok b, later) := by
  rw [outcome_bind] at ran
  cases first : outcome x w with
  | mk result between =>
    rw [first] at ran
    cases result with
    | error cause => cases ran
    | ok a => exact ⟨a, between, rfl, ran⟩

theorem outcome_bind_error (failed : outcome (x >>= f) w = (.error e, later)) :
    outcome x w = (.error e, later) ∨
      ∃ a between, outcome x w = (.ok a, between) ∧ outcome (f a) between = (.error e, later) := by
  rw [outcome_bind] at failed
  cases ran : outcome x w with
  | mk result between =>
    rw [ran] at failed
    cases result with
    | error cause =>
      dsimp only at failed
      cases failed
      exact .inl rfl
    | ok a => exact .inr ⟨a, between, rfl, failed⟩

theorem outcome_file (f : FileError → RunError)
    (x : StateM World (Except FileError α)) (w : World) :
    outcome (file f x) w = ((x.run w).1.mapError f, (x.run w).2) := by
  have lifted : outcome (liftM x : RunM (StateM World) (Except FileError α)) w =
    (.ok (x.run w).1, (x.run w).2) := rfl
  rw [file, outcome_bind_of_ok lifted]
  cases (x.run w).1 <;> rfl

/-- A part of a run keeps to a contract. -/
structure Keeps (c : Contract) (x : RunM (StateM World) α) : Prop where
  ok : ∀ {w a later}, outcome x w = (.ok a, later) → c.succeeds w later
  error : ∀ {w e later}, outcome x w = (.error e, later) → c.fails w e later

namespace Keeps

variable {c : Contract}

theorem pure (a : α) : Keeps c (pure a) where
  ok ran := by
    cases ran
    exact c.refl _
  error failed := nomatch failed

theorem throw (fails : ∀ w, c.fails w e w) : Keeps c (throw e : RunM (StateM World) α) where
  ok ran := nomatch ran
  error failed := by
    cases failed
    exact fails _

theorem lift {x : StateM World α} (succeeds : ∀ w, c.succeeds w (x.run w).2) :
    Keeps c (liftM x) where
  ok ran := by
    cases ran
    exact succeeds _
  error failed := nomatch failed

theorem bind (first : Keeps c x) (next : ∀ a, Keeps c (f a)) : Keeps c (x >>= f) where
  ok ran := by
    obtain ⟨a, between, one, rest⟩ := outcome_bind_ok ran
    exact c.trans (first.ok one) ((next a).ok rest)
  error failed := by
    rcases outcome_bind_error failed with stopped | ⟨a, between, one, rest⟩
    · exact first.error stopped
    · exact c.failsAfter (first.ok one) ((next a).error rest)

theorem file {f : FileError → RunError} {x : StateM World (Except FileError α)}
    (ok : ∀ w a later, x.run w = (.ok a, later) → c.succeeds w later)
    (error : ∀ w cause later, x.run w = (.error cause, later) → c.fails w (f cause) later) :
    Keeps c (file f x) where
  ok {w a later} ran := by
    rw [outcome_file] at ran
    obtain ⟨found, rfl⟩ := Prod.mk.inj ran
    exact ok w a _ (Prod.ext (mapError_eq_ok found) rfl)
  error {w e later} failed := by
    rw [outcome_file] at failed
    obtain ⟨found, rfl⟩ := Prod.mk.inj failed
    cases ran : (x.run w).1 with
    | ok a =>
      rw [ran] at found
      cases found
    | error cause =>
      rw [ran] at found
      cases found
      exact error w cause _ (Prod.ext ran rfl)

theorem sequential (c : Contract) : Sequential (RunM (StateM World)) (Keeps c) := ⟨pure, bind⟩

theorem mapM {xs : List α} (each : ∀ a ∈ xs, Keeps c (f a)) : Keeps c (xs.mapM f) :=
  (sequential c).mapM each

theorem forM {f : α → RunM (StateM World) Unit} {xs : List α} (each : ∀ a ∈ xs, Keeps c (f a)) :
    Keeps c (xs.forM f) := (sequential c).forM each

theorem foldlM {f : β → α → RunM (StateM World) β} {xs : List α}
    (each : ∀ b, ∀ a ∈ xs, Keeps c (f b a)) (start : β) : Keeps c (xs.foldlM f start) :=
  (sequential c).foldlM each start

theorem filterM {f : α → RunM (StateM World) Bool} {xs : List α} (each : ∀ a ∈ xs, Keeps c (f a)) :
    Keeps c (xs.filterM f) := (sequential c).filterM each

end Keeps

/-- A part of a run leaves all files, and what has been printed, as they are. -/
abbrev Reads (x : RunM (StateM World) α) : Prop := Keeps .reading x

theorem Reads.same (reads : Reads x) (w : World) : (outcome x w).2 = w := by
  cases ran : outcome x w with
  | mk result later =>
    cases result with
    | error e => exact reads.error ran
    | ok a => exact reads.ok ran

theorem Reads.error_bind (reads : Reads x) (failed : outcome (x >>= f) w = (.error e, later)) :
    later = w ∨ ∃ a, outcome (f a) w = (.error e, later) := by
  rcases outcome_bind_error failed with stopped | ⟨a, between, ran, rest⟩
  · exact .inl (reads.error stopped)
  · obtain rfl : between = w := reads.ok ran
    exact .inr ⟨a, rest⟩

theorem reads_file {x : StateM World (Except FileError α)} (f : FileError → RunError)
    (reads : ∀ w, (x.run w).2 = w) : Reads (file f x) :=
  .file (fun w _ _ ran => (congrArg Prod.snd ran).symm.trans (reads w))
    fun w _ _ failed => (congrArg Prod.snd failed).symm.trans (reads w)

theorem reads_isPresent (p : Path) : Reads (isPresent p) := .lift fun _ => rfl

theorem reads_isDirectory (p : Path) : Reads (isDirectory p) := .lift fun _ => rfl

theorem reads_bytes (f : FileError → RunError) (p : Path) :
    Reads (file f (FileAccess.readFile p : StateM World (Except FileError Bytes))) :=
  reads_file f fun _ => rfl

theorem reads_archive (f : FileError → RunError) (p : Path) :
    Reads (file f (FileAccess.readArchive p : StateM World (Except FileError Archive))) :=
  reads_file f fun _ => rfl

theorem keeps_bind {x : StateM World α} {f : α → StateM World β} (first : ∀ w, (x.run w).2 = w)
    (next : ∀ a w, ((f a).run w).2 = w) (w : World) : ((x >>= f).run w).2 = w :=
  (next _ _).trans (first w)

section Inputs

theorem reads_children (f : FileError → RunError) (p : Path) :
    Reads (file f (FileAccess.children p : StateM World (Except FileError (List Path)))) :=
  reads_file f <| keeps_bind (fun _ => rfl) fun found => by
    cases found with
    | error e => exact fun _ => rfl
    | ok names => exact fun _ => rfl

theorem reads_text (f : FileError → RunError) (p : Path) :
    Reads (file f (FileAccess.readText p : StateM World (Except FileError String))) :=
  reads_file f <| keeps_bind (fun _ => rfl) fun content => by
    cases content with
    | error e => exact fun _ => rfl
    | ok bytes =>
      dsimp only
      split <;> exact fun _ => rfl

theorem reads_filesBelow (depth : Nat) (dir : Path) : Reads (filesBelow depth dir) := by
  induction depth generalizing dir with
  | zero => exact .pure []
  | succ depth ih =>
    refine (reads_children _ dir).bind fun found => (Keeps.mapM fun p _ => ?_).bind fun _ => .pure _
    refine (reads_isDirectory p).bind fun directory => ?_
    cases directory with
    | true => exact ih p
    | false => exact .pure [p]

theorem reads_parseClass (source : String) (content : Bytes) :
    Reads (parseClass source content) := by
  unfold parseClass
  cases ClassFile.read content with
  | ok file => exact .pure _
  | error e => exact .throw fun _ => rfl

theorem reads_readClassFile (p : Path) : Reads (readClassFile p) :=
  (reads_bytes _ p).bind fun _ => (reads_parseClass _ _).bind fun _ => .pure _

theorem reads_manifestPaths (p : Path) : Reads (manifestPaths p) := by
  refine (reads_archive _ p).bind fun archive => ?_
  split
  · exact .pure []
  · split
    · exact .throw fun _ => rfl
    · exact .pure _

theorem reads_readEntry (p : Path) (entry : String × Bytes) : Reads (readEntry p entry) := by
  unfold readEntry
  split
  · exact (reads_parseClass _ _).bind fun _ => .pure _
  · exact .pure _

theorem reads_readJar (p : Path) : Reads (readJar p) :=
  (reads_archive _ p).bind fun _ => (Keeps.mapM fun _ _ => reads_readEntry p _).bind fun _ =>
    (reads_manifestPaths p).bind fun _ => .pure _

theorem reads_readInput (p : Path) : Reads (readInput p) := by
  refine (reads_isDirectory p).bind fun directory => ?_
  cases directory with
  | true =>
    exact (reads_filesBelow _ p).bind fun files =>
      (Keeps.mapM fun _ _ => reads_readClassFile _).bind fun _ => .pure _
  | false =>
    change Reads (if p.isClassFile then readClassFile p else if p.isJar then readJar p
      else throw (.unsupportedInput p))
    split
    · exact reads_readClassFile p
    · split
      · exact reads_readJar p
      · exact .throw fun _ => rfl

theorem reads_readInputs (paths : List Path) : Reads (readInputs paths) :=
  (Keeps.mapM fun _ _ => reads_readInput _).bind fun _ => .pure _

end Inputs

section Classpath

theorem reads_references (p : Path) : Reads (references p) := by
  unfold references
  split
  · exact (reads_manifestPaths p).bind fun _ => .pure _
  · exact .pure []

theorem reads_expandLevel (known paths : List Path) : Reads (expandLevel known paths) := by
  induction paths generalizing known with
  | nil => exact .pure _
  | cons p ps ih =>
    unfold expandLevel
    split
    · exact ih known
    · refine (reads_isPresent p).bind fun present => ?_
      cases present with
      | true => exact (reads_references p).bind fun refs => (ih _).bind fun _ => .pure _
      | false => exact .throw fun _ => rfl

theorem reads_expandLevels (levels : Nat) (known paths : List Path) :
    Reads (expandLevels levels known paths) := by
  induction levels generalizing known paths with
  | zero => exact .pure _
  | succ levels ih =>
    cases paths with
    | nil => exact .pure _
    | cons p ps => exact (reads_expandLevel known (p :: ps)).bind fun _ => ih _ _

theorem reads_fileClass? (root p : Path) : Reads (fileClass? root p) := by
  unfold fileClass?
  split
  · exact .pure none
  · refine (Keeps.lift fun _ => rfl).bind fun found => ?_
    cases found with
    | ok bytes => exact .pure _
    | error e => exact .pure _

theorem reads_entryClasses (p : Path) : Reads (entryClasses p) := by
  refine (reads_isDirectory p).bind fun directory => ?_
  cases directory with
  | true =>
    exact (reads_filesBelow _ p).bind fun files =>
      (Keeps.mapM fun _ _ => reads_fileClass? p _).bind fun _ => .pure _
  | false =>
    change Reads (if p.isJar then _ else throw (.unsupportedClasspathEntry p))
    split
    · exact (reads_archive _ p).bind fun _ => .pure _
    · exact .throw fun _ => rfl

theorem reads_readClasspath (entries : List Path) : Reads (readClasspath entries) := by
  refine (reads_expandLevels _ _ _).bind fun known =>
    (Keeps.mapM fun p _ => reads_entryClasses p).bind fun found => ?_
  dsimp only
  split
  · exact .pure _
  · exact .throw fun _ => rfl

end Classpath

section Phases

theorem reads_requirePresent (f : Path → RunError) (paths : List Path) :
    Reads (requirePresent f paths) :=
  Keeps.forM fun p _ => (reads_isPresent p).bind fun present => by
    cases present with
    | true => exact .pure _
    | false => exact .throw fun _ => rfl

theorem reads_readScript (p : Path) : Reads (readScript p) := by
  refine (reads_text _ p).bind fun text => ?_
  split
  · exact .pure _
  · exact .throw fun _ => rfl

theorem reads_addInput (set : ClassSet) (c : InputClass) : Reads (addInput set c) := by
  unfold addInput
  split
  · exact .pure _
  · exact .throw fun _ => rfl

theorem reads_load (o : Options) : Reads (load o) :=
  (reads_readInputs o.inputs).bind fun _ =>
    (Keeps.filterM fun p _ => reads_isPresent p).bind fun _ =>
    (reads_readClasspath _).bind fun _ =>
      (Keeps.foldlM (fun set c _ => reads_addInput set c) _).bind fun _ => .pure _

theorem reads_prepare (set : ClassSet) : Reads (prepare set) := by
  unfold prepare
  split
  · exact .pure _
  · exact .throw fun _ => rfl

theorem reads_applyScript (o : ResolveOptions) (set : ClassSet) (name : String) (script : Script) :
    Reads (applyScript o set name script) := by
  unfold applyScript
  split
  · exact .throw fun _ => rfl
  · exact .throw fun _ => rfl
  · split
    · exact .throw fun _ => rfl
    · exact .pure _

theorem reads_applyScripts (o : ResolveOptions) (set : ClassSet)
    (scripts : List (String × Script)) :
    Reads (applyScripts o set scripts) := by
  induction scripts generalizing set with
  | nil => exact .pure _
  | cons head scripts ih =>
    cases scripts with
    | nil => exact (reads_applyScript o set head.1 head.2).bind fun _ => .pure _
    | cons next scripts =>
      exact (reads_applyScript o set head.1 head.2).bind fun applied =>
        (reads_prepare applied.1).bind fun ready =>
        (ih ready).bind fun _ => .pure _

end Phases

end JvmPatch.RunM
