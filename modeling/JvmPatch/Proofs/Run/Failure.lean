import JvmPatch.Proofs.Run.Reading

/-! What a run that fails leaves behind. Every class is encoded before the first file is written, so
only the file system itself can stop the writing halfway. What comes after it is the listing, which
can still fail over a name that is not among the classes, and the printing of listings and
report. -/

set_option autoImplicit false

namespace JvmPatch

/-- Whether the file system has refused to make or to write something. -/
def RunError.isStorage : RunError → Bool
  | .create .. | .write .. | .openReport .. => true
  | _ => false

/-- Whether something could not be printed. -/
def RunError.isPrinting : RunError → Bool
  | .printListing .. | .printReport .. => true
  | _ => false

/-- All files are left as they are, and only printing fails. -/
def Contract.printing : Contract where
  succeeds w later := later.tree = w.tree
  fails w e later := e.isPrinting = true ∧ later.tree = w.tree
  refl _ := rfl
  trans first second := second.trans first
  failsAfter first second := ⟨second.1, second.2.trans first⟩

theorem World.tree_print (s : String) (w : World) : ((World.print s).run w).2.tree = w.tree := by
  change (World.print s w).2.tree = w.tree
  unfold World.print
  split <;> rfl

namespace RunM

variable {α β : Type} {x : RunM (StateM World) α} {f : α → RunM (StateM World) β} {w later : World}
  {e : RunError}

/-- A part of a run fails only when the file system refuses to make or to write something. -/
abbrev FailsInStorage (x : RunM (StateM World) α) : Prop := Keeps (.failing (·.isStorage = true)) x

section Writing

theorem file_failsInStorage {f : FileError → RunError}
    (storage : ∀ cause, (f cause).isStorage = true) (x : StateM World (Except FileError α)) :
    FailsInStorage (file f x) :=
  .file (fun _ _ _ _ => trivial) fun _ cause _ _ => storage cause

theorem makeParent_failsInStorage (p : Path) : FailsInStorage (makeParent p) := by
  unfold makeParent
  split
  · exact .pure ()
  · split
    · exact .pure ()
    · exact file_failsInStorage (fun _ => rfl) _

theorem writeDirectory_failsInStorage (output : Path) (files : List (String × Bytes)) :
    FailsInStorage (writeDirectory output files) := by
  refine .forM fun e _ => ?_
  exact (makeParent_failsInStorage (output.join ⟨e.1⟩)).bind fun _ =>
    file_failsInStorage (fun _ => rfl) _

theorem writeJar_failsInStorage (output : Path) (resources files : List (String × Bytes)) :
    FailsInStorage (writeJar output resources files) :=
  (makeParent_failsInStorage output).bind fun _ => file_failsInStorage (fun _ => rfl) _

/-- All classes are encoded before anything is written. -/
theorem writeOutput_error {set : ClassSet} {output : Path} {resources : Archive}
    (failed : outcome (writeOutput set output resources) w = (.error e, later)) :
    e.isStorage = true ∨ later = w := by
  unfold writeOutput at failed
  split at failed
  · cases failed
    exact .inr rfl
  · split at failed
    · exact .inl ((writeJar_failsInStorage _ _ _).error failed)
    · exact .inl ((writeDirectory_failsInStorage _ _).error failed)

end Writing

section Printing

theorem keeps_print {f : FileError → RunError} (printing : ∀ cause, (f cause).isPrinting = true)
    (s : String) :
    Keeps .printing (file f (FileAccess.print s : StateM World (Except FileError Unit))) := by
  have same {w result later} (ran : (World.print s).run w = (result, later)) :
      later.tree = w.tree :=
    (congrArg (·.2.tree) ran).symm.trans (World.tree_print s w)
  exact .file (fun w a later ran => same ran) fun w cause later failed =>
    ⟨printing cause, same failed⟩

/-- No visible class of a set has the name that an error complains about. -/
def Unlisted (set : ClassSet) (names : List String) (e : RunError) : Prop :=
  ∃ name ∈ names, e = .unknownClass name ∧ (set.find? name).filter set.isCandidate = none

theorem reads_listedClasses (set : ClassSet) (name : String) : Reads (listedClasses set name) := by
  unfold listedClasses
  split
  · exact .pure _
  · split
    · exact .pure _
    · exact .throw fun _ => rfl

theorem listedClasses_failing {set : ClassSet} {names : List String} {name : String}
    (member : name ∈ names) :
    Keeps (.failing (Unlisted set names)) (listedClasses set name) := by
  unfold listedClasses
  split
  · exact .pure _
  · split
    · exact .pure _
    · rename_i unknown
      exact .throw fun _ => ⟨name, member, rfl, unknown⟩

theorem keeps_listings (set : ClassSet) (ids : List ClassId) : Keeps .printing (ids.forM fun id =>
    (file .printListing (FileAccess.print (set.listing id)) : RunM (StateM World) Unit)) :=
  .forM fun id _ => keeps_print (fun _ => rfl) (set.listing id)

theorem printListings_ok {set : ClassSet} {names : List String}
    (ran : outcome (printListings set names) w = (.ok ⟨⟩, later)) : later.tree = w.tree := by
  obtain ⟨ids, between, looked, prints⟩ := outcome_bind_ok ran
  obtain rfl : between = w := (Keeps.mapM fun name _ => reads_listedClasses set name).ok looked
  exact (keeps_listings set ids.flatten).ok prints

/-- All names are looked up before anything is printed. -/
theorem printListings_error {set : ClassSet} {names : List String}
    (failed : outcome (printListings set names) w = (.error e, later)) :
    Unlisted set names e ∧ later = w ∨ e.isPrinting = true ∧ later.tree = w.tree := by
  have reads : Reads (names.mapM (listedClasses set)) :=
    .mapM fun name _ => reads_listedClasses set name
  rcases outcome_bind_error failed with stopped | ⟨ids, between, looked, stopped⟩
  · have unlisted : Keeps (.failing (Unlisted set names)) (names.mapM (listedClasses set)) :=
      .mapM fun _ member => listedClasses_failing member
    exact .inl ⟨unlisted.error stopped, reads.error stopped⟩
  · obtain rfl : between = w := reads.ok looked
    exact .inr ((keeps_listings set ids.flatten).error stopped)

theorem writeReport_error {p : Path} {report : BindingReport}
    (failed : outcome (writeReport p report) w = (.error e, later)) :
    e.isStorage = true ∨ e.isPrinting = true ∧ later.tree = w.tree := by
  unfold writeReport at failed
  split at failed
  · exact .inr ((keeps_print (fun _ => rfl) _).error failed)
  · exact .inl ((file_failsInStorage (fun _ => rfl) _).error failed)

/-- The end of a run: the listings and then the report. -/
theorem finish_error {set : ClassSet} {names : List String} {p? : Option Path}
    {report : BindingReport} (refused : e.isStorage = false)
    (failed : outcome (do
      printListings set names
      match p? with
      | none => pure ()
      | some p => writeReport p report) w = (.error e, later)) :
    Unlisted set names e ∧ later = w ∨ e.isPrinting = true ∧ later.tree = w.tree := by
  rcases outcome_bind_error failed with stopped | ⟨⟨⟩, listed, ran, failed⟩
  · exact printListings_error stopped
  cases p? with
  | none => cases failed
  | some p =>
    rcases writeReport_error failed with storage | ⟨printing, same⟩
    · exact (Bool.false_ne_true (refused.symm.trans storage)).elim
    · exact .inr ⟨printing, same.trans (printListings_ok ran)⟩

end Printing

end RunM

open RunM in
/-- The world once the output of a run has been written. Without an output, that is the world it
started from. -/
def Options.Writes (o : Options) (w written : World) : Prop :=
  match o.output with
  | none => written = w
  | some output => ∃ set resources, outcome (writeOutput set output resources) w = (.ok ⟨⟩, written)

open RunM in
/-- A run that fails for another reason than a refusal of the file system leaves all files as they
were and has printed nothing, unless it has written all classes and then misses one that is to be
listed, or cannot print. If something cannot be printed, all classes have been written, and no other
file has. -/
theorem Options.run_error (o : Options) {w later : World} {e : RunError}
    (failed : outcome o.run w = (.error e, later)) (refused : e.isStorage = false) :
    later = w ∨
      (∃ output set resources, o.output = some output ∧
        outcome (writeOutput set output resources) w = (.ok ⟨⟩, later) ∧ Unlisted set o.listed e) ∨
      e.isPrinting = true ∧ ∃ written, o.Writes w written ∧ later.tree = written.tree := by
  rcases (reads_requirePresent _ _).error_bind failed with same | ⟨-, failed⟩
  · exact .inl same
  rcases (reads_requirePresent _ _).error_bind failed with same | ⟨-, failed⟩
  · exact .inl same
  rcases Reads.error_bind (.mapM fun p _ => reads_readScript p) failed with same | ⟨scripts, failed⟩
  · exact .inl same
  rcases (reads_load o).error_bind failed with same | ⟨⟨set, resources⟩, failed⟩
  · exact .inl same
  rcases (reads_prepare set).error_bind failed with same | ⟨ready, failed⟩
  · exact .inl same
  rcases (reads_applyScripts _ ready scripts).error_bind failed with
    same | ⟨⟨final, bindings⟩, failed⟩
  · exact .inl same
  dsimp only at failed
  unfold Options.Writes
  cases asked : o.output with
  | none =>
    rw [asked] at failed
    rcases finish_error refused failed with ⟨-, same⟩ | ⟨printing, same⟩
    · exact .inl same
    · exact .inr (.inr ⟨printing, w, rfl, same⟩)
  | some output =>
    rw [asked] at failed
    rcases outcome_bind_error failed with stopped | ⟨⟨⟩, written, stored, failed⟩
    · rcases writeOutput_error stopped with storage | same
      · exact (Bool.false_ne_true (refused.symm.trans storage)).elim
      · exact .inl same
    · rcases finish_error refused failed with ⟨unlisted, rfl⟩ | ⟨printing, same⟩
      · exact .inr (.inl ⟨output, final, resources, rfl, stored, unlisted⟩)
      · exact .inr (.inr ⟨printing, written, ⟨final, resources, stored⟩, same⟩)

namespace RunM

/-- A directory without files, and what is put beside it. -/
def besideEmpty (made : List (Location × FileNode)) : World :=
  { tree := ⟨⟨[(["home"], .directory), (["home", "in"], .directory)] ++ made⟩⟩ }

/-- Writes the classes of the directory into an archive and lists a class that is not there. -/
def listsUnknown : Options := { inputs := [⟨"in"⟩], output := some ⟨"out.jar"⟩, listed := ["a/A"] }

theorem outcome_readClasspath_nil (w : World) : outcome (readClasspath []) w = (.ok [], w) := by
  have expands : expandClasspath [] = (pure [] : RunM (StateM World) (List Path)) := by
    have sorted : Path.sorted [] = [] := by with_unfolding_all decide
    rw [expandClasspath, sorted]
    cases maxLevels <;> rfl
  have groups : groupByName [] = [] := by with_unfolding_all decide
  rw [readClasspath, expands, pure_bind]
  simp only [List.mapM_nil, pure_bind, List.flatten_nil, groups]
  rfl

theorem outcome_load_listsUnknown :
    outcome (load listsUnknown) (besideEmpty []) = (.ok ({}, []), besideEmpty []) := by
  have inputs : outcome (readInputs listsUnknown.inputs) (besideEmpty []) =
    (.ok {}, besideEmpty []) := by with_unfolding_all decide
  have present : outcome (([] : List Path).filterM isPresent) (besideEmpty []) =
    (.ok [], besideEmpty []) := rfl
  rw [load, outcome_bind_of_ok inputs]
  dsimp only [listsUnknown]
  rw [outcome_bind_of_ok present, List.append_nil, outcome_bind_of_ok (outcome_readClasspath_nil _)]
  rfl

theorem outcome_writeOutput_empty : outcome (writeOutput {} ⟨"out.jar"⟩ []) (besideEmpty []) =
    (.ok (), besideEmpty [(["home", "out.jar"], .archive [])]) := by
  have files : ({} : ClassSet).outputFiles = .ok [] := by with_unfolding_all decide
  have jar : (Path.mk "out.jar").isJar = true := by decide
  rw [writeOutput, files]
  dsimp only
  rw [if_pos jar]
  rfl

theorem outcome_listsUnknown : outcome listsUnknown.run (besideEmpty []) =
    (.error (.unknownClass "a/A"), besideEmpty [(["home", "out.jar"], .archive [])]) := by
  have present : outcome (requirePresent .missingInput listsUnknown.inputs) (besideEmpty []) =
    (.ok (), besideEmpty []) := rfl
  have ready : outcome (prepare {}) (besideEmpty []) = (.ok {}, besideEmpty []) := by
    with_unfolding_all decide
  have classpath : outcome (requirePresent .missingClasspathEntry listsUnknown.classpath)
    (besideEmpty []) =
    (.ok (), besideEmpty []) := rfl
  have scripts : outcome (listsUnknown.patches.mapM readScript) (besideEmpty []) =
    (.ok [], besideEmpty []) := rfl
  have applied : outcome (applyScripts listsUnknown.search {} []) (besideEmpty []) =
    (.ok ({}, []), besideEmpty []) := rfl
  rw [Options.run, outcome_bind_of_ok present, outcome_bind_of_ok classpath,
    outcome_bind_of_ok scripts, outcome_bind_of_ok outcome_load_listsUnknown]
  dsimp only
  rw [outcome_bind_of_ok ready, outcome_bind_of_ok applied]
  dsimp only [listsUnknown]
  rw [outcome_bind_of_ok outcome_writeOutput_empty]
  with_unfolding_all decide

end RunM

open RunM in
theorem Options.run_error_listsUnknown : (RunError.unknownClass "a/A").isStorage = false ∧
    (besideEmpty [(["home", "out.jar"], .archive [])] = besideEmpty [] ∨
      (∃ output set resources, listsUnknown.output = some output ∧
        outcome (writeOutput set output resources) (besideEmpty []) =
          (.ok ⟨⟩, besideEmpty [(["home", "out.jar"], .archive [])]) ∧
        Unlisted set listsUnknown.listed (.unknownClass "a/A")) ∨
      (RunError.unknownClass "a/A").isPrinting = true ∧
        ∃ written, listsUnknown.Writes (besideEmpty []) written ∧
        (besideEmpty [(["home", "out.jar"], .archive [])]).tree = written.tree) :=
  ⟨rfl, listsUnknown.run_error outcome_listsUnknown rfl⟩

open RunM in
/-- The archive is written before the listing fails. -/
theorem Options.run_error_writes : ∃ (o : Options) (w later : World) (e : RunError),
    outcome o.run w = (.error e, later) ∧ e.isStorage = false ∧ later.tree ≠ w.tree :=
  ⟨listsUnknown, _, _, _, outcome_listsUnknown, rfl, by decide⟩

end JvmPatch
