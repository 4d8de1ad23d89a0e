import JvmPatch.Run.Input

/-! The classes that a classpath provides. The classpath grows by the paths that the manifests of
its archives refer to, and no class may be provided twice. -/

set_option autoImplicit false

namespace JvmPatch

/-- A class of the classpath, the file that provides it and what is in it. -/
structure ClasspathClass where
  name : String
  source : String
  file : ClasspathFile
  deriving DecidableEq, Repr

/-- Classes by name, those of one name together and in the order in which they are given. -/
def groupByName (classes : List ClasspathClass) : List (List ClasspathClass) :=
  (classes.mergeSort fun a b => (compare a.name b.name).isLE).splitBy fun a b => a.name == b.name

/-- The class of a group that is provided more than once. -/
def duplicate? : List ClasspathClass → Option DuplicateClass
  | first :: second :: rest =>
    some ⟨first.name, (first :: second :: rest).map ClasspathClass.source⟩
  | _ => none

namespace RunM

variable {m : Type → Type} [Monad m] [FileAccess m]

/-- What the manifest of an entry refers to, by the texts of the paths. -/
def references (p : Path) : RunM m (List Path) :=
  if p.isJar then do pure (Path.sorted (← manifestPaths p)) else pure []

/-- Adds entries that are not known yet to those that are. The result is the known entries and what
the new ones refer to. -/
def expandLevel : List Path → List Path → RunM m (List Path × List Path)
  | known, [] => pure (known, [])
  | known, p :: ps => do
    if known.contains p then expandLevel known ps
    else if ← isPresent p then
      let refs ← references p
      let (known, next) ← expandLevel (known ++ [p]) ps
      pure (known, refs ++ next)
    else throw (.missingClasspathEntry p)

/-- Adds entries and all that they refer to, level by level. -/
def expandLevels : Nat → List Path → List Path → RunM m (List Path)
  | 0, known, _ => pure known
  | _ + 1, known, [] => pure known
  | levels + 1, known, p :: ps => do
    let (known, next) ← expandLevel known (p :: ps)
    expandLevels levels known next

/-- A bound for the number of levels. Each level that is not the last one has a path that no level
before it has, and only paths of few enough bytes are present. -/
def maxLevels : Nat := Nat.pow 256 (maxPathBytes + 1)

/-- The entries of a classpath and all that their manifests refer to. Two paths are different
entries if their texts differ, even if they lead to the same file. -/
def expandClasspath (entries : List Path) : RunM m (List Path) :=
  expandLevels maxLevels [] (Path.sorted entries)

/-- The class that a file in a directory of the classpath provides. That a file cannot be read
matters only when its class is taken. -/
def fileClass? (root p : Path) : RunM m (Option ClasspathClass) :=
  match root.classUnder? p with
  | none => pure none
  | some name => do
    match ← (FileAccess.readFile p : m (Except FileError Bytes)) with
    | .ok bytes => pure (some ⟨name, p.text, .content bytes⟩)
    | .error e => pure (some ⟨name, p.text, .unreadable ⟨p, e⟩⟩)

def entryClass? (jar : Path) (entry : String × Bytes) : Option ClasspathClass :=
  if isClassEntry entry.1 then
    (classOfFile? entry.1).map fun name => ⟨name, entrySource jar entry.1, .content entry.2⟩
  else none

def entryClasses (p : Path) : RunM m (List ClasspathClass) := do
  if ← isDirectory p then
    let found ← (← filesBelow maxDepth p).mapM (fileClass? p)
    pure (found.filterMap id)
  else if p.isJar then
    let archive ← file (.readArchive p) (FileAccess.readArchive p)
    pure (archive.files.filterMap (entryClass? p))
  else throw (.unsupportedClasspathEntry p)

/-- The classes that a classpath provides, by name. -/
def readClasspath (entries : List Path) : RunM m Classpath := do
  let found ← (← expandClasspath entries).mapM entryClasses
  let groups := groupByName found.flatten
  match groups.filterMap duplicate? with
  | [] => pure ((groups.filterMap List.head?).map fun c => (c.name, c.file))
  | duplicates => throw (.duplicateClasses duplicates)

end RunM

end JvmPatch
