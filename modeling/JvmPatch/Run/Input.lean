import JvmPatch.ClassFile.Reader
import JvmPatch.Files.Access
import JvmPatch.Jar.Manifest
import JvmPatch.Run.Error

/-! Reading what a run is given: class files, directories with class files, and archives. -/

set_option autoImplicit false

namespace JvmPatch

/-- A class of the input, the file it comes from and its bytes. -/
structure InputClass where
  source : String
  bytes : Bytes
  file : ClassFile
  deriving DecidableEq, Repr

structure Inputs where
  classes : List InputClass := []
  /-- The entries of archives that are not class files. -/
  resources : Archive := []
  /-- The paths that the manifests of archives refer to. -/
  references : List Path := []
  deriving DecidableEq, Repr

def Inputs.concat (parts : List Inputs) : Inputs :=
  ⟨parts.flatMap Inputs.classes, parts.flatMap Inputs.resources, parts.flatMap Inputs.references⟩

def entrySource (jar : Path) (name : String) : String := jar.text ++ ":" ++ name

namespace RunM

variable {m : Type → Type} [Monad m] [FileAccess m]

/-- Turns the error of a file operation into one of the run. -/
def file {α : Type} (f : FileError → RunError) (x : m (Except FileError α)) : RunM m α := do
  match ← (x : m (Except FileError α)) with
  | .ok a => pure a
  | .error e => throw (f e)

def isPresent (p : Path) : RunM m Bool := (FileAccess.isPresent p : m Bool)

def isDirectory (p : Path) : RunM m Bool := (FileAccess.isDirectory p : m Bool)

/-- The files below a directory. What is in one directory comes by the text of its path, and what is
in a directory comes in its place. -/
def filesBelow : Nat → Path → RunM m (List Path)
  | 0, _ => pure []
  | depth + 1, dir => do
    let found ← file (.readDirectory dir) (FileAccess.children dir)
    let below ← found.mapM fun p => do
      if ← isDirectory p then filesBelow depth p else pure [p]
    pure below.flatten

/-- A bound for the depth of directories: each level adds at least two bytes to a path. -/
def maxDepth : Nat := maxPathBytes / 2 + 1

def parseClass (source : String) (bytes : Bytes) : RunM m InputClass :=
  match ClassFile.read bytes with
  | .ok file => pure ⟨source, bytes, file⟩
  | .error e => throw (.parse source e)

def readClassFile (p : Path) : RunM m Inputs := do
  let bytes ← file (.readFile p) (FileAccess.readFile p)
  pure { classes := [← parseClass p.text bytes] }

/-- The paths that the manifest of an archive refers to. An archive need not have a manifest. -/
def manifestPaths (p : Path) : RunM m (List Path) := do
  let archive ← file (.readArchive p) (FileAccess.readArchive p)
  match archive.lookup manifestEntry with
  | none => pure []
  | some bytes =>
    match Text.decodeUtf8? bytes with
    | none => throw (.readManifest p .notUtf8)
    | some content => pure (Manifest.paths p content)

def readEntry (p : Path) (entry : String × Bytes) : RunM m Inputs := do
  if isClassEntry entry.1 then
    pure { classes := [← parseClass (entrySource p entry.1) entry.2] }
  else pure { resources := [entry] }

def readJar (p : Path) : RunM m Inputs := do
  let archive ← file (.readArchive p) (FileAccess.readArchive p)
  let parts ← archive.files.mapM (readEntry p)
  pure { Inputs.concat parts with references := ← manifestPaths p }

/-- Reads what a path names. Of a directory, the class files below it count. -/
def readInput (p : Path) : RunM m Inputs := do
  if ← isDirectory p then
    let files ← filesBelow maxDepth p
    pure (.concat (← (files.filter Path.isClassFile).mapM readClassFile))
  else if p.isClassFile then readClassFile p
  else if p.isJar then readJar p
  else throw (.unsupportedInput p)

def readInputs (paths : List Path) : RunM m Inputs := do
  pure (.concat (← (Path.sorted paths).mapM readInput))

end RunM

end JvmPatch
