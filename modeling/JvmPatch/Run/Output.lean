import JvmPatch.Listing.Class
import JvmPatch.Report.Json
import JvmPatch.Run.Input
import JvmPatch.Table

/-! What a run leaves behind: the classes as files or as an archive, listings and the report. -/

set_option autoImplicit false

namespace JvmPatch

/-- The files of all classes of a set that are not stubs, with their names. -/
def ClassSet.outputFiles (set : ClassSet) : Except EncodeError (List (String × Bytes)) :=
  (set.candidates.filter fun id => !(set.classAt id).isExternal).mapM fun id => do
    pure (classFileName (set.classAt id).name, ← set.store id)

namespace RunM

variable {m : Type → Type} [Monad m] [FileAccess m]

/-- Makes the directory above a path, unless that is the one from which relative paths start. -/
def makeParent (p : Path) : RunM m Unit :=
  match p.parent? with
  | none => pure ()
  | some above =>
    if above.text = "" then pure () else file (.create above) (FileAccess.makeDirectories above)

/-- Writes files below a directory. A name that starts at the root, or that leads upwards, is taken
as it is. -/
def writeDirectory (output : Path) (files : List (String × Bytes)) : RunM m Unit :=
  files.forM fun e => do
    let p := output.join ⟨e.1⟩
    makeParent p
    file (.write p) (FileAccess.writeFile p e.2)

/-- Writes files and resources into an archive, by name. A file takes the place of a resource of the
same name. -/
def writeJar (output : Path) (resources files : List (String × Bytes)) : RunM m Unit := do
  makeParent output
  file (.create output)
    (FileAccess.writeArchive output (Table.ofList (resources ++ files)).entries)

/-- Writes the classes of a set. Nothing is written unless every class has a file. -/
def writeOutput (set : ClassSet) (output : Path) (resources : Archive) : RunM m Unit :=
  match set.outputFiles with
  | .error e => throw (.encode e)
  | .ok files =>
    if output.isJar then writeJar output resources files else writeDirectory output files

def listedClasses (set : ClassSet) (name : String) : RunM m (List ClassId) :=
  if name = "*" then pure set.candidates
  else
    match (set.find? name).filter set.isCandidate with
    | some id => pure [id]
    | none => throw (.unknownClass name)

/-- Prints classes. Nothing is printed unless all of them are known. -/
def printListings (set : ClassSet) (names : List String) : RunM m Unit := do
  let ids ← names.mapM (listedClasses set)
  ids.flatten.forM fun id => file .printListing (FileAccess.print (set.listing id))

/-- Writes the report, or prints it if the path is a hyphen. -/
def writeReport (p : Path) (report : BindingReport) : RunM m Unit :=
  if p.components = [['-']] then file .printReport (FileAccess.print report.text)
  else file (.openReport p) (FileAccess.writeFile p report.text.toUTF8.toList)

end RunM

end JvmPatch
