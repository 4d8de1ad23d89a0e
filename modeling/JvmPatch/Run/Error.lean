import JvmPatch.Apply.Error
import JvmPatch.ClassFile.Writer
import JvmPatch.ClassSet.Loading
import JvmPatch.Files.Access
import JvmPatch.Files.Path
import JvmPatch.Resolve.Search
import JvmPatch.Script.Error

/-! Why a run fails. -/

set_option autoImplicit false

namespace JvmPatch

structure DuplicateClass where
  name : String
  sources : List String
  deriving DecidableEq, Repr

/-- The wording for a class that several files provide. -/
def DuplicateClass.message (d : DuplicateClass) : String :=
  d.name ++ ": " ++ " ".intercalate d.sources

inductive RunError
  | missingInput (p : Path)
  | missingClasspathEntry (p : Path)
  | readPatch (p : Path) (cause : FileError)
  | script (p : Path) (cause : ScriptError)
  | unsupportedInput (p : Path)
  | unsupportedClasspathEntry (p : Path)
  | readDirectory (p : Path) (cause : FileError)
  | readFile (p : Path) (cause : FileError)
  | readArchive (p : Path) (cause : FileError)
  | readManifest (p : Path) (cause : FileError)
  /-- An input is not a class file that can be used. -/
  | parse (source : String) (cause : ReadError)
  | duplicateClasses (classes : List DuplicateClass)
  | load (source : String) (cause : ClassSetError)
  /-- The classes cannot be made ready for a script. -/
  | prepare (cause : ClassSetError)
  | resolve (patch : String) (cause : NoMatch)
  /-- The program stops because it asks for a list that is too large. -/
  | capacityOverflow
  | apply (patch : String) (cause : ApplyError)
  | encode (cause : EncodeError)
  | create (p : Path) (cause : FileError)
  | write (p : Path) (cause : FileError)
  | openReport (p : Path) (cause : FileError)
  | printListing (cause : FileError)
  | printReport (cause : FileError)
  /-- A class that is to be listed is not among those that can be matched. -/
  | unknownClass (name : String)
  deriving DecidableEq, Repr

/-- The wording of what shows while an archive is read: what fails, and for what lies beneath the
archive also its cause. -/
def FileError.inArchive : FileError → String
  | .notArchive => FileError.notArchive.message
  | e => "i/o error: " ++ e.message ++ ": " ++ e.message

def RunError.message : RunError → String
  | .missingInput p => "input not found: " ++ p.text
  | .missingClasspathEntry p => "classpath entry not found: " ++ p.text
  | .readPatch p cause => "failed to read patch " ++ p.text ++ ": " ++ cause.message
  | .script p cause => "invalid patch " ++ p.text ++ ": " ++ cause.message
  | .unsupportedInput p => "unsupported input file: " ++ p.text
  | .unsupportedClasspathEntry p => "unsupported classpath entry: " ++ p.text
  | .readDirectory p cause => "failed to read directory " ++ p.text ++ ": " ++ cause.message
  | .readFile p cause => (UnreadableFile.mk p cause).message
  | .readArchive p cause => "failed to read " ++ p.text ++ ": " ++ cause.inArchive
  | .readManifest p cause => "failed to read manifest of " ++ p.text ++ ": " ++ cause.message
  | .parse source cause => "failed to parse " ++ source ++ ": " ++ cause.message
  | .duplicateClasses classes =>
    "duplicate classes found: " ++ ", ".intercalate (classes.map DuplicateClass.message)
  | .load source cause => "failed to load " ++ source ++ ": " ++ cause.message
  | .prepare cause => cause.message
  | .resolve patch cause => "failed to resolve " ++ patch ++ ": " ++ cause.message
  | .capacityOverflow => ResolveError.capacityOverflow.message
  | .apply patch cause => "failed to apply " ++ patch ++ ": " ++ cause.message
  | .encode cause => cause.message
  | .create p cause => "failed to create " ++ p.text ++ ": " ++ cause.message
  | .write p cause => "failed to write " ++ p.text ++ ": " ++ cause.message
  | .openReport p cause => "failed to open " ++ p.text ++ ": " ++ cause.message
  | .printListing cause => "failed to write disassembly: " ++ cause.message
  | .printReport cause => "failed to serialize binding report: " ++ cause.message
  | .unknownClass name => "class not found: " ++ name

/-- A run with files, up to an error. -/
abbrev RunM (m : Type → Type) := ExceptT RunError m

end JvmPatch
