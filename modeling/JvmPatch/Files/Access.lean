import JvmPatch.Files.Error
import JvmPatch.Files.Path
import JvmPatch.Jar.Entry
import JvmPatch.Text.ModifiedUtf8

/-! What a run can do with files and with its output. A run is written against these operations
only, so it is the same program on a disk and on a file tree in memory. -/

set_option autoImplicit false

namespace JvmPatch

/-- A monad with files and an output. A path that names nothing, or that cannot be used, is not
present. -/
class FileAccess (m : Type → Type) where
  isPresent : Path → m Bool
  isDirectory : Path → m Bool
  /-- The names in a directory, in any order. -/
  names : Path → m (Except FileError (List String))
  readFile : Path → m (Except FileError Bytes)
  readArchive : Path → m (Except FileError Archive)
  /-- Makes a directory and those above it, as far as they are missing. -/
  makeDirectories : Path → m (Except FileError Unit)
  /-- Puts a file at a path, in place of the one that is there. -/
  writeFile : Path → Bytes → m (Except FileError Unit)
  writeArchive : Path → Archive → m (Except FileError Unit)
  print : String → m (Except FileError Unit)

/-- The largest number of bytes in a path that can be used. -/
def maxPathBytes : Nat := 4095

/-- The largest number of bytes in the name of a file. -/
def maxNameBytes : Nat := 255

namespace FileAccess

variable {m : Type → Type} [Monad m] [FileAccess m]

/-- The paths of what is in a directory, by their texts. -/
def children (dir : Path) : m (Except FileError (List Path)) := do
  match ← names dir with
  | .error e => pure (.error e)
  | .ok found => pure (.ok (Path.sorted (found.map fun name => dir.join ⟨name⟩)))

def readText (p : Path) : m (Except FileError String) := do
  match ← readFile p with
  | .error e => pure (.error e)
  | .ok bytes =>
    match Text.decodeUtf8? bytes with
    | some s => pure (.ok (String.ofList s))
    | none => pure (.error .notUtf8)

end FileAccess

end JvmPatch
