import JvmPatch.Files.Path
import JvmPatch.Text.Blank

/-! Manifests of archives. A line gives a key and a value with a colon between them; a line that
starts with a space goes on with the value of the line before. The value of `Class-Path` is a list
of paths as seen from the directory of the archive. -/

set_option autoImplicit false

namespace JvmPatch

def manifestEntry : String := "META-INF/MANIFEST.MF"

namespace Manifest

structure Attribute where
  key : List Char
  value : List Char
  deriving DecidableEq, Repr

def Attribute.ofLine? (line : List Char) : Option Attribute :=
  if line.contains ':' then
    some ⟨Text.trim (line.takeWhile (· != ':')),
      Text.trimStart ((line.dropWhile (· != ':')).drop 1)⟩
  else none

/-- The attributes of lines, where the first lines may go on with an attribute that has been
started. -/
def attributesFrom : Option Attribute → List (List Char) → List Attribute
  | started, [] => started.toList
  | started, (' ' :: more) :: lines =>
    attributesFrom (started.map fun a => { a with value := a.value ++ more }) lines
  | started, line :: lines => started.toList ++ attributesFrom (Attribute.ofLine? line) lines

/-- The lines of a manifest. Any number of carriage returns at the end of a line are dropped. -/
def lines (content : List Char) : List (List Char) :=
  (Text.lines content).map fun l => (l.reverse.dropWhile (· == '\r')).reverse

def attributes (content : List Char) : List Attribute := attributesFrom none (lines content)

/-- The value of `Class-Path`. If there are several, the last one counts. -/
def classPath? (content : List Char) : Option (List Char) :=
  ((attributes content).reverse.find? fun a => a.key == "Class-Path".toList).map Attribute.value

/-- The paths that the manifest of an archive refers to. -/
def paths (jar : Path) (content : List Char) : List Path :=
  let base := jar.parent?.getD ⟨""⟩
  (Text.words ((classPath? content).getD [])).map fun w => base.join ⟨String.ofList w.chars⟩

end Manifest

end JvmPatch
