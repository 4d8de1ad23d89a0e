import JvmPatch.ClassFile.Basic
import JvmPatch.Files.Path

/-! The entries of an archive and which of them are class files. -/

set_option autoImplicit false

namespace JvmPatch

/-! ### The names of class files: the file of a class has the name of the class and the extension
`class` -/

def classFileName (name : String) : String := name ++ ".class"

/-- The class that a file is there for, by the name of the file. Module descriptors are no
classes. -/
def classOfFile? (name : String) : Option String :=
  let ending := ".class".toList
  let s := name.toList
  if ending.isSuffixOf s then
    let stem := s.take (s.length - ending.length)
    if "module-info".toList.isSuffixOf stem then none else some (String.ofList stem)
  else none

/-- The class that a file below a directory of classes is there for. -/
def Path.classUnder? (root p : Path) : Option String :=
  (root.under? p).bind fun rest => classOfFile? rest.text

/-! ### Entries -/

/-- The entries of an archive with their names, in the order in which they are stored. -/
abbrev Archive := List (String × Bytes)

def isDirectoryEntry (name : String) : Bool :=
  name.toList.getLast? == some '/' || name.toList.getLast? == some '\\'

/-- Whether an entry is a class file that counts. A variant of a class for a newer platform does
not. -/
def isClassEntry (name : String) : Bool :=
  (classOfFile? name).isSome && !"META-INF/versions/".toList.isPrefixOf name.toList

def Archive.files (archive : Archive) : Archive :=
  (archive.filter fun e => !isDirectoryEntry e.1).mergeSort fun a b => (compare a.1 b.1).isLE

end JvmPatch
