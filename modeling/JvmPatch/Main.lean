import JvmPatch.Run.Basic
import JvmPatch.Zip.Archive

/-! The command line: it carries out a run on the files of the disk. -/

set_option autoImplicit false

namespace JvmPatch

/-- The file error for an error of the system. -/
def FileError.ofIO : IO.Error → FileError
  | .noFileOrDirectory .. => .notFound
  | .alreadyExists .. => .alreadyExists
  | .inappropriateType _ 21 _ => .isDirectory
  | .inappropriateType .. => .notDirectory
  | e => .other (toString e)

/-- Carries out a file operation. -/
def attempt {α : Type} (x : IO α) : IO (Except FileError α) := do
  try
    return .ok (← x)
  catch e =>
    return .error (.ofIO e)

instance : FileAccess IO where
  isPresent p := do return (← attempt (IO.FS.realPath p.text)).toBool
  isDirectory p := do
    match ← attempt (IO.FS.realPath p.text) with
    | .ok place => place.isDir
    | .error _ => return false
  names p := attempt do
    return ((← (← IO.FS.realPath p.text).readDir).map fun e => e.fileName).toList
  readFile p := attempt do return (← IO.FS.readBinFile p.text).toList
  readArchive p := do
    match ← attempt (IO.FS.readBinFile p.text) with
    | .error e => return .error e
    | .ok bytes =>
      match Zip.decode? bytes.data with
      | some archive => return .ok archive
      | none => return .error .notArchive
  makeDirectories p := attempt (IO.FS.createDirAll p.text)
  writeFile p bytes := attempt (IO.FS.writeBinFile p.text ⟨bytes.toArray⟩)
  writeArchive p archive := attempt (IO.FS.writeBinFile p.text ⟨(Zip.encode archive).toArray⟩)
  print s := attempt (IO.print s)

end JvmPatch

open JvmPatch in
def main (args : List String) : IO UInt32 := do
  match Options.ofWords args with
  | none =>
    IO.eprintln "usage: --input PATH... [--classpath PATH]... [--patch PATH]... [--output PATH]"
    IO.eprintln "  [--disassemble CLASS]... [--report PATH] [--batch-size N]"
    IO.eprintln "  [--sequential] [--quiet] [--timing]"
    return 2
  | some o =>
    match ← (o.run : RunM IO Unit).run with
    | .ok _ => return 0
    | .error e =>
      IO.eprintln ("Error: " ++ e.message)
      return 1
