import JvmPatch.Files.Path

/-! What can go wrong with files. -/

set_option autoImplicit false

namespace JvmPatch

/-- Why a file cannot be used. -/
inductive FileError
  | notFound
  | alreadyExists
  | notDirectory
  | isDirectory
  | nameTooLong
  /-- No name of a file has a character NUL. -/
  | nulInName
  /-- The file is not text. -/
  | notUtf8
  /-- The file is not an archive. -/
  | notArchive
  /-- Any other answer of the operating system. -/
  | other (message : String)
  deriving DecidableEq, Repr

def FileError.message : FileError → String
  | .notFound => "No such file or directory (os error 2)"
  | .alreadyExists => "File exists (os error 17)"
  | .notDirectory => "Not a directory (os error 20)"
  | .isDirectory => "Is a directory (os error 21)"
  | .nameTooLong => "File name too long (os error 36)"
  | .nulInName => "file name contained an unexpected NUL byte"
  | .notUtf8 => "stream did not contain valid UTF-8"
  | .notArchive => "invalid Zip archive"
  | .other message => message

/-- A file that cannot be read. -/
structure UnreadableFile where
  path : Path
  cause : FileError
  deriving DecidableEq, Repr

def UnreadableFile.message (f : UnreadableFile) : String :=
  "failed to read " ++ f.path.text ++ ": " ++ f.cause.message

end JvmPatch
