import JvmPatch.Text.Blank

/-! Paths as texts. A slash separates the pieces of a path. Empty pieces and pieces of one dot say
nothing, except for the first piece: an empty one means the root, and a dot counts as a component. A
piece of two dots is a component like any other, for only a file tree knows where it leads. -/

set_option autoImplicit false

namespace JvmPatch

/-- A path. Two paths are the same if their texts are. -/
structure Path where
  text : String
  deriving DecidableEq, Repr, Inhabited

/-- What stands between the slashes of a text. There is always at least one piece. -/
def splitAtSlashes : List Char → List (List Char)
  | [] => [[]]
  | c :: s =>
    if c = '/' then [] :: splitAtSlashes s
    else
      match splitAtSlashes s with
      | [] => [[c]]
      | p :: ps => (c :: p) :: ps

/-- Whether a piece that is not the first one says nothing. -/
def isIdlePiece (piece : List Char) : Bool := piece == [] || piece == ['.']

def trimIdle (pieces : List (List Char)) : List (List Char) :=
  (pieces.reverse.dropWhile isIdlePiece).reverse

namespace Path

def pieces (p : Path) : List (List Char) := splitAtSlashes p.text.toList

/-- The path with the given pieces. A single empty piece stands for the root. -/
def ofPieces : List (List Char) → Path
  | [[]] => ⟨"/"⟩
  | ps => ⟨String.ofList (List.intercalate ['/'] ps)⟩

def isAbsolute (p : Path) : Bool := p.text.toList.head? == some '/'

/-- The pieces that say something. The empty piece stands for the root. -/
def components (p : Path) : List (List Char) :=
  if p.text = "" then []
  else
    match p.pieces with
    | [] => []
    | first :: rest => first :: rest.filter fun piece => !isIdlePiece piece

/-- The last component, if it is a name. -/
def fileName? (p : Path) : Option (List Char) :=
  p.components.getLast?.filter fun piece => !isIdlePiece piece && piece != ['.', '.']

/-- What follows the last dot of the file name, if something stands before that dot. -/
def extension? (p : Path) : Option (List Char) :=
  p.fileName?.bind fun name =>
    let ext := (name.reverse.takeWhile (· != '.')).reverse
    if ext.length + 1 < name.length then some ext else none

/-- Whether a path names an archive: its extension is `jar`, in small or capital letters. -/
def isJar (p : Path) : Bool := p.extension?.any fun ext => Text.sameIgnoringCase ext "jar".toList

def isClassFile (p : Path) : Bool := p.extension? == some "class".toList

/-- A path without its last component, nothing for the root and the empty path. -/
def parent? (p : Path) : Option Path :=
  match p.pieces with
  | [] => none
  | first :: rest =>
    match trimIdle rest with
    | [] => if first = [] then none else some ⟨""⟩
    | named => some (ofPieces (first :: trimIdle named.dropLast))

/-- A path as seen from another one. -/
def join (base p : Path) : Path :=
  if p.isAbsolute || base.text == "" then p
  else if base.text.toList.getLast? = some '/' then ⟨base.text ++ p.text⟩
  else ⟨base.text ++ "/" ++ p.text⟩

/-- Drops the first `n` components of pieces none of which is the first piece of a path, and the
idle pieces that then stand in front. -/
def dropComponents : Nat → List (List Char) → List (List Char)
  | 0, ps => ps.dropWhile isIdlePiece
  | n + 1, ps => dropComponents n ((ps.dropWhile isIdlePiece).drop 1)

/-- What follows the components of `root` in a path that starts with them. -/
def under? (root p : Path) : Option Path :=
  let head := root.components
  if !head.isPrefixOf p.components then none
  else
    match p.pieces, head.length with
    | [], _ => none
    | first :: rest, 0 => some (ofPieces (first :: trimIdle rest))
    | _ :: rest, n + 1 => some (ofPieces (trimIdle (dropComponents n rest)))

/-- Paths by their texts. -/
def sorted (paths : List Path) : List Path :=
  paths.mergeSort fun a b => (compare a.text b.text).isLE

end Path

end JvmPatch
