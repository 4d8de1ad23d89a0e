import JvmPatch.Files.Access
import JvmPatch.Table
import JvmPatch.Zip.Archive

/-! File trees in memory: directories, files and archives by the names that lead to them from the
root. There are no links, so every file has one place, though many paths may lead to it. -/

set_option autoImplicit false

namespace JvmPatch

/-- The names that lead from the root to a place. -/
abbrev Location := List String

inductive FileNode
  | directory
  | file (content : Bytes)
  | archive (entries : Archive)
  deriving DecidableEq, Repr

/-- What stands where. The root is always a directory. -/
structure FileTree where
  nodes : Table Location FileNode := {}
  deriving DecidableEq, Repr

/-- Where a path leads that is to name something new. -/
inductive PathEnd
  /-- To the root, or to a directory by a piece of dots. -/
  | directory
  /-- To a name in a directory; a slash may follow the name. -/
  | entry (place : Location) (slashed : Bool)
  deriving DecidableEq, Repr

namespace FileTree

/-- The directory from which relative paths start. -/
def home : Location := ["home"]

def node? (t : FileTree) (place : Location) : Option FileNode :=
  if place = [] then some .directory else t.nodes.get? place

def hasDirectory (t : FileTree) (place : Location) : Bool := t.node? place == some .directory

def put (t : FileTree) (place : Location) (node : FileNode) : FileTree :=
  ⟨t.nodes.insert place node⟩

def namesAt (t : FileTree) (place : Location) : List String :=
  (t.nodes.keys.filter fun key => key.length == place.length + 1 && key.dropLast == place).filterMap
    List.getLast?

/-- Where a piece of a path leads from a place. -/
def step (t : FileTree) (place : Location) (piece : List Char) : Except FileError Location :=
  if !t.hasDirectory place then .error .notDirectory
  else if isIdlePiece piece then .ok place
  else if piece = ['.', '.'] then .ok place.dropLast
  else
    let name := String.ofList piece
    if (t.node? (place ++ [name])).isSome then .ok (place ++ [name])
    else if maxNameBytes < name.utf8ByteSize then .error .nameTooLong
    else .error .notFound

def start (p : Path) : Location := if p.isAbsolute then [] else home

def checkPath (p : Path) : Except FileError Unit :=
  if p.text.toList.contains '\x00' then .error .nulInName
  else if p.text = "" then .error .notFound
  else if maxPathBytes < p.text.utf8ByteSize then .error .nameTooLong
  else .ok ()

def locate (t : FileTree) (p : Path) : Except FileError Location := do
  checkPath p
  p.pieces.foldlM t.step (start p)

def find (t : FileTree) (p : Path) : Except FileError FileNode := do
  match t.node? (← t.locate p) with
  | some node => pure node
  | none => throw .notFound

def isPresent (t : FileTree) (p : Path) : Bool := (t.locate p).toBool

def isDirectory (t : FileTree) (p : Path) : Bool :=
  match t.find p with
  | .ok .directory => true
  | _ => false

def names (t : FileTree) (p : Path) : Except FileError (List String) := do
  let place ← t.locate p
  if t.hasDirectory place then pure (t.namesAt place) else throw .notDirectory

def readFile (t : FileTree) (p : Path) : Except FileError Bytes := do
  match ← t.find p with
  | .directory => throw .isDirectory
  | .file content => pure content
  | .archive entries => pure (Zip.encode entries)

def readArchive (t : FileTree) (p : Path) : Except FileError Archive := do
  match ← t.find p with
  | .directory => throw .isDirectory
  | .file _ => throw .notArchive
  | .archive entries => pure entries

/-- Where a path leads, all of whose pieces but the last one have to be there. -/
def pathEnd (t : FileTree) (p : Path) : Except FileError PathEnd := do
  checkPath p
  let slashes := p.pieces.reverse.takeWhile List.isEmpty
  match p.pieces.reverse.dropWhile List.isEmpty with
  | [] => pure .directory
  | last :: before =>
    let place ← before.reverse.foldlM t.step (start p)
    if last = ['.'] ∨ last = ['.', '.'] then
      let _ ← t.step place last
      pure .directory
    else if !t.hasDirectory place then throw .notDirectory
    else
      let name := String.ofList last
      if maxNameBytes < name.utf8ByteSize then throw .nameTooLong
      else pure (.entry (place ++ [name]) !slashes.isEmpty)

/-- Makes a directory in a directory that is there. -/
def makeDirectory (t : FileTree) (p : Path) : Except FileError FileTree := do
  match ← t.pathEnd p with
  | .directory => throw .alreadyExists
  | .entry place _ =>
    if (t.node? place).isSome then throw .alreadyExists else pure (t.put place .directory)

/-- Puts a file or an archive at a path. -/
def putFile (t : FileTree) (p : Path) (node : FileNode) : Except FileError FileTree := do
  match ← t.pathEnd p with
  | .directory => throw .isDirectory
  | .entry place slashed =>
    if slashed || t.hasDirectory place then throw .isDirectory else pure (t.put place node)

/-- Makes the first of the given directories, and before that the ones behind it as far as they are
missing. What is made stays, even if a later step fails. -/
def makeDirectories (t : FileTree) : List Path → Except FileError Unit × FileTree
  | [] => (.ok (), t)
  | p :: above =>
    if p.text = "" then (.ok (), t)
    else
      match t.makeDirectory p with
      | .ok made => (.ok (), made)
      | .error .notFound =>
        match t.makeDirectories above with
        | (.error e, made) => (.error e, made)
        | (.ok _, made) =>
          match made.makeDirectory p with
          | .ok made => (.ok (), made)
          | .error e => (if made.isDirectory p then .ok () else .error e, made)
      | .error e => (if t.isDirectory p then .ok () else .error e, t)

/-- A path and those above it. -/
def withAncestors : Nat → Path → List Path
  | 0, p => [p]
  | depth + 1, p =>
    match p.parent? with
    | none => [p]
    | some above => p :: withAncestors depth above

/-- Puts something below the directory from which relative paths start, and directories above it. -/
def place (t : FileTree) (names : List String) (node : FileNode) : FileTree :=
  let above := (List.range names.length).map fun n => home ++ names.take n
  let t := above.foldl (fun t dir => if (t.node? dir).isSome then t else t.put dir .directory) t
  t.put (home ++ names) node

/-- The tree with the given contents, by paths as seen from the directory from which relative paths
start. -/
def ofList (contents : List (String × FileNode)) : FileTree :=
  contents.foldl
    (fun t e => t.place ((Path.mk e.1).components.map String.ofList) e.2)
    ((FileTree.mk {}).put home .directory)

/-- What can be reached from the directory from which relative paths start, with the paths that lead
there. -/
def toList (t : FileTree) : List (String × FileNode) :=
  t.nodes.entries.filterMap fun e =>
    if home.isPrefixOf e.1 && e.1 != home then
      some ("/".intercalate (e.1.drop home.length), e.2)
    else none

end FileTree

/-- A file tree and what has been printed. -/
structure World where
  tree : FileTree := {}
  printed : String := ""
  /-- How many more texts can be printed, and why it is no more, if there is a limit. -/
  limit : Option (Nat × FileError) := none
  deriving DecidableEq, Repr

/-- Changes the tree of a world, unless the change is refused. -/
def World.update (f : FileTree → Except FileError FileTree) :
    StateM World (Except FileError Unit) :=
  fun w =>
    match f w.tree with
    | .ok tree => (.ok (), { w with tree := tree })
    | .error e => (.error e, w)

/-- Prints a text, unless nothing more can be printed. -/
def World.print (s : String) : StateM World (Except FileError Unit) := fun w =>
  match w.limit with
  | none => (.ok (), { w with printed := w.printed ++ s })
  | some (0, e) => (.error e, w)
  | some (n + 1, e) => (.ok (), { w with printed := w.printed ++ s, limit := some (n, e) })

instance : FileAccess (StateM World) where
  isPresent p := do pure ((← get).tree.isPresent p)
  isDirectory p := do pure ((← get).tree.isDirectory p)
  names p := do pure ((← get).tree.names p)
  readFile p := do pure ((← get).tree.readFile p)
  readArchive p := do pure ((← get).tree.readArchive p)
  makeDirectories p := fun w =>
    let (result, tree) := w.tree.makeDirectories (FileTree.withAncestors p.pieces.length p)
    (result, { w with tree := tree })
  writeFile p content := World.update fun t => t.putFile p (.file content)
  writeArchive p entries := World.update fun t => t.putFile p (.archive entries)
  print := World.print

end JvmPatch
