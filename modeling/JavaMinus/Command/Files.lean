import JavaMinus.Command.Path

/-!
# Files

The commands reach files through the class `Files`. `FileStore` is the instance in memory: a tree of
files and folders, in which one folder is the one to work in. It answers like a file system does,
error for error.
-/

namespace JavaMinus

inductive FileError where
  | notFound
  | alreadyExists
  | notFolder
  | isFolder
  | nameTooLong
  | zeroCharacter
  | other (text : String)
deriving DecidableEq

def FileError.text : FileError → String
  | .notFound => "No such file or directory (os error 2)"
  | .alreadyExists => "File exists (os error 17)"
  | .notFolder => "Not a directory (os error 20)"
  | .isFolder => "Is a directory (os error 21)"
  | .nameTooLong => "File name too long (os error 36)"
  | .zeroCharacter => "file name contained an unexpected NUL byte"
  | .other text => text

inductive FileKind where
  | file
  | folder
deriving DecidableEq

/-- What commands do with files. -/
class Files (m : Type → Type) where
  /-- What is at a path, if anything. -/
  kind? : Path → m (Option FileKind)
  read : Path → m (Except FileError String)
  /-- Write a file, new or in place of an older one. -/
  write : Path → String → m (Except FileError Unit)
  /-- Make a folder inside one that exists. -/
  makeFolder : Path → m (Except FileError Unit)

namespace Files

variable {m : Type → Type} [Monad m] [Files m]

def isFile (p : Path) : m Bool :=
  return (← kind? p) = some .file

def isFolder (p : Path) : m Bool :=
  return (← kind? p) = some .folder

/-- Make a folder; a folder that is already there will do. -/
def ensureFolder (p : Path) : m (Except FileError Unit) := do
  match ← makeFolder p with
  | .ok () => return .ok ()
  | .error e => return if ← isFolder p then .ok () else .error e

/-- Make the first folder of a lineage, after those above it that are missing. -/
def ensureLineage : List Path → m (Except FileError Unit)
  | [] => return .error (.other "failed to create whole tree")
  | p :: upper => do
    if p.text.isEmpty then return .ok ()
    match ← ensureFolder p with
    | .error .notFound =>
      match ← ensureLineage upper with
      | .ok () => ensureFolder p
      | .error e => return .error e
    | result => return result

/-- Make a folder with all folders above it. -/
def makeFolders (p : Path) : m (Except FileError Unit) :=
  ensureLineage (p :: p.above)

end Files

/-! ### Files in memory -/

/-- A file with its text, or a folder with what it holds by name. -/
inductive FileTree where
  | file (text : String)
  | folder (entries : List (String × FileTree))
deriving Inhabited

namespace FileTree

def kind : FileTree → FileKind
  | .file _ => .file
  | .folder _ => .folder

/-- Set what a folder holds under a name. -/
def setEntry (name : String) (tree : FileTree) : List (String × FileTree) → List (String × FileTree)
  | [] => [(name, tree)]
  | e :: rest => if e.1 == name then (name, tree) :: rest else e :: setEntry name tree rest

/-- What is at a place below a tree, given by the names that lead to it. -/
def get? : List String → FileTree → Option FileTree
  | [], here => some here
  | name :: rest, .folder entries => (entries.lookup name).bind (get? rest)
  | _ :: _, .file _ => none

/-- Put a tree at a place. Folders that are missing on the way are made. -/
def put (tree : FileTree) : List String → Option FileTree → FileTree
  | [], _ => tree
  | name :: rest, here =>
    let entries := match here with
      | some (.folder entries) => entries
      | _ => []
    .folder (setEntry name (put tree rest (entries.lookup name)) entries)

mutual

/-- The files in a tree with the names that lead to them. -/
def files : FileTree → List (List String × String)
  | .file text => [([], text)]
  | .folder entries => filesIn entries

def filesIn : List (String × FileTree) → List (List String × String)
  | [] => []
  | (name, tree) :: rest => (files tree).map (fun f => (name :: f.1, f.2)) ++ filesIn rest

end

end FileTree

/-- A file system in memory. The folder to work in has the empty name in the root folder, so that
paths reach the root from it but find no way back. -/
structure FileStore where
  root : FileTree := .folder [
    ("", .folder []),
    ("dev", .folder [("null", .file "")]),
    ("tmp", .folder [])]

namespace FileStore

/-- A name has at most this many bytes. -/
def maxNameSize : Nat := 255

/-- A path has at most this many bytes. -/
def maxPathSize : Nat := 4095

/-- The place of the folder to work in. -/
def workPlace : List String := [""]

/-- Where a path leads: the names from the root, and what is there. -/
structure Spot where
  names : List String
  tree : Option FileTree

/-- Follow the pieces of a path. All but the last place reached must be folders. `above` holds the
names and folders passed on the way here, the nearest first. The root is above itself. -/
def walk (here : Option FileTree) (above : List (String × FileTree)) :
    List String → Except FileError Spot
  | [] => .ok { names := (above.map Prod.fst).reverse, tree := here }
  | piece :: rest =>
    match here with
    | none => .error .notFound
    | some (.file _) => .error .notFolder
    | some (.folder entries) =>
      if piece.isEmpty || piece == "." then walk here above rest
      else if piece == ".." then
        match above with
        | [] => walk here [] rest
        | (_, upper) :: more => walk (some upper) more rest
      else if piece.utf8ByteSize > maxNameSize then .error .nameTooLong
      else walk (entries.lookup piece) ((piece, .folder entries) :: above) rest

/-- Follow pieces from the root or from the folder to work in. -/
def follow (s : FileStore) (p : Path) (pieces : List String) : Except FileError Spot :=
  if p.text.toList.contains '\x00' then .error .zeroCharacter
  else if p.text.utf8ByteSize > maxPathSize then .error .nameTooLong
  else if p.text.isEmpty then .error .notFound
  else if p.isAbsolute then walk (some s.root) [] pieces
  else walk (s.root.get? workPlace) (workPlace.map fun name => (name, s.root)) pieces

/-- The spot to which a path leads. -/
def locate (s : FileStore) (p : Path) : Except FileError Spot :=
  s.follow p p.pieces

def kind? (s : FileStore) (p : Path) : Option FileKind :=
  match s.locate p with
  | .ok spot => spot.tree.map FileTree.kind
  | .error _ => none

def read (s : FileStore) (p : Path) : Except FileError String := do
  match (← s.locate p).tree with
  | some (.file text) => return text
  | some (.folder _) => throw .isFolder
  | none => throw .notFound

/-- Put a tree at a place below the root. -/
def put (s : FileStore) (names : List String) (tree : FileTree) : FileStore :=
  { root := tree.put names s.root }

def write (s : FileStore) (p : Path) (text : String) : Except FileError FileStore := do
  let spot ← s.locate p
  match spot.tree with
  | some (.folder _) => throw .isFolder
  | _ => return s.put spot.names (.file text)

/-- Slashes after the last name of a new folder say nothing. -/
def makeFolder (s : FileStore) (p : Path) : Except FileError FileStore := do
  let spot ← s.follow p (p.pieces.reverse.dropWhile String.isEmpty).reverse
  match spot.tree with
  | some _ => throw .alreadyExists
  | none => return s.put spot.names (.folder [])

/-- Run a step on the store that changes nothing if it fails. -/
def change (step : FileStore → Except FileError FileStore) :
    StateM FileStore (Except FileError Unit) :=
  modifyGet fun s =>
    match step s with
    | .ok after => (.ok (), after)
    | .error e => (.error e, s)

instance : Files (StateM FileStore) where
  kind? p := return (← get).kind? p
  read p := return (← get).read p
  write p text := change fun s => s.write p text
  makeFolder p := change fun s => s.makeFolder p

/-- Add a folder below the one to work in, with all folders above it. -/
def addFolder (s : FileStore) (names : List String) : FileStore :=
  let place := workPlace ++ names
  if (s.root.get? place).isSome then s else s.put place (.folder [])

/-- Add a file below the folder to work in, with all folders above it. -/
def addFile (s : FileStore) (names : List String) (text : String) : FileStore :=
  s.put (workPlace ++ names) (.file text)

/-- The tree below the folder to work in. -/
def work (s : FileStore) : FileTree :=
  (s.root.get? workPlace).getD (.folder [])

/-- The files of `after` below the folder to work in that are new or have another text than in
`before`. -/
def changes (before after : FileStore) : List (List String × String) :=
  after.work.files.filter fun (names, text) =>
    match before.work.get? names with
    | some (.file old) => old != text
    | _ => true

end FileStore

end JavaMinus
