import JavaMinus.Toml.Moment

/-!
# TOML documents

A document is a tree of tables. Its lines are read from top to bottom: a header `[a.b]` opens a
table, a header `[[a.b]]` appends a table to an array of tables, and an entry `a.b = v` sets a key
inside the table opened last. How a table came to be decides who may extend it later, so every
table carries its `Origin`. No key is ever set twice.
-/

namespace JavaMinus

/-- How a table came to be. -/
inductive Toml.Origin where
  /-- A header names it. -/
  | header
  /-- It stands on the way to a table that a header names; a header of its own may still follow. -/
  | implied
  /-- A dotted key made it, and other dotted keys may extend it. -/
  | dotted
  /-- It is written between braces and complete. -/
  | inline
deriving DecidableEq

inductive Toml where
  | bool (value : Bool)
  | int (value : Int)
  /-- A number that is no integer, kept as it is written. -/
  | real (token : String)
  | str (value : String)
  | moment (value : Toml.Moment)
  | list (items : List Toml)
  | table (origin : Toml.Origin) (entries : List (String × Toml))
  /-- The tables appended by headers with double brackets, in order. -/
  | tables (elements : List (List (String × Toml)))
deriving Inhabited

namespace Toml

/-- The keys of a table with their values, in the order in which they were set first. -/
abbrev Entries := List (String × Toml)

/-- One line of a document. A path is never empty. -/
inductive Line where
  | header (path : List String)
  | element (path : List String)
  | entry (path : List String) (value : Toml)

namespace Entries

/-- Set `key`, in its old place if there is one. -/
def set (entries : Entries) (key : String) (value : Toml) : Entries :=
  if (entries.lookup key).isSome then
    entries.map fun e => if e.1 == key then (key, value) else e
  else entries ++ [(key, value)]

/-- Change the table at `path` the way a header reaches it: missing tables on the way are implied,
an array of tables stands for its last element, and inline tables and other values bar the way. -/
def update (change : Entries → Option Entries) : List String → Entries → Option Entries
  | [], entries => change entries
  | key :: path, entries =>
    match entries.lookup key with
    | none => do return entries.set key (.table .implied (← update change path []))
    | some (.table .inline _) => none
    | some (.table origin sub) => do
      return entries.set key (.table origin (← update change path sub))
    | some (.tables elements) => do
      let last ← elements.getLast?
      return entries.set key (.tables (elements.dropLast ++ [← update change path last]))
    | some _ => none

/-- Set the dotted key `path`. The tables on its way must come from dotted keys or, but for the last
of them, be implied; missing ones are made. The key itself must be new. -/
def insert (value : Toml) : List String → Entries → Option Entries
  | [], _ => none
  | [key], entries => if (entries.lookup key).isSome then none else some (entries.set key value)
  | key :: path, entries =>
    match entries.lookup key with
    | none => do return entries.set key (.table .dotted (← insert value path []))
    | some (.table .dotted sub) => do return entries.set key (.table .dotted (← insert value path sub))
    | some (.table .implied sub) => do
      guard (path.length ≠ 1)
      return entries.set key (.table .implied (← insert value path sub))
    | some (.tables elements) => do
      guard (path.length ≠ 1)
      let last ← elements.getLast?
      return entries.set key (.tables (elements.dropLast ++ [← insert value path last]))
    | some _ => none

/-- Open the table `key` for a header: it is new, or was only implied so far. -/
def openTable (key : String) (entries : Entries) : Option Entries :=
  match entries.lookup key with
  | none => some (entries.set key (.table .header []))
  | some (.table .implied sub) => some (entries.set key (.table .header sub))
  | some _ => none

/-- Append a table to the array of tables `key`. -/
def openElement (key : String) (entries : Entries) : Option Entries :=
  match entries.lookup key with
  | none => some (entries.set key (.tables [[]]))
  | some (.tables elements) => some (entries.set key (.tables (elements ++ [[]])))
  | some _ => none

end Entries

/-- A document read so far: the tree, and the path of the table opened last. -/
structure Document where
  root : Entries := []
  current : List String := []

namespace Document

def addLine (d : Document) : Line → Option Document
  | .header path => do
    let key ← path.getLast?
    return { root := ← d.root.update (Entries.openTable key) path.dropLast, current := path }
  | .element path => do
    let key ← path.getLast?
    return { root := ← d.root.update (Entries.openElement key) path.dropLast, current := path }
  | .entry path value => do
    return { d with root := ← d.root.update (Entries.insert value path) d.current }

/-- The tree of a document. -/
def ofLines? (lines : List Line) : Option Entries :=
  (lines.foldlM addLine {}).map Document.root

end Document

/-- An inline table; its keys may be dotted. -/
def inlineTable? (entries : List (List String × Toml)) : Option Toml :=
  (entries.foldlM (fun table e => Entries.insert e.2 e.1 table) []).map (.table .inline)

end Toml

end JavaMinus
