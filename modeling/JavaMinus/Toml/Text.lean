import JavaMinus.Toml.Basic
import JavaMinus.Toml.Moment
import JavaMinus.Toml.Number
import JavaMinus.Toml.Quoted

/-!
# Reading TOML

`Toml.parse?` reads the text of a document: comments, bare, quoted and dotted keys, both kinds of
header, and all kinds of value. Keys have fewer than `nestingLimit` parts, and values nest less than
that deep. A reader that repeats counts down from more than the length of the text, and takes a
character in every round.
-/

namespace JavaMinus.Toml

/-- Keys are shorter, and arrays and inline tables nest less deep than this. -/
def nestingLimit : Nat := 80

/-! ### Lines and comments -/

/-- A comment, if there is one, up to the end of its line. -/
def skipComment : Reader Unit :=
  modify fun cs => if cs.head? == some '#' then cs.dropWhile isTextChar else cs

/-- The rest of a line: blanks and a comment at most. -/
def endLine : Reader Unit := do
  skipBlanks
  skipComment
  unless (← get).isEmpty do newline

/-- Blanks, comments and line ends. -/
def skipLines : (bound : Nat) → Reader Unit
  | 0 => skipBlanks
  | bound + 1 => do
    skipBlanks
    match (← get).head? with
    | some '#' | some '\n' | some '\r' =>
      endLine
      skipLines bound
    | _ => return

/-! ### Keys and values -/

/-- One part of a key, with the blanks around it. -/
def keyPart : Reader String := do
  skipBlanks
  let part ←
    match (← get).head? with
    | some '"' | some '\'' => lineText
    | _ =>
      let run ← takeRun isBareKeyChar
      guard (!run.isEmpty)
      pure (String.ofList run)
  skipBlanks
  return part

/-- A key: its parts, divided by points. -/
def key : Reader (List String) := do
  let parts ← divided keyPart '.' ((← get).length + 1)
  guard (parts.length < nestingLimit)
  return parts

/-- An entry of a table whose values `item` reads. -/
def entry (item : Reader Toml) : Reader (List String × Toml) := do
  let path ← key
  expect '='
  skipBlanks
  let value ← item
  skipBlanks
  return (path, value)

/-- The rest of an array. A comma may also stand after the last item. -/
def arrayItems (item : Reader Toml) : (bound : Nat) → Reader (List Toml)
  | 0 => failure
  | bound + 1 => do
    skipLines bound
    if (← get).head? == some ']' then
      expect ']'
      return []
    let first ← item
    skipLines bound
    match ← next with
    | ',' => return first :: (← arrayItems item bound)
    | ']' => return [first]
    | _ => failure

/-- The rest of an inline table. -/
def inlineEntries (item : Reader Toml) : Reader (List (List String × Toml)) := do
  skipBlanks
  if (← get).head? == some '\x7d' then
    expect '\x7d'
    return []
  let entries ← divided (entry item) ',' ((← get).length + 1)
  expect '\x7d'
  return entries

/-- A value that holds no other value. -/
def scalar : Reader Toml := do
  match (← get).head? with
  | some '"' | some '\'' => return .str (← text)
  | _ => (return .moment (← Moment.read)) <|> (do ofWord? (← takeRun isWordChar))

/-- A value in which arrays and inline tables nest at most `depth` deep. -/
def value : (depth : Nat) → Reader Toml
  | 0 => scalar
  | depth + 1 => do
    match (← get).head? with
    | some '[' =>
      expect '['
      return .list (← arrayItems (value depth) ((← get).length + 1))
    | some '\x7b' =>
      expect '\x7b'
      inlineTable? (← inlineEntries (value depth))
    | _ => scalar

/-- One line that is neither blank nor a comment. -/
def line : Reader Line := do
  match ← get with
  | '[' :: '[' :: rest =>
    set rest
    let path ← key
    expect ']'
    expect ']'
    return .element path
  | '[' :: rest =>
    set rest
    let path ← key
    expect ']'
    return .header path
  | _ =>
    let (path, v) ← entry (value (nestingLimit - 1))
    return .entry path v

/-- The lines of a document. -/
def lines : (bound : Nat) → Reader (List Line)
  | 0 => failure
  | bound + 1 => do
    skipLines bound
    if (← get).isEmpty then return []
    let first ← line
    endLine
    return first :: (← lines bound)

/-- The tree of the document with the given text; a byte order mark may stand in front. -/
def parse? (source : String) : Option Entries := do
  let cs := source.toList
  let body := if cs.head? == some '\ufeff' then cs.drop 1 else cs
  let (ls, _) ← (lines (body.length + 1)).run body
  Document.ofLines? ls

end JavaMinus.Toml
