import JavaMinus.Toml.Reader

/-!
# Texts in TOML

A text stands between quotes. Double quotes allow escapes, single quotes do not. Between one quote
on either side a text is a single line. Between three on either side it may run over several lines;
a line end directly after the opening quotes is dropped, and a backslash at the end of a line joins
it with what follows the blanks and line ends after it.

A reader that repeats counts down from more than the length of the text, and takes a character in
every round.
-/

namespace JavaMinus.Toml

/-- The character an escape stands for, after its backslash. -/
def escaped : Reader Char := do
  match ← next with
  | 'b' => return '\x08'
  | 't' => return '\t'
  | 'n' => return '\n'
  | 'f' => return '\x0c'
  | 'r' => return '\r'
  | '"' => return '"'
  | '\\' => return '\\'
  | 'u' => numbered 4
  | 'U' => numbered 8
  | _ => failure
where
  /-- The character with a number of `count` hexadecimal digits. -/
  numbered (count : Nat) : Reader Char := do
    let n ← fixedNumber 16 count
    guard (decide n.isValidChar)
    return Char.ofNat n

/-! ### One line -/

/-- The rest of a text in double quotes. -/
def quoted : (bound : Nat) → Reader (List Char)
  | 0 => failure
  | bound + 1 => do
    match ← next with
    | '"' => return []
    | '\\' =>
      let c ← escaped
      return c :: (← quoted bound)
    | c =>
      guard (isTextChar c)
      return c :: (← quoted bound)

/-- A text on one line. -/
def lineText : Reader String := do
  match ← next with
  | '"' => return String.ofList (← quoted ((← get).length + 1))
  | '\'' =>
    let body ← takeRun fun c => isTextChar c && c != '\''
    expect '\''
    return String.ofList body
  | _ => failure

/-! ### Several lines -/

/-- Blanks and line ends. -/
def skipSpace : (bound : Nat) → Reader Unit
  | 0 => skipBlanks
  | bound + 1 => do
    skipBlanks
    match newline (← get) with
    | some (_, rest) =>
      set rest
      skipSpace bound
    | none => return

/-- What a backslash stands for: nothing at the end of a line, else one character. -/
def escapedOrJoined : Reader (List Char) := do
  match newline ((← get).dropWhile isBlank) with
  | some (_, rest) =>
    set rest
    skipSpace rest.length
    return []
  | none => return [← escaped]

/-- The rest of a text between three quotes. One or two quotes belong to the text. Of more, the
last three end it, and up to two in front of them belong to it. -/
def quotedLines (quote : Char) : (bound : Nat) → Reader (List Char)
  | 0 => failure
  | bound + 1 => do
    let c ← next
    if c == quote then
      let more ← takeRun (· == quote)
      if more.length < 2 then return c :: more ++ (← quotedLines quote bound)
      guard (more.length ≤ 4)
      return more.drop 2
    else if c == '\\' && quote == '"' then
      let part ← escapedOrJoined
      return part ++ (← quotedLines quote bound)
    else if c == '\n' || c == '\r' then
      unless c == '\n' do expect '\n'
      return '\n' :: (← quotedLines quote bound)
    else
      guard (isTextChar c)
      return c :: (← quotedLines quote bound)

/-- A text that may run over several lines. -/
def linesText (quote : Char) : Reader String := do
  expect quote
  expect quote
  expect quote
  newline <|> pure ()
  return String.ofList (← quotedLines quote ((← get).length + 1))

/-- A text, on one line or on several. -/
def text : Reader String := do
  match (← get).take 3 with
  | ['"', '"', '"'] => linesText '"'
  | ['\'', '\'', '\''] => linesText '\''
  | _ => lineText

end JavaMinus.Toml
