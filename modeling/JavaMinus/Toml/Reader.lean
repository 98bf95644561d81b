/-!
# Readers

A reader takes its piece from the front of a text, or fails and takes nothing. This module has the
small readers that the parts of a TOML document share, and the classes of characters.
-/

namespace JavaMinus.Toml

/-- Takes a piece from the front of a text, or fails. -/
abbrev Reader := StateT (List Char) Option

/-! ### Characters -/

def isBlank (c : Char) : Bool :=
  c == ' ' || c == '\t'

/-- What may stand in comments and texts: no control character but the tab. -/
def isTextChar (c : Char) : Bool :=
  c == '\t' || (' ' ≤ c && c != '\x7f')

def isBareKeyChar (c : Char) : Bool :=
  c.isAlphanum || c == '_' || c == '-'

/-- What booleans and numbers are spelled with. -/
def isWordChar (c : Char) : Bool :=
  isBareKeyChar c || c == '+' || c == '.'

/-- The value of a digit, in any base up to sixteen. -/
def digitValue? (c : Char) : Option Nat :=
  if c.isDigit then some (c.toNat - '0'.toNat)
  else if 'a' ≤ c && c ≤ 'f' then some (c.toNat - 'a'.toNat + 10)
  else if 'A' ≤ c && c ≤ 'F' then some (c.toNat - 'A'.toNat + 10)
  else none

def ofDigits (base : Nat) (digits : List Nat) : Nat :=
  digits.foldl (fun n d => n * base + d) 0

/-! ### Small readers -/

def next : Reader Char
  | c :: rest => some (c, rest)
  | [] => none

def expect (c : Char) : Reader Unit := do
  guard ((← next) == c)

def takeRun (p : Char → Bool) : Reader (List Char) :=
  fun cs => some (cs.takeWhile p, cs.dropWhile p)

/-- A number of exactly `count` digits in the given base. -/
def fixedNumber (base count : Nat) : Reader Nat := do
  let values := ((← get).take count).filterMap digitValue?
  guard (values.length == count && values.all (· < base))
  modify (·.drop count)
  return ofDigits base values

def skipBlanks : Reader Unit :=
  modify fun cs => cs.dropWhile isBlank

/-- One line end. -/
def newline : Reader Unit
  | '\n' :: rest => some ((), rest)
  | '\r' :: '\n' :: rest => some ((), rest)
  | _ => none

/-- Items with a mark between every two, one item at least. -/
def divided {α : Type} (item : Reader α) (mark : Char) : (bound : Nat) → Reader (List α)
  | 0 => failure
  | bound + 1 => do
    let first ← item
    if (← get).head? == some mark then
      expect mark
      return first :: (← divided item mark bound)
    return [first]

end JavaMinus.Toml
