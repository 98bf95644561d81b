import JavaMinus.Decimal
import JavaMinus.Json.Basic

/-!
# JSON tokens

`Token.scan` cuts a text into tokens and `Token.write` spells one token. The scanner is a machine
that reads one character at a time: its state is a `Scan` mode with the tokens finished so far.
Texts hold no raw control character, and only the escapes of the format are known. A text in which
half of a surrogate pair stands alone, and a number that is not finite, are tokens without a value.
-/

namespace JavaMinus.Json

inductive Token where
  | openArr
  | closeArr
  | openObj
  | closeObj
  | comma
  | colon
  | null
  | bool (value : Bool)
  | int (value : Int)
  | real (token : String)
  | text (value : String)
  /-- A text with half of a surrogate pair in it. -/
  | brokenText
  /-- A number that is not finite. -/
  | vastNumber
deriving DecidableEq

namespace Token

/-! ### Numbers -/

open Decimal (natOfDigits)

/-- One digit or more and nothing else. -/
def isDigits (cs : List Char) : Bool :=
  !cs.isEmpty && cs.all Char.isDigit

/-- An exponent part without its mark: an optional sign and digits. -/
def isExponent : List Char → Bool
  | '+' :: cs => isDigits cs
  | '-' :: cs => isDigits cs
  | cs => isDigits cs

/-- What may follow the whole part of a number that is no integer: a fraction, an exponent or
both. -/
def isTail : List Char → Bool
  | '.' :: cs =>
    match cs.dropWhile Char.isDigit with
    | [] => isDigits cs
    | c :: rest => (c == 'e' || c == 'E') && isDigits (cs.takeWhile Char.isDigit) && isExponent rest
  | c :: cs => (c == 'e' || c == 'E') && isExponent cs
  | [] => false

/-- The number token spelled by `cs`. A whole part has no superfluous leading zero. -/
def number? (cs : List Char) : Option Token :=
  let negative := cs.head? == some '-'
  let body := if negative then cs.drop 1 else cs
  let whole := body.takeWhile Char.isDigit
  let tail := body.dropWhile Char.isDigit
  if whole.isEmpty || (whole.head? == some '0' && whole.length != 1) then none
  else if !tail.isEmpty && !isTail tail then none
  else if !(Decimal.ofChars body).isFiniteScaled then some .vastNumber
  else if !tail.isEmpty then some (.real (String.ofList cs))
  else if !negative then some (.int (natOfDigits whole))
  else if whole == ['0'] then some (.real "-0")
  else some (.int (-(natOfDigits whole : Int)))

/-- The token spelled by a run of word characters. -/
def ofWord? (cs : List Char) : Option Token :=
  if cs == ['n', 'u', 'l', 'l'] then some .null
  else if cs == ['t', 'r', 'u', 'e'] then some (.bool true)
  else if cs == ['f', 'a', 'l', 's', 'e'] then some (.bool false)
  else number? cs

/-! ### Scanning -/

/-- The characters of a text read so far, newest first. There are none any more once half of a
surrogate pair was found alone. -/
abbrev Seen := Option (List Char)

def Seen.add (seen : Seen) (c : Char) : Seen :=
  seen.map (c :: ·)

/-- The token of a complete text. -/
def Seen.token : Seen → Token
  | some cs => .text (String.ofList cs.reverse)
  | none => .brokenText

/-- What the scanner is in the middle of. -/
inductive Scan where
  /-- Between two tokens. -/
  | idle
  /-- In a run of letters, digits, signs and points, kept newest first. -/
  | word (seen : List Char)
  /-- In a text. -/
  | text (seen : Seen)
  /-- Just after the backslash of an escape. -/
  | escape (seen : Seen)
  /-- After `count` digits, worth `value`, of a numbered escape. With `high`, the escape should
  complete that first half of a surrogate pair. -/
  | code (seen : Seen) (high : Option Nat) (count value : Nat)
  /-- After the first half of a surrogate pair: a backslash should come. -/
  | pair (seen : Seen) (high : Nat)
  /-- After the first half of a surrogate pair and a backslash: the mark `u` should come. -/
  | pairMark (seen : Seen) (high : Nat)

def isBlank (c : Char) : Bool :=
  c == ' ' || c == '\t' || c == '\n' || c == '\r'

def isWordChar (c : Char) : Bool :=
  c.isAlphanum || c == '+' || c == '-' || c == '.'

def hexDigit? (c : Char) : Option Nat :=
  if c.isDigit then some (c.toNat - '0'.toNat)
  else if 'a' ≤ c && c ≤ 'f' then some (c.toNat - 'a'.toNat + 10)
  else if 'A' ≤ c && c ≤ 'F' then some (c.toNat - 'A'.toNat + 10)
  else none

def isHighHalf (n : Nat) : Bool :=
  0xD800 ≤ n && n ≤ 0xDBFF

def isLowHalf (n : Nat) : Bool :=
  0xDC00 ≤ n && n ≤ 0xDFFF

/-- The mode after a complete four-digit escape worth `n`. -/
def finishCode (seen : Seen) (high : Option Nat) (n : Nat) : Scan :=
  match high with
  | none =>
    if isHighHalf n then .pair seen n
    else if isLowHalf n then .text none
    else .text (seen.add (Char.ofNat n))
  | some h =>
    if isLowHalf n then .text (seen.add (Char.ofNat (0x10000 + (h - 0xD800) * 0x400 + (n - 0xDC00))))
    else .text none

/-- The character a one-letter escape stands for. -/
def unescape? (c : Char) : Option Char :=
  match c with
  | '"' => some '"'
  | '\\' => some '\\'
  | '/' => some '/'
  | 'b' => some '\x08'
  | 'f' => some '\x0c'
  | 'n' => some '\n'
  | 'r' => some '\r'
  | 't' => some '\t'
  | _ => none

/-- One character read between two tokens; `done` holds the finished tokens, newest first. -/
def scanIdle (done : List Token) (c : Char) : Option (List Token × Scan) :=
  if isBlank c then some (done, .idle)
  else if c == '[' then some (.openArr :: done, .idle)
  else if c == ']' then some (.closeArr :: done, .idle)
  else if c == '\x7b' then some (.openObj :: done, .idle)
  else if c == '\x7d' then some (.closeObj :: done, .idle)
  else if c == ',' then some (.comma :: done, .idle)
  else if c == ':' then some (.colon :: done, .idle)
  else if c == '"' then some (done, .text (some []))
  else if isWordChar c then some (done, .word [c])
  else none

/-- One character read in a text. -/
def scanText (done : List Token) (seen : Seen) (c : Char) : Option (List Token × Scan) :=
  if c == '"' then some (seen.token :: done, .idle)
  else if c == '\\' then some (done, .escape seen)
  else if c.toNat < 0x20 then none
  else some (done, .text (seen.add c))

/-- One character read after a backslash. -/
def scanEscape (done : List Token) (seen : Seen) (c : Char) : Option (List Token × Scan) :=
  if c == 'u' then some (done, .code seen none 0 0)
  else (unescape? c).map fun d => (done, .text (seen.add d))

/-- One character read in any mode. -/
def scanChar (state : List Token × Scan) (c : Char) : Option (List Token × Scan) :=
  match state with
  | (done, .idle) => scanIdle done c
  | (done, .word seen) =>
    if isWordChar c then some (done, .word (c :: seen))
    else (ofWord? seen.reverse).bind fun t => scanIdle (t :: done) c
  | (done, .text seen) => scanText done seen c
  | (done, .escape seen) => scanEscape done seen c
  | (done, .code seen high count value) =>
    (hexDigit? c).map fun d =>
      if count < 3 then (done, .code seen high (count + 1) (value * 16 + d))
      else (done, finishCode seen high (value * 16 + d))
  | (done, .pair seen high) =>
    if c == '\\' then some (done, .pairMark seen high) else scanText done none c
  | (done, .pairMark seen high) =>
    if c == 'u' then some (done, .code seen (some high) 0 0) else scanEscape done none c

/-- The tokens at the end of the text, oldest first; nothing may be left open. -/
def scanEnd : List Token × Scan → Option (List Token)
  | (done, .idle) => some done.reverse
  | (done, .word seen) => (ofWord? seen.reverse).map fun t => (t :: done).reverse
  | _ => none

/-- The tokens of a text, or nothing if some part of it is no token. -/
def scan (cs : List Char) : Option (List Token) :=
  (cs.foldlM scanChar ([], .idle)).bind scanEnd

/-! ### Writing -/

def hexChar (n : Nat) : Char :=
  if n < 10 then Char.ofNat ('0'.toNat + n) else Char.ofNat ('a'.toNat + (n - 10))

/-- One character inside a text: quote, backslash and control characters are escaped, all else
stands as it is. -/
def escapeChar (c : Char) : List Char :=
  if c == '"' then ['\\', '"']
  else if c == '\\' then ['\\', '\\']
  else if c == '\x08' then ['\\', 'b']
  else if c == '\x0c' then ['\\', 'f']
  else if c == '\n' then ['\\', 'n']
  else if c == '\r' then ['\\', 'r']
  else if c == '\t' then ['\\', 't']
  else if c.toNat < 0x20 then ['\\', 'u', '0', '0', hexChar (c.toNat / 16), hexChar (c.toNat % 16)]
  else [c]

/-- An integer in decimal digits, with a minus sign below zero. -/
def intChars (n : Int) : List Char :=
  if n < 0 then '-' :: Nat.toDigits 10 n.natAbs else Nat.toDigits 10 n.natAbs

/-- The spelling of one token. A token without a value is spelled as one with half of a surrogate
pair or an exponent too great. -/
def write : Token → List Char
  | .openArr => ['[']
  | .closeArr => [']']
  | .openObj => ['\x7b']
  | .closeObj => ['\x7d']
  | .comma => [',']
  | .colon => [':']
  | .null => ['n', 'u', 'l', 'l']
  | .bool true => ['t', 'r', 'u', 'e']
  | .bool false => ['f', 'a', 'l', 's', 'e']
  | .int n => intChars n
  | .real token => token.toList
  | .text value => '"' :: value.toList.flatMap escapeChar ++ ['"']
  | .brokenText => ['"', '\\', 'u', 'd', '8', '0', '0', '"']
  | .vastNumber => ['1', 'e', '3', '0', '9']

end Token

end JavaMinus.Json
