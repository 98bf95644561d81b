import JavaMinus.Decimal
import JavaMinus.Toml.Basic
import JavaMinus.Toml.Reader

/-!
# Numbers in TOML

Integers have 64 bits. They are decimal with an optional sign, or in base 16, 8 or 2 without one.
Other numbers have a fraction, an exponent or both. A positive one that is too great to be finite
is refused, while a negative one is minus infinity. An underscore may stand between two digits.
-/

namespace JavaMinus.Toml

/-- The digits of a number, most significant first. An underscore stands between two digits only. -/
def digits? (base : Nat) : List Char → Option (List Nat)
  | [] => none
  | [c] => do
    let d ← digitValue? c
    guard (d < base)
    return [d]
  | c :: '_' :: rest => do
    let d ← digitValue? c
    guard (d < base)
    return d :: (← digits? base rest)
  | c :: rest => do
    let d ← digitValue? c
    guard (d < base)
    return d :: (← digits? base rest)

/-- Split off an optional sign; `true` is minus. -/
def splitSign : List Char → Bool × List Char
  | '+' :: cs => (false, cs)
  | '-' :: cs => (true, cs)
  | cs => (false, cs)

/-- An unsigned decimal number: no superfluous leading zero. -/
def decimal? (cs : List Char) : Option Nat := do
  let ds ← digits? 10 cs
  guard (ds.length = 1 || ds.head? ≠ some 0)
  return ofDigits 10 ds

/-- An integer: decimal with an optional sign, or in base 16, 8 or 2 without one. -/
def integer? (cs : List Char) : Option Int := do
  let n : Int ←
    match cs with
    | '0' :: 'x' :: rest => (digits? 16 rest).map fun ds => (ofDigits 16 ds : Int)
    | '0' :: 'o' :: rest => (digits? 8 rest).map fun ds => (ofDigits 8 ds : Int)
    | '0' :: 'b' :: rest => (digits? 2 rest).map fun ds => (ofDigits 2 ds : Int)
    | _ =>
      let (negative, body) := splitSign cs
      (decimal? body).map fun n => if negative then -(n : Int) else n
  guard (Int64.minValue.toInt ≤ n ∧ n ≤ Int64.maxValue.toInt)
  return n

/-- An exponent without its mark. -/
def isExponent (cs : List Char) : Bool :=
  (digits? 10 (splitSign cs).2).isSome

def isExponentMark (c : Char) : Bool :=
  c == 'e' || c == 'E'

/-- A fraction without its point, and an exponent if one follows. -/
def isFraction (cs : List Char) : Bool :=
  (digits? 10 (cs.takeWhile fun c => !isExponentMark c)).isSome &&
    match cs.dropWhile fun c => !isExponentMark c with
    | [] => true
    | _ :: rest => isExponent rest

/-- What the whole part of a decimal number is spelled with. -/
def isWholeChar (c : Char) : Bool :=
  c.isDigit || c == '_'

/-- Digits with a fraction, an exponent or both, without a sign. -/
def isScientific (body : List Char) : Bool :=
  (decimal? (body.takeWhile isWholeChar)).isSome &&
    match body.dropWhile isWholeChar with
    | '.' :: rest => isFraction rest
    | c :: rest => isExponentMark c && isExponent rest
    | [] => false

/-- A number with fraction or exponent, an infinity or a value that is no number. -/
def isReal (cs : List Char) : Bool :=
  let (negative, body) := splitSign cs
  if body == ['i', 'n', 'f'] || body == ['n', 'a', 'n'] then true
  else isScientific body && (negative || (Decimal.ofChars (body.filter (· != '_'))).isFinite)

/-- The value that a run of word characters spells. -/
def ofWord? (cs : List Char) : Option Toml :=
  if cs == ['t', 'r', 'u', 'e'] then some (.bool true)
  else if cs == ['f', 'a', 'l', 's', 'e'] then some (.bool false)
  else if isReal cs then some (.real (String.ofList cs))
  else (integer? cs).map .int

end JavaMinus.Toml
