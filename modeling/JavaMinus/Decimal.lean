/-!
# Decimal numbers

A `Decimal` is an unsigned number as it is written: digits before and after a point, and an
exponent. The library computes with no such number. It only has to know whether a number is finite
in the binary format whose numbers have 53 significant digits and stay below `2 ^ 1024`.
`Decimal.isFinite` decides that for the exact value, and `Decimal.isFiniteScaled` for the value
that one multiplication of rounded factors gives.
-/

namespace JavaMinus

structure Decimal where
  whole : List Char
  fraction : List Char := []
  exponent : Int := 0

namespace Decimal

/-- The number that a list of decimal digits spells. -/
def natOfDigits (digits : List Char) : Nat :=
  digits.foldl (fun n c => n * 10 + (c.toNat - '0'.toNat)) 0

/-- An exponent with an optional sign. -/
def intOfDigits : List Char → Int
  | '-' :: digits => -natOfDigits digits
  | '+' :: digits => natOfDigits digits
  | digits => natOfDigits digits

/-- The number spelled by digits, a fraction after a point and an exponent after a mark. Fraction
and exponent may be missing. -/
def ofChars (cs : List Char) : Decimal :=
  let (fraction, rest) :=
    match cs.dropWhile Char.isDigit with
    | '.' :: tail => (tail.takeWhile Char.isDigit, tail.dropWhile Char.isDigit)
    | tail => ([], tail)
  { whole := cs.takeWhile Char.isDigit
    fraction := fraction
    exponent := intOfDigits (rest.drop 1) }

/-- The least number that rounds to infinity: half a step above the greatest finite number. -/
def infinityBound : Nat := Nat.pow 2 1024 - Nat.pow 2 970

/-- Does the exact value round to a finite number? Its size is settled by counting digits unless
the power of ten is small. -/
def isFinite (d : Decimal) : Bool :=
  let digits := d.whole ++ d.fraction
  let value := natOfDigits digits
  let scale := d.exponent - d.fraction.length
  if value = 0 then true
  else if 0 ≤ scale then scale ≤ 308 && value * Nat.pow 10 scale.toNat < infinityBound
  else digits.length ≤ scale.natAbs || value < infinityBound * Nat.pow 10 scale.natAbs

/-- The nearest number with at most 53 significant binary digits. Of two, it is the one whose last
digit is zero. -/
def roundBinary (n : Nat) : Nat :=
  let unit := Nat.pow 2 (n.log2 - 52)
  let quotient := n / unit
  let twice := 2 * (n % unit)
  if unit < twice || (twice == unit && quotient % 2 == 1) then (quotient + 1) * unit
  else quotient * unit

/-- Append digits to a word of 64 bits as long as it holds them. Returns the word and the digits
that are left. -/
def fillWord : Nat → List Char → Nat × List Char
  | word, [] => (word, [])
  | word, c :: rest =>
    let longer := word * 10 + (c.toNat - '0'.toNat)
    if longer < UInt64.size then fillWord longer rest else (word, c :: rest)

/-- Is the number finite if its digits are cut to what one word holds, and the rounded word is
multiplied by the rounded power of ten? A digit of the whole part that is cut raises the power. -/
def isFiniteScaled (d : Decimal) : Bool :=
  let (high, cut) := fillWord 0 d.whole
  let (word, left) := fillWord high d.fraction
  let scale := d.exponent + cut.length + left.length - d.fraction.length
  word == 0 || scale < 0 ||
    (scale ≤ 308 && roundBinary word * roundBinary (Nat.pow 10 scale.toNat) < infinityBound)

end Decimal

end JavaMinus
