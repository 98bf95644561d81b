/-!
# JSON values

The value type that the text readers and writers of this library share. An object keeps its fields
in written order and may hold a name twice; what a reader does about that is its own rule. Numbers
that are plain integers carry their value. Any other number (a fraction, an exponent, a negative
zero) keeps its written form and stands for no integer.

A text can be well formed and still hold parts that stand for nothing: half of a surrogate pair, or
a number that is not finite. They become `Json.unreadable`. Whoever skips a value need not care, and
whoever reads one asks `Json.fits`.
-/

namespace JavaMinus

inductive Json where
  /-- A text or number without a value, or an object with such a text for a field name. -/
  | unreadable
  | null
  | bool (value : Bool)
  | int (value : Int)
  | real (token : String)
  | str (text : String)
  | arr (items : List Json)
  | obj (fields : List (String × Json))
deriving Inhabited

namespace Json

mutual

/-- How many arrays and objects lie around the innermost value, the outermost one included. -/
def depth : Json → Nat
  | .arr items => depthItems items + 1
  | .obj fields => depthFields fields + 1
  | _ => 0

/-- The greatest depth among the items of an array. -/
def depthItems : List Json → Nat
  | [] => 0
  | j :: rest => max (depth j) (depthItems rest)

/-- The greatest depth among the field values of an object. -/
def depthFields : List (String × Json) → Nat
  | [] => 0
  | (_, j) :: rest => max (depth j) (depthFields rest)

end

mutual

/-- Is everything in the value readable, with at most `room` arrays and objects around the
innermost part? The value is followed no deeper than that. -/
def fits : Json → (room : Nat) → Bool
  | .unreadable, _ => false
  | .arr items, room => 0 < room && fitsItems items (room - 1)
  | .obj fields, room => 0 < room && fitsFields fields (room - 1)
  | _, _ => true

def fitsItems : List Json → (room : Nat) → Bool
  | [], _ => true
  | j :: rest, room => fits j room && fitsItems rest room

def fitsFields : List (String × Json) → (room : Nat) → Bool
  | [], _ => true
  | (_, j) :: rest, room => fits j room && fitsFields rest room

end

end Json

end JavaMinus
