/-!
# Paths

A path is kept as it was written, because messages repeat it. Slashes divide it into pieces. Empty
pieces and single dots name nothing, but for a single dot in front.
-/

namespace JavaMinus

structure Path where
  text : String
deriving DecidableEq

namespace Path

/-- The pieces of a text between its slashes. There is always one. -/
def split : List Char → List (List Char)
  | [] => [[]]
  | '/' :: cs => [] :: split cs
  | c :: cs =>
    match split cs with
    | [] => [[c]]
    | piece :: rest => (c :: piece) :: rest

def pieces (p : Path) : List String :=
  (split p.text.toList).map String.ofList

def ofPieces (ps : List String) : Path :=
  ⟨"/".intercalate ps⟩

def isAbsolute (p : Path) : Bool :=
  p.text.toList.head? == some '/'

/-- Does the piece at a position name something? -/
def isName (piece : String) (position : Nat) : Bool :=
  piece != "" && (piece != "." || position == 0)

/-- The positions of the pieces that name something. -/
def namePositions (ps : List String) : List Nat :=
  (ps.zipIdx.filter fun (piece, i) => isName piece i).map Prod.snd

/-- The paths above, the nearest first: each ends in an earlier name, and the last is the empty path
or the root. Nothing is above those two. -/
def above (p : Path) : List Path :=
  let ps := p.pieces
  match (namePositions ps).reverse with
  | [] => []
  | _ :: upper =>
    upper.map (fun i => ofPieces (ps.take (i + 1))) ++ [⟨if p.isAbsolute then "/" else ""⟩]

/-- The path without its last name. -/
def parent? (p : Path) : Option Path :=
  p.above.head?

/-- `name` as seen from `base`. An absolute name stands for itself. -/
def join (base : Path) (name : String) : Path :=
  if isAbsolute ⟨name⟩ || base.text.isEmpty then ⟨name⟩
  else if base.text.toList.getLast? == some '/' then ⟨base.text ++ name⟩
  else ⟨base.text ++ "/" ++ name⟩

end Path

end JavaMinus
