import JavaMinus.Json.Token

/-!
# JSON texts

`Json.parse?` reads a text and `Json.render` writes one. Reading runs a stack machine over the
tokens: each open array or object is a `Frame`, and `Parse` says which tokens may come next. An
object with a field name that cannot be read is `Json.unreadable` as a whole, but its parts must be
well formed all the same.
-/

namespace JavaMinus.Json

/-! ### Reading -/

/-- The fields of an object read so far, newest first. There are none any more once a field name
could not be read. -/
abbrev Fields := Option (List (String × Json))

/-- The value of a complete object. -/
def Fields.value : Fields → Json
  | some fields => .obj fields.reverse
  | none => .unreadable

/-- A container that is still open, with the parts read so far, newest first. -/
inductive Frame where
  | arr (done : List Json)
  /-- An object whose field `key` is waiting for its value. -/
  | obj (done : Fields) (key : String)

/-- What the reader expects next; `stack` holds the containers around that place. -/
inductive Parse where
  /-- A value. -/
  | value (stack : List Frame)
  /-- The first item of an array, or its end. -/
  | firstItem (stack : List Frame)
  /-- The first field of an object, or its end. -/
  | firstField (stack : List Frame)
  /-- A further field of an object. -/
  | field (done : Fields) (stack : List Frame)
  /-- The colon after a field name. -/
  | colon (done : Fields) (key : String) (stack : List Frame)
  /-- A comma or the end of an array. -/
  | items (done : List Json) (stack : List Frame)
  /-- A comma or the end of an object. -/
  | fields (done : Fields) (stack : List Frame)
  /-- Nothing: the outermost value is complete. -/
  | finished (value : Json)

/-- Hand a complete value to the innermost open container. -/
def Parse.deliver (j : Json) : List Frame → Parse
  | [] => .finished j
  | .arr done :: stack => .items (j :: done) stack
  | .obj done key :: stack => .fields (done.map ((key, j) :: ·)) stack

/-- The first token of a value. -/
def Parse.start (t : Token) (stack : List Frame) : Option Parse :=
  match t with
  | .null => some (deliver .null stack)
  | .bool b => some (deliver (.bool b) stack)
  | .int n => some (deliver (.int n) stack)
  | .real token => some (deliver (.real token) stack)
  | .text s => some (deliver (.str s) stack)
  | .brokenText | .vastNumber => some (deliver .unreadable stack)
  | .openArr => some (.firstItem stack)
  | .openObj => some (.firstField stack)
  | _ => none

/-- One token read. -/
def Parse.step : Parse → Token → Option Parse
  | .value stack, t => start t stack
  | .firstItem stack, .closeArr => some (deliver (.arr []) stack)
  | .firstItem stack, t => start t (.arr [] :: stack)
  | .firstField stack, .closeObj => some (deliver (.obj []) stack)
  | .firstField stack, .text key => some (.colon (some []) key stack)
  | .firstField stack, .brokenText => some (.colon none "" stack)
  | .field done stack, .text key => some (.colon done key stack)
  | .field _ stack, .brokenText => some (.colon none "" stack)
  | .colon done key stack, .colon => some (.value (.obj done key :: stack))
  | .items done stack, .comma => some (.value (.arr done :: stack))
  | .items done stack, .closeArr => some (deliver (.arr done.reverse) stack)
  | .fields done stack, .comma => some (.field done stack)
  | .fields done stack, .closeObj => some (deliver done.value stack)
  | _, _ => none

/-- The value at the end of the tokens, if exactly one is complete. -/
def Parse.result? : Parse → Option Json
  | .finished j => some j
  | _ => none

/-- The value that a list of tokens spells. -/
def ofTokens? (tokens : List Token) : Option Json :=
  (tokens.foldlM Parse.step (.value [])).bind Parse.result?

/-- The value that a text spells, or nothing if the text is malformed. -/
def parse? (text : String) : Option Json :=
  (Token.scan text.toList).bind ofTokens?

/-! ### Writing -/

mutual

/-- The tokens of a value. -/
def tokens : Json → List Token
  | .unreadable => [.brokenText]
  | .null => [.null]
  | .bool b => [.bool b]
  | .int n => [.int n]
  | .real token => [.real token]
  | .str s => [.text s]
  | .arr [] => [.openArr, .closeArr]
  | .arr (j :: rest) => .openArr :: tokens j ++ tokensItems rest
  | .obj [] => [.openObj, .closeObj]
  | .obj ((key, j) :: rest) => .openObj :: .text key :: .colon :: tokens j ++ tokensFields rest

/-- The tokens after the first item of an array, its end included. -/
def tokensItems : List Json → List Token
  | [] => [.closeArr]
  | j :: rest => .comma :: tokens j ++ tokensItems rest

/-- The tokens after the first field of an object, its end included. -/
def tokensFields : List (String × Json) → List Token
  | [] => [.closeObj]
  | (key, j) :: rest => .comma :: .text key :: .colon :: tokens j ++ tokensFields rest

end

/-- The compact text of a value. -/
def render (j : Json) : String :=
  String.ofList (j.tokens.flatMap Token.write)

end JavaMinus.Json
