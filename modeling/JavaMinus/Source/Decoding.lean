import JavaMinus.Source.Encoding

/-!
# Units as JSON: reading

A record is an object, or an array of its fields in declaration order from which fields with a
default may be left off at the end. Unknown fields are skipped, a known field must not come twice,
and `null` stands for an absent value only where the field may be absent. What is skipped only has
to be well formed. A statement or expression is read as a whole with everything in it, so there all
parts must be readable, and arrays and objects nest no deeper than the room that is left.

Statements and expressions are read bottom up: `Reading.of` attaches to every JSON value what it
means as an expression, as a statement and as a list of either, and the form around it picks the
meaning that its field asks for.
-/

namespace JavaMinus.Source

open JavaMinus (Json)

/-! ### Records -/

/-- The parts of a record or node: by name, or in declaration order. -/
inductive Shape (α : Type) where
  | named (fields : List (String × α))
  | listed (items : List α)

/-- The known fields by name. A name must not come twice, and a list must not be too long. -/
def Shape.select {α : Type} (names : List String) : Shape α → Option (List (String × α))
  | .named fields =>
    if names.all fun n => fields.countP (fun f => f.1 == n) ≤ 1 then some fields else none
  | .listed items => if items.length ≤ names.length then some (names.zip items) else none

/-- The known fields of a record. -/
def recordFields (names : List String) : Json → Option (List (String × Json))
  | .obj fields => (Shape.named fields).select names
  | .arr items => (Shape.listed items).select names
  | _ => none

section Fields

variable {α β : Type}

/-- A field that must be there. -/
def required (fields : List (String × α)) (name : String) (read : α → Option β) : Option β :=
  (fields.lookup name).bind read

/-- A field with a default. -/
def defaulted (fields : List (String × α)) (name : String) (default : β) (read : α → Option β) :
    Option β :=
  match fields.lookup name with
  | some a => read a
  | none => some default

end Fields

/-! ### Scalars -/

def readText : Json → Option String
  | .str s => some s
  | _ => none

def readBool : Json → Option Bool
  | .bool b => some b
  | _ => none

def readInt32 : Json → Option Int32
  | .int n => if Int32.minValue.toInt ≤ n ∧ n ≤ Int32.maxValue.toInt then some (Int32.ofInt n) else none
  | _ => none

def readUInt32 : Json → Option UInt32
  | .int n => if 0 ≤ n ∧ n < 4294967296 then some (UInt32.ofNat n.toNat) else none
  | _ => none

/-- A value that may be `null`. -/
def readOptional {β : Type} (read : Json → Option β) : Json → Option (Option β)
  | .null => some none
  | j => (read j).map some

def readList {β : Type} (read : Json → Option β) : Json → Option (List β)
  | .arr items => items.mapM read
  | _ => none

/-- The name that picks one value of an enumeration: a text, or the only field of an object, whose
value is `null`. -/
def readTag : Json → Option String
  | .str s => some s
  | .obj [(s, .null)] => some s
  | _ => none

def Span.ofJson? (j : Json) : Option Span := do
  let fields ← recordFields ["start", "end"] j
  return { start := ← required fields "start" readUInt32, stop := ← required fields "end" readUInt32 }

def Access.ofJson? (j : Json) : Option Access :=
  (readTag j).bind fun s => [Access.pub, .priv, .prot, .pack].find? fun a => a.unitName == s

def BinOp.ofJson? (j : Json) : Option BinOp :=
  (readTag j).bind BinOp.ofSymbol?

/-- The operator of an expression. Inside a node, an empty object may stand for `null`. -/
def BinOp.ofNodeJson? : Json → Option BinOp
  | .obj [(s, .obj [])] => BinOp.ofSymbol? s
  | j => BinOp.ofJson? j

/-! ### Statements and expressions -/

/-- What a JSON value means in each place a tree may have for it. -/
structure Reading where
  json : Json
  expr : Option Expr := none
  stmt : Option Stmt := none
  exprs : Option (List Expr) := none
  stmts : Option (List Stmt) := none

namespace Reading

/-- A part that may be `null`. -/
def optional {β : Type} (read : Reading → Option β) (r : Reading) : Option (Option β) :=
  match r.json with
  | .null => some none
  | _ => (read r).map some

def text (r : Reading) : Option String :=
  readText r.json

/-- The span of a node; a node without one has the empty span. -/
def spanOf (fields : List (String × Reading)) : Option Span :=
  defaulted fields "span" {} fun r => Span.ofJson? r.json

/-- The expression of a given kind that has these parts. -/
def exprOf (kind : String) (shape : Shape Reading) : Option Expr :=
  match kind with
  | "IntLiteral" => do
    let fields ← shape.select ["span", "value"]
    return .intLit (← spanOf fields) (← required fields "value" fun r => readInt32 r.json)
  | "BoolLiteral" => do
    let fields ← shape.select ["span", "value"]
    return .boolLit (← spanOf fields) (← required fields "value" fun r => readBool r.json)
  | "Ident" => do
    let fields ← shape.select ["span", "name"]
    return .ident (← spanOf fields) (← required fields "name" text)
  | "This" => do
    let fields ← shape.select ["span"]
    return .self (← spanOf fields)
  | "Paren" => do
    let fields ← shape.select ["span", "expr"]
    return .paren (← spanOf fields) (← required fields "expr" Reading.expr)
  | "Not" => do
    let fields ← shape.select ["span", "expr"]
    return .not (← spanOf fields) (← required fields "expr" Reading.expr)
  | "Binary" => do
    let fields ← shape.select ["span", "op", "lhs", "rhs"]
    return .binary (← spanOf fields) (← required fields "op" fun r => BinOp.ofNodeJson? r.json)
      (← required fields "lhs" Reading.expr) (← required fields "rhs" Reading.expr)
  | "Index" => do
    let fields ← shape.select ["span", "array", "index"]
    return .index (← spanOf fields) (← required fields "array" Reading.expr)
      (← required fields "index" Reading.expr)
  | "Length" => do
    let fields ← shape.select ["span", "array"]
    return .length (← spanOf fields) (← required fields "array" Reading.expr)
  | "Call" => do
    let fields ← shape.select ["span", "receiver", "method", "args"]
    return .call (← spanOf fields) (← required fields "receiver" Reading.expr)
      (← required fields "method" text) (← defaulted fields "args" [] Reading.exprs)
  | "NewIntArray" => do
    let fields ← shape.select ["span", "size"]
    return .newArray (← spanOf fields) (← required fields "size" Reading.expr)
  | "NewObject" => do
    let fields ← shape.select ["span", "class"]
    return .newObject (← spanOf fields) (← required fields "class" text)
  | _ => none

/-- The statement of a given kind that has these parts. -/
def stmtOf (kind : String) (shape : Shape Reading) : Option Stmt :=
  match kind with
  | "Block" => do
    let fields ← shape.select ["span", "stmts"]
    return .block (← spanOf fields) (← required fields "stmts" Reading.stmts)
  | "If" => do
    let fields ← shape.select ["span", "cond", "then_branch", "else_branch"]
    return .branch (← spanOf fields) (← required fields "cond" Reading.expr)
      (← required fields "then_branch" Reading.stmt)
      (← defaulted fields "else_branch" none (optional Reading.stmt))
  | "While" => do
    let fields ← shape.select ["span", "cond", "body"]
    return .loop (← spanOf fields) (← required fields "cond" Reading.expr)
      (← required fields "body" Reading.stmt)
  | "Expr" => do
    let fields ← shape.select ["span", "expr"]
    return .expr (← spanOf fields) (← required fields "expr" Reading.expr)
  | "Assign" => do
    let fields ← shape.select ["span", "target", "value"]
    return .assign (← spanOf fields) (← required fields "target" text)
      (← required fields "value" Reading.expr)
  | "ArrayAssign" => do
    let fields ← shape.select ["span", "target", "index", "value"]
    return .store (← spanOf fields) (← required fields "target" text)
      (← required fields "index" Reading.expr) (← required fields "value" Reading.expr)
  | "Return" => do
    let fields ← shape.select ["span", "value"]
    return .ret (← spanOf fields) (← defaulted fields "value" none (optional Reading.expr))
  | _ => none

/-- The kind and the parts of a node: an object with one field `kind`, or an array that starts with
the kind. -/
def nodeOf : Shape Reading → Option (Json × Shape Reading)
  | .named fields =>
    match fields.filter fun f => f.1 == "kind" with
    | [(_, r)] => some (r.json, .named fields)
    | _ => none
  | .listed (r :: items) => some (r.json, .listed items)
  | .listed [] => none

/-- The kinds of expression, in the order in which a number picks one. -/
def exprKinds : List String :=
  ["IntLiteral", "BoolLiteral", "Ident", "This", "Paren", "Not", "Binary", "Index", "Length",
    "Call", "NewIntArray", "NewObject"]

/-- The kinds of statement, in the order in which a number picks one. -/
def stmtKinds : List String :=
  ["Block", "If", "While", "Expr", "Assign", "ArrayAssign", "Return"]

/-- A kind by its name or by its number. -/
def kindOf (kinds : List String) : Json → Option String
  | .str s => some s
  | .int n => if 0 ≤ n then kinds[n.toNat]? else none
  | _ => none

/-- What a container means, given the readings of its parts. -/
def ofShape (json : Json) (shape : Shape Reading) : Reading :=
  let node := nodeOf shape
  let lists :=
    match shape with
    | .listed items => (items.mapM Reading.expr, items.mapM Reading.stmt)
    | .named _ => (none, none)
  { json := json
    expr := node.bind fun (kind, parts) => (kindOf exprKinds kind).bind fun k => exprOf k parts
    stmt := node.bind fun (kind, parts) => (kindOf stmtKinds kind).bind fun k => stmtOf k parts
    exprs := lists.1
    stmts := lists.2 }

mutual

/-- Everything a JSON value can mean in a tree. -/
def of : Json → Reading
  | .arr items => ofShape (.arr items) (.listed (ofItems items))
  | .obj fields => ofShape (.obj fields) (.named (ofFields fields))
  | j => { json := j }

def ofItems : List Json → List Reading
  | [] => []
  | j :: rest => of j :: ofItems rest

def ofFields : List (String × Json) → List (String × Reading)
  | [] => []
  | (name, j) :: rest => (name, of j) :: ofFields rest

end

/-- A node that is not part of another node must give its kind by name. -/
def namesKind : Json → Bool
  | .obj fields => (fields.lookup "kind").any fun j => (readText j).isSome
  | .arr items => items.head?.any fun j => (readText j).isSome
  | _ => false

end Reading

/-- An expression that nests at most `room` deep. -/
def Expr.ofJson? (room : Nat) (j : Json) : Option Expr :=
  if j.fits room && Reading.namesKind j then (Reading.of j).expr else none

/-- A statement that nests at most `room` deep. -/
def Stmt.ofJson? (room : Nat) (j : Json) : Option Stmt :=
  if j.fits room && Reading.namesKind j then (Reading.of j).stmt else none

/-! ### Units

A record takes one level of the room, and a list of records one more. -/

def Method.ofJson? (room : Nat) (j : Json) : Option Method := do
  let fields ← recordFields ["span", "access", "is_constructor", "name", "body"] j
  return {
    span := ← defaulted fields "span" {} Span.ofJson?
    access := ← defaulted fields "access" .pack Access.ofJson?
    isConstructor := ← defaulted fields "is_constructor" false readBool
    name := ← required fields "name" readText
    body := ← defaulted fields "body" [] (readList (Stmt.ofJson? (room - 2))) }

def Class.ofJson? (room : Nat) (j : Json) : Option Class := do
  let fields ← recordFields ["span", "name", "extends", "methods"] j
  return {
    span := ← defaulted fields "span" {} Span.ofJson?
    name := ← required fields "name" readText
    superClass := ← defaulted fields "extends" none (readOptional readText)
    methods := ← defaulted fields "methods" [] (readList (Method.ofJson? (room - 2))) }

def Import.ofJson? (j : Json) : Option Import := do
  let fields ← recordFields ["span", "path"] j
  return {
    span := ← defaulted fields "span" {} Span.ofJson?
    path := ← required fields "path" (readList readText) }

def Program.ofJson? (room : Nat) (j : Json) : Option Program := do
  let fields ← recordFields ["imports", "class"] j
  return {
    imports := ← defaulted fields "imports" [] (readList Import.ofJson?)
    cls := ← required fields "class" (Class.ofJson? (room - 1)) }

def TypeName.ofJson? (j : Json) : Option TypeName := do
  let fields ← recordFields ["name", "isArray"] j
  return {
    name := ← required fields "name" readText
    isArray := ← defaulted fields "isArray" false readBool }

def Symbol.ofJson? (j : Json) : Option Symbol := do
  let fields ← recordFields ["name", "type"] j
  return { name := ← required fields "name" readText, type := ← required fields "type" TypeName.ofJson? }

def MethodSymbols.ofJson? (j : Json) : Option MethodSymbols := do
  let fields ← recordFields ["name", "returnType", "parameters", "locals"] j
  return {
    name := ← required fields "name" readText
    returnType := ← required fields "returnType" TypeName.ofJson?
    parameters := ← defaulted fields "parameters" [] (readList Symbol.ofJson?)
    locals := ← defaulted fields "locals" [] (readList Symbol.ofJson?) }

def SymbolTable.ofJson? (j : Json) : Option SymbolTable := do
  let fields ← recordFields ["className", "superClass", "imports", "fields", "methods"] j
  return {
    className := ← required fields "className" readText
    superClass := ← defaulted fields "superClass" none (readOptional readText)
    imports := ← defaulted fields "imports" [] (readList readText)
    fields := ← defaulted fields "fields" [] (readList Symbol.ofJson?)
    methods := ← defaulted fields "methods" [] (readList MethodSymbols.ofJson?) }

def Level.ofJson? (j : Json) : Option Level :=
  (readTag j).bind fun s => [Level.error, .warning].find? fun l => l.text == s

def Report.ofJson? (j : Json) : Option Report := do
  let fields ← recordFields ["level", "message", "span"] j
  return {
    level := ← required fields "level" Level.ofJson?
    message := ← required fields "message" readText
    span := ← defaulted fields "span" none (readOptional Span.ofJson?) }

/-- Arrays and objects of a unit nest at most this deep, as far as they are not skipped. -/
def maxDepth : Nat := 127

def CompilationUnit.ofJson? (j : Json) : Option CompilationUnit := do
  let fields ← recordFields ["program", "symbolTable", "reports"] j
  return {
    program := ← required fields "program" (Program.ofJson? (maxDepth - 1))
    symbols := ← required fields "symbolTable" SymbolTable.ofJson?
    reports := ← defaulted fields "reports" [] (readList Report.ofJson?) }

/-- The unit that a text spells, or nothing if the text is refused. -/
def CompilationUnit.decode? (text : String) : Option CompilationUnit :=
  (Json.parse? text).bind CompilationUnit.ofJson?

end JavaMinus.Source
