import JavaMinus.Json.Text
import JavaMinus.Source.Unit

/-!
# Units as JSON: writing

Every field of a unit is written, with absent options as `null`. A statement or expression is an
object whose field `kind` names its form.
-/

namespace JavaMinus.Source

open JavaMinus (Json)

def Span.toJson (s : Span) : Json :=
  .obj [("start", .int s.start.toNat), ("end", .int s.stop.toNat)]

/-- The name of an access level in a unit. -/
def Access.unitName (a : Access) : String :=
  a.keyword?.getD "default"

def Access.toJson (a : Access) : Json :=
  .str a.unitName

def BinOp.toJson (op : BinOp) : Json :=
  .str op.symbol

/-- A text or `null`. -/
def optionalText : Option String → Json
  | some s => .str s
  | none => .null

mutual

def Expr.toJson : Expr → Json
  | .intLit s v => .obj [("kind", .str "IntLiteral"), ("span", s.toJson), ("value", .int v.toInt)]
  | .boolLit s v => .obj [("kind", .str "BoolLiteral"), ("span", s.toJson), ("value", .bool v)]
  | .ident s n => .obj [("kind", .str "Ident"), ("span", s.toJson), ("name", .str n)]
  | .self s => .obj [("kind", .str "This"), ("span", s.toJson)]
  | .paren s e => .obj [("kind", .str "Paren"), ("span", s.toJson), ("expr", e.toJson)]
  | .not s e => .obj [("kind", .str "Not"), ("span", s.toJson), ("expr", e.toJson)]
  | .binary s op l r =>
    .obj [("kind", .str "Binary"), ("span", s.toJson), ("op", op.toJson), ("lhs", l.toJson),
      ("rhs", r.toJson)]
  | .index s a i =>
    .obj [("kind", .str "Index"), ("span", s.toJson), ("array", a.toJson), ("index", i.toJson)]
  | .length s a => .obj [("kind", .str "Length"), ("span", s.toJson), ("array", a.toJson)]
  | .call s r m args =>
    .obj [("kind", .str "Call"), ("span", s.toJson), ("receiver", r.toJson), ("method", .str m),
      ("args", .arr (Expr.listToJson args))]
  | .newArray s n => .obj [("kind", .str "NewIntArray"), ("span", s.toJson), ("size", n.toJson)]
  | .newObject s c => .obj [("kind", .str "NewObject"), ("span", s.toJson), ("class", .str c)]

def Expr.listToJson : List Expr → List Json
  | [] => []
  | e :: rest => e.toJson :: Expr.listToJson rest

end

mutual

def Stmt.toJson : Stmt → Json
  | .block s body =>
    .obj [("kind", .str "Block"), ("span", s.toJson), ("stmts", .arr (Stmt.listToJson body))]
  | .branch s c t (some e) =>
    .obj [("kind", .str "If"), ("span", s.toJson), ("cond", c.toJson), ("then_branch", t.toJson),
      ("else_branch", e.toJson)]
  | .branch s c t none =>
    .obj [("kind", .str "If"), ("span", s.toJson), ("cond", c.toJson), ("then_branch", t.toJson),
      ("else_branch", .null)]
  | .loop s c b =>
    .obj [("kind", .str "While"), ("span", s.toJson), ("cond", c.toJson), ("body", b.toJson)]
  | .expr s e => .obj [("kind", .str "Expr"), ("span", s.toJson), ("expr", e.toJson)]
  | .assign s t v =>
    .obj [("kind", .str "Assign"), ("span", s.toJson), ("target", .str t), ("value", v.toJson)]
  | .store s t i v =>
    .obj [("kind", .str "ArrayAssign"), ("span", s.toJson), ("target", .str t),
      ("index", i.toJson), ("value", v.toJson)]
  | .ret s (some v) => .obj [("kind", .str "Return"), ("span", s.toJson), ("value", v.toJson)]
  | .ret s none => .obj [("kind", .str "Return"), ("span", s.toJson), ("value", .null)]

def Stmt.listToJson : List Stmt → List Json
  | [] => []
  | s :: rest => s.toJson :: Stmt.listToJson rest

end

def Method.toJson (m : Method) : Json :=
  .obj [("span", m.span.toJson), ("access", m.access.toJson),
    ("is_constructor", .bool m.isConstructor), ("name", .str m.name),
    ("body", .arr (Stmt.listToJson m.body))]

def Class.toJson (c : Class) : Json :=
  .obj [("span", c.span.toJson), ("name", .str c.name), ("extends", optionalText c.superClass),
    ("methods", .arr (c.methods.map Method.toJson))]

def Import.toJson (i : Import) : Json :=
  .obj [("span", i.span.toJson), ("path", .arr (i.path.map .str))]

def Program.toJson (p : Program) : Json :=
  .obj [("imports", .arr (p.imports.map Import.toJson)), ("class", p.cls.toJson)]

def TypeName.toJson (t : TypeName) : Json :=
  .obj [("name", .str t.name), ("isArray", .bool t.isArray)]

def Symbol.toJson (s : Symbol) : Json :=
  .obj [("name", .str s.name), ("type", s.type.toJson)]

def MethodSymbols.toJson (m : MethodSymbols) : Json :=
  .obj [("name", .str m.name), ("returnType", m.returnType.toJson),
    ("parameters", .arr (m.parameters.map Symbol.toJson)),
    ("locals", .arr (m.locals.map Symbol.toJson))]

def SymbolTable.toJson (t : SymbolTable) : Json :=
  .obj [("className", .str t.className), ("superClass", optionalText t.superClass),
    ("imports", .arr (t.imports.map .str)), ("fields", .arr (t.fields.map Symbol.toJson)),
    ("methods", .arr (t.methods.map MethodSymbols.toJson))]

def Level.toJson (l : Level) : Json :=
  .str l.text

def Report.toJson (r : Report) : Json :=
  .obj [("level", r.level.toJson), ("message", .str r.message),
    ("span", match r.span with | some s => s.toJson | none => .null)]

def CompilationUnit.toJson (u : CompilationUnit) : Json :=
  .obj [("program", u.program.toJson), ("symbolTable", u.symbols.toJson),
    ("reports", .arr (u.reports.map Report.toJson))]

/-- The text of a unit. -/
def CompilationUnit.encode (u : CompilationUnit) : String :=
  u.toJson.render

end JavaMinus.Source
