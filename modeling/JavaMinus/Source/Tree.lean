/-!
# Source trees

The tree of one class: methods, statements and expressions. Every node carries the span of the
program text it came from. Fields, parameters and local variables are declared in the symbol table
and not in the tree.
-/

namespace JavaMinus.Source

/-- A stretch of program text, as byte offsets. -/
structure Span where
  start : UInt32 := 0
  stop : UInt32 := 0
deriving DecidableEq, Inhabited

/-- `start..stop`. -/
def Span.text (s : Span) : String :=
  toString s.start ++ ".." ++ toString s.stop

/-- Who may use a class, method or field. -/
inductive Access where
  | pub
  | priv
  | prot
  /-- Nothing written: only the package may use it. -/
  | pack
deriving DecidableEq, Inhabited

namespace Access

/-- The modifier as written in code; package access has none. -/
def keyword? : Access → Option String
  | .pub => some "public"
  | .priv => some "private"
  | .prot => some "protected"
  | .pack => none

/-- The modifier followed by a blank, or nothing. -/
def lead (a : Access) : String :=
  match a.keyword? with
  | some word => word ++ " "
  | none => ""

end Access

inductive BinOp where
  | add | sub | mul | div
  | lt | gt | le | ge | eq | ne
  | and | or
deriving DecidableEq, Inhabited

namespace BinOp

def symbol : BinOp → String
  | .add => "+"
  | .sub => "-"
  | .mul => "*"
  | .div => "/"
  | .lt => "<"
  | .gt => ">"
  | .le => "<="
  | .ge => ">="
  | .eq => "=="
  | .ne => "!="
  | .and => "&&"
  | .or => "||"

/-- Every operator, in the order of the type. -/
def all : List BinOp :=
  [.add, .sub, .mul, .div, .lt, .gt, .le, .ge, .eq, .ne, .and, .or]

def ofSymbol? (s : String) : Option BinOp :=
  all.find? fun op => op.symbol == s

def isArithmetic : BinOp → Bool
  | .add | .sub | .mul | .div => true
  | _ => false

def isComparison : BinOp → Bool
  | .lt | .gt | .le | .ge | .eq | .ne => true
  | _ => false

def isLogical : BinOp → Bool
  | .and | .or => true
  | _ => false

end BinOp

inductive Expr where
  | intLit (span : Span) (value : Int32)
  | boolLit (span : Span) (value : Bool)
  | ident (span : Span) (name : String)
  /-- The current object. -/
  | self (span : Span)
  | paren (span : Span) (inner : Expr)
  | not (span : Span) (inner : Expr)
  | binary (span : Span) (op : BinOp) (lhs rhs : Expr)
  | index (span : Span) (array index : Expr)
  | length (span : Span) (array : Expr)
  | call (span : Span) (receiver : Expr) (method : String) (args : List Expr)
  /-- An `int` array of the given size. -/
  | newArray (span : Span) (size : Expr)
  | newObject (span : Span) (cls : String)
deriving Inhabited

namespace Expr

def span : Expr → Span
  | .intLit s _ => s
  | .boolLit s _ => s
  | .ident s _ => s
  | .self s => s
  | .paren s _ => s
  | .not s _ => s
  | .binary s _ _ _ => s
  | .index s _ _ => s
  | .length s _ => s
  | .call s _ _ _ => s
  | .newArray s _ => s
  | .newObject s _ => s

/-- The name of the kind of node, as units spell it and messages print it. -/
def kindName : Expr → String
  | .intLit .. => "IntLiteral"
  | .boolLit .. => "BoolLiteral"
  | .ident .. => "Ident"
  | .self .. => "This"
  | .paren .. => "Paren"
  | .not .. => "Not"
  | .binary .. => "Binary"
  | .index .. => "Index"
  | .length .. => "Length"
  | .call .. => "Call"
  | .newArray .. => "NewIntArray"
  | .newObject .. => "NewObject"

/-- The expression inside any number of enclosing parentheses. -/
def unparen : Expr → Expr
  | .paren _ inner => unparen inner
  | e => e

end Expr

inductive Stmt where
  | block (span : Span) (body : List Stmt)
  | branch (span : Span) (cond : Expr) (thenBody : Stmt) (elseBody : Option Stmt)
  | loop (span : Span) (cond : Expr) (body : Stmt)
  | expr (span : Span) (value : Expr)
  | assign (span : Span) (target : String) (value : Expr)
  /-- Assignment to an array element. -/
  | store (span : Span) (target : String) (index value : Expr)
  | ret (span : Span) (value : Option Expr)
deriving Inhabited

namespace Stmt

def span : Stmt → Span
  | .block s _ => s
  | .branch s _ _ _ => s
  | .loop s _ _ => s
  | .expr s _ => s
  | .assign s _ _ => s
  | .store s _ _ _ => s
  | .ret s _ => s

/-- The name of the kind of node in messages. An expression statement is told apart from the
expression it holds. -/
def kindName : Stmt → String
  | .block .. => "Block"
  | .branch .. => "If"
  | .loop .. => "While"
  | .expr .. => "ExprStmt"
  | .assign .. => "Assign"
  | .store .. => "ArrayAssign"
  | .ret .. => "Return"

end Stmt

structure Method where
  span : Span := {}
  access : Access := .pack
  isConstructor : Bool := false
  name : String
  body : List Stmt := []
deriving Inhabited

/-- The entry method `main` is the only static method. -/
def Method.isEntry (m : Method) : Bool :=
  !m.isConstructor && m.name == "main"

structure Class where
  span : Span := {}
  name : String
  superClass : Option String := none
  methods : List Method := []
deriving Inhabited

/-- An import, as the segments of its dotted path. -/
structure Import where
  span : Span := {}
  path : List String
deriving DecidableEq, Inhabited

structure Program where
  imports : List Import := []
  cls : Class
deriving Inhabited

end JavaMinus.Source
