import JavaMinus.Flat.Class
import JavaMinus.Lowering.Stmt
import JavaMinus.Source.Unit

/-!
# Lowering a class

Fields come from the symbol table, methods from the tree in their order. A class without constructor
gets one that calls the constructor of its superclass. The first error ends the whole class.
-/

namespace JavaMinus.Lowering

open JavaMinus.Source (SymbolTable Program)
open JavaMinus.Flat (Ty Operand Instr Item Code Header Param)

/-- The call of the superclass constructor with which every constructor starts. -/
def superInit (σ : Scope) : Item :=
  .instr (.call .special σ.self (some "<init>") [] .void)

def defaultConstructor (σ : Scope) : Except Error Flat.Method :=
  Flat.Method.assemble
    { name := σ.symbols.className, access := .pub, isConstructor := true, returnType := .void }
    [superInit σ]

/-- The result type of a method; constructors have none. -/
def methodResult (σ : Scope) (decl : Source.Method) : Except Error Ty :=
  match σ.symbols.method? decl.name with
  | some m => if decl.isConstructor then .ok .void else σ.typeOf m.returnType
  | none => .ok .void

def methodParams (σ : Scope) (decl : Source.Method) : Except Error (List Param) :=
  match σ.symbols.method? decl.name with
  | some m => m.parameters.mapM fun p => return { name := p.name, ty := ← σ.typeOf p.type }
  | none => .ok []

/-- The scope inside a method. -/
def methodScope (σ : Scope) (decl : Source.Method) (result : Ty) : Scope :=
  { σ with method := decl.name, isStatic := decl.isEntry, returnType := result }

def endsInReturn (code : Code) : Bool :=
  match code.getLast? with
  | some (.instr i) => i.isReturn
  | _ => false

/-- Close the body of a method without result by a return, unless it ends in one. -/
def closeBody (result : Ty) (code : Code) : Code :=
  if result = .void && !endsInReturn code then code ++ [.instr (.ret none)] else code

def lowerMethod (σ : Scope) (decl : Source.Method) : LowerM Flat.Method := do
  if (σ.symbols.method? decl.name).isNone && !decl.isConstructor then
    throw (.unsupportedNode (.undeclaredMethod decl.name))
  let result ← methodResult σ decl
  let params ← methodParams σ decl
  let inner := methodScope σ decl result
  let body ← lowerStmts inner decl.body
  let code := (if decl.isConstructor then [superInit inner] else []) ++ body
  Flat.Method.assemble
    { name := decl.name, access := decl.access, isStatic := inner.isStatic,
      isConstructor := decl.isConstructor, params, returnType := result }
    (closeBody result code)

/-- The imports of a class: those of the symbol table, then those of the tree that are new. -/
def classImports (program : Program) (symbols : SymbolTable) : List String :=
  program.imports.foldl
    (fun paths i =>
      let path := ".".intercalate i.path
      if paths.contains path then paths else paths ++ [path])
    symbols.imports

def lowerFields (σ : Scope) : Except Error (List Flat.Field) :=
  σ.symbols.fields.mapM fun f => return { name := f.name, ty := ← σ.typeOf f.type }

/-- The methods of a class, the default constructor first if there is no other. -/
def lowerMethods (σ : Scope) (decls : List Source.Method) : LowerM (List Flat.Method) := do
  let methods ← decls.mapM (lowerMethod σ)
  if decls.any fun d => d.isConstructor then return methods
  return (← defaultConstructor σ) :: methods

/-- The flat form of a program. -/
def lowerProgram (program : Program) (symbols : SymbolTable) : Except Error Flat.Class := do
  let cls := program.cls
  let constructors := cls.methods.countP fun m => m.isConstructor
  if constructors > 1 then throw (.multipleConstructors cls.name constructors)
  let σ : Scope := { symbols }
  let fields ← lowerFields σ
  let methods ← ((lowerMethods σ cls.methods).run {}).1
  return {
    name := cls.name
    access := .pub
    superClass := cls.superClass.or symbols.superClass
    imports := classImports program symbols
    fields
    methods }

end JavaMinus.Lowering
