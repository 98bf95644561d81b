import JavaMinus.Source.Tree

/-!
# Symbol tables

The declarations of one class: its fields, and for every method its result type, parameters and
local variables. A name used in a method means the local variable of that name, else the parameter,
else the field.
-/

namespace JavaMinus.Source

/-- A type as the program writes it: a primitive or class name, or an array of it. -/
structure TypeName where
  name : String
  isArray : Bool := false
deriving DecidableEq, Inhabited

def TypeName.text (t : TypeName) : String :=
  if t.isArray then t.name ++ "[]" else t.name

/-- A declared name: a field, parameter or local variable. -/
structure Symbol where
  name : String
  type : TypeName
deriving DecidableEq, Inhabited

structure MethodSymbols where
  name : String
  returnType : TypeName
  parameters : List Symbol := []
  locals : List Symbol := []
deriving DecidableEq, Inhabited

/-- What a name in a method stands for. -/
inductive Storage where
  | localVar
  /-- The parameter at this position, counted from zero. -/
  | param (position : Nat)
  | field
deriving DecidableEq, Inhabited

/-- A resolved name: where its value lives and how it was declared. -/
structure Binding where
  storage : Storage
  symbol : Symbol
deriving DecidableEq, Inhabited

/-- The last segment of a dotted path. -/
def simpleName (path : String) : String :=
  String.ofList (path.toList.reverse.takeWhile (· != '.')).reverse

structure SymbolTable where
  className : String
  superClass : Option String := none
  /-- Dotted paths in declaration order. -/
  imports : List String := []
  fields : List Symbol := []
  methods : List MethodSymbols := []
deriving DecidableEq, Inhabited

namespace SymbolTable

/-! ### Building a table -/

/-- Import a path; a path that is there already is not repeated. -/
def addImport (t : SymbolTable) (path : String) : SymbolTable :=
  if t.imports.contains path then t else { t with imports := t.imports ++ [path] }

def addField (t : SymbolTable) (name : String) (type : TypeName) : SymbolTable :=
  { t with fields := t.fields ++ [{ name, type }] }

def addMethod (t : SymbolTable) (m : MethodSymbols) : SymbolTable :=
  { t with methods := t.methods ++ [m] }

/-! ### Looking names up -/

/-- The first method of this name. -/
def method? (t : SymbolTable) (name : String) : Option MethodSymbols :=
  t.methods.find? fun m => m.name == name

/-- The first field of this name. -/
def field? (t : SymbolTable) (name : String) : Option Symbol :=
  t.fields.find? fun f => f.name == name

end SymbolTable

namespace MethodSymbols

def local? (m : MethodSymbols) (name : String) : Option Binding :=
  (m.locals.find? fun s => s.name == name).map fun s => { storage := .localVar, symbol := s }

def param? (m : MethodSymbols) (name : String) : Option Binding :=
  (m.parameters.zipIdx.find? fun p => p.1.name == name).map fun p =>
    { storage := .param p.2, symbol := p.1 }

end MethodSymbols

namespace SymbolTable

/-- What `name` means inside `method`: a local variable before a parameter before a field. A method
that the table does not list sees the fields only. -/
def resolve? (t : SymbolTable) (method name : String) : Option Binding :=
  ((t.method? method).bind fun m => (m.local? name).or (m.param? name)).or
    ((t.field? name).map fun f => { storage := .field, symbol := f })

def isDeclared (t : SymbolTable) (method name : String) : Bool :=
  (t.resolve? method name).isSome

/-- Every name that means something inside `method`. -/
def declaredNames (t : SymbolTable) (method : String) : List String :=
  match t.method? method with
  | some m => m.locals.map (·.name) ++ m.parameters.map (·.name) ++ t.fields.map (·.name)
  | none => t.fields.map (·.name)

/-- The first import whose last segment is `simple`. -/
def importPath? (t : SymbolTable) (simple : String) : Option String :=
  t.imports.find? fun path => simpleName path == simple

def isImported (t : SymbolTable) (simple : String) : Bool :=
  (t.importPath? simple).isSome

/-- A class the unit may mention: its own, its superclass or an imported one. -/
def isKnownClass (t : SymbolTable) (name : String) : Bool :=
  name == t.className || t.superClass == some name || t.isImported name

end SymbolTable

end JavaMinus.Source
