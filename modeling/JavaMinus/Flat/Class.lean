import JavaMinus.Flat.Method

/-!
# Classes of flat code

The lowered form of a class and its printed text.
-/

namespace JavaMinus.Flat

open JavaMinus.Source (Access)

structure Field where
  name : String
  ty : Ty
  access : Access := .pack
  isStatic : Bool := false
  isFinal : Bool := false
deriving DecidableEq, Inhabited

/-- The modifiers of a field, each followed by a blank. -/
def Field.modifiers (f : Field) : String :=
  f.access.lead ++ (if f.isStatic then "static " else "") ++ (if f.isFinal then "final " else "")

structure Class where
  name : String
  access : Access := .pack
  superClass : Option String := none
  /-- Dotted paths. -/
  imports : List String := []
  fields : List Field := []
  methods : List Method := []
deriving DecidableEq, Inhabited

namespace Class

def constructorCount (c : Class) : Nat :=
  c.methods.countP fun m => m.isConstructor

/-- A class has at most one constructor. -/
def checkConstructors (c : Class) : Except Error Unit :=
  if c.constructorCount > 1 then .error (.multipleConstructors c.name c.constructorCount) else .ok ()

end Class

/-! ### Printing -/

def Field.text (f : Field) : String :=
  "    .field " ++ f.modifiers ++ f.name ++ "." ++ f.ty.text ++ ";\n"

def Param.text (p : Param) : String :=
  p.name ++ "." ++ p.ty.text

/-- The labels of a step and its instruction, one line each. -/
def Step.text (s : Step) : String :=
  String.join (s.labels.map fun l => "      " ++ l ++ ":\n") ++ "        " ++ s.instr.text ++ ";\n"

/-- The opening line of a method block, without the brace. -/
def Header.text (h : Header) : String :=
  let params := "(" ++ ", ".intercalate (h.params.map Param.text) ++ ")."
  if h.isConstructor then ".construct " ++ h.name ++ params ++ "V"
  else
    ".method " ++ h.access.lead ++ (if h.isStatic then "static " else "") ++ h.name ++ params ++
      h.returnType.text

def Method.text (m : Method) : String :=
  "    " ++ m.toHeader.text ++ " \x7b\n" ++ String.join (m.steps.map Step.text) ++ "    \x7d\n"

/-- The whole class: imports, opening line, fields and methods, with a blank line between the
parts. -/
def Class.text (c : Class) : String :=
  String.join (c.imports.map fun path => "import " ++ path ++ ";\n") ++
    (if c.imports.isEmpty then "" else "\n") ++
    c.name ++ (match c.superClass with | some s => " extends " ++ s | none => "") ++ " \x7b\n" ++
    String.join (c.fields.map Field.text) ++
    (if c.fields.isEmpty then "" else "\n") ++
    "\n".intercalate (c.methods.map Method.text) ++ "\x7d\n"

end JavaMinus.Flat
