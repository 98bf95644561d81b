import JavaMinus.Assembly.Method

/-!
# Assembly of a class

The class header, its fields and its methods. A class whose flat code has no constructor gets one
that only runs the constructor of its superclass.
-/

namespace JavaMinus.Assembly

/-- A field with the descriptor of its type. -/
structure FieldLine where
  modifiers : String
  name : String
  descriptor : String
deriving DecidableEq, Inhabited

/-- A class in assembly. -/
structure Class where
  access : String
  name : String
  superName : String
  fields : List FieldLine
  /-- There is no constructor among the methods. -/
  addsConstructor : Bool
  methods : List Method
deriving DecidableEq, Inhabited

def FieldLine.text (f : FieldLine) : String :=
  ".field " ++ f.modifiers ++ f.name ++ " " ++ f.descriptor ++ "\n"

/-- The constructor of a class that has none of its own. -/
def plainConstructor (superName : String) : String :=
  ".method public <init>()V\n\taload_0\n\tinvokespecial " ++ superName ++
    "/<init>()V\n\treturn\n.end method\n"

namespace Class

def emitField (imports : List String) (f : Flat.Field) : Except Error FieldLine := do
  return { modifiers := f.modifiers, name := f.name, descriptor := ← typeDescriptor imports f.ty }

/-- The assembly of a class; `tables` has the slots of its methods, in order. -/
def emit (c : Flat.Class) (tables : List SlotTable) : Except Error Class := do
  c.checkConstructors
  if tables.length ≠ c.methods.length then
    throw (.unsupportedInstr (.tableCount c.methods.length tables.length))
  let fields ← c.fields.mapM (emitField c.imports)
  let methods ← (c.methods.zip tables).mapM fun (m, slots) => Method.emit c m slots
  return {
    access := c.access.keyword?.getD "public"
    name := c.name
    superName := match c.superClass with
      | some s => resolveClass c.imports s
      | none => "java/lang/Object"
    fields
    addsConstructor := c.constructorCount == 0
    methods }

def text (c : Class) : String :=
  ".class " ++ c.access ++ " " ++ c.name ++ "\n.super " ++ c.superName ++ "\n\n" ++
    String.join (c.fields.map FieldLine.text) ++ (if c.fields.isEmpty then "" else "\n") ++
    (if c.addsConstructor then plainConstructor c.superName ++ "\n" else "") ++
    String.join (c.methods.map fun m => m.text ++ "\n")

end Class

end JavaMinus.Assembly
