import JavaMinus.Error
import JavaMinus.Source.Symbols

/-!
# Descriptors

The spelling of types and method signatures in class files. A class is written by its full path, with
slashes, if it is imported, and by its bare name otherwise.
-/

namespace JavaMinus.Assembly

open JavaMinus.Source (simpleName)
open JavaMinus.Flat (Ty)

/-- A dotted path with slashes. -/
def slashed (path : String) : String :=
  path.map fun c => if c == '.' then '/' else c

/-- The full name of a class. The last import of that simple name decides. -/
def resolveClass (imports : List String) (cls : String) : String :=
  match imports.reverse.find? fun path => simpleName path == cls with
  | some path => slashed path
  | none => cls

/-- A class type; the empty name has no descriptor. -/
def classDescriptor (imports : List String) (cls : String) : Except Error String :=
  if cls = "" then .error (.unmappedType cls) else .ok ("L" ++ resolveClass imports cls ++ ";")

/-- The descriptor of a type. There are no arrays of `void`. -/
def typeDescriptor (imports : List String) : Ty → Except Error String
  | .int => .ok "I"
  | .bool => .ok "Z"
  | .str => .ok "Ljava/lang/String;"
  | .void => .ok "V"
  | .array elem =>
    if elem = .void then .error (.unmappedType (Ty.array elem).text)
    else do return "[" ++ (← typeDescriptor imports elem)
  | .object cls => classDescriptor imports cls
  | .classRef cls => classDescriptor imports cls
  | .self cls => classDescriptor imports cls

/-- The descriptor of a method: its parameter types in parentheses, then its result type. -/
def methodDescriptor (imports : List String) (params : List Ty) (result : Ty) :
    Except Error String := do
  let types ← params.mapM (typeDescriptor imports)
  return "(" ++ String.join types ++ ")" ++ (← typeDescriptor imports result)

end JavaMinus.Assembly
