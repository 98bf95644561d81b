import JavaMinus.Flat.Instr

/-!
# Errors

Why a unit cannot be compiled. Each cause is a value; `Error.message` gives its wording.
-/

namespace JavaMinus

open JavaMinus.Flat (Operand Ty Instr)

/-- A node of the tree that cannot stand where it does. -/
inductive NodeFault where
  | fieldInStatic (field method : String)
  /-- The array of an element access, in a node of this kind, is not held in a variable. -/
  | arrayNotVariable (kind : String) (array : Operand)
  | indexOfNonArray (ty : Ty)
  | voidValue (method : String)
  /-- A method cannot be called on this value, which a node of this kind produces. -/
  | badReceiver (kind method : String) (receiver : Operand)
  | undeclaredMethod (method : String)
deriving DecidableEq

namespace NodeFault

/-- The kind of the node at fault. -/
def kind : NodeFault → String
  | .fieldInStatic .. => "Ident"
  | .arrayNotVariable kind _ => kind
  | .indexOfNonArray _ => "Index"
  | .voidValue _ => "Call"
  | .badReceiver kind _ _ => kind
  | .undeclaredMethod _ => "MethodDecl"

def detail : NodeFault → String
  | .fieldInStatic field method => "field '" ++ field ++ "' used in static method '" ++ method ++ "'"
  | .arrayNotVariable _ array => "array operand " ++ array.text ++ " is not a variable"
  | .indexOfNonArray ty => "indexing non-array value of type " ++ ty.text
  | .voidValue method => "void call to '" ++ method ++ "' used as a value"
  | .badReceiver _ method receiver => "cannot call '" ++ method ++ "' on " ++ receiver.text
  | .undeclaredMethod method => "method '" ++ method ++ "' has no symbol table entry"

end NodeFault

/-- An instruction of flat code that has no assembly. -/
inductive InstrFault where
  | undefinedLabel (label method : String)
  | tableCount (methods tables : Nat)
  | voidCallValue (call : Instr)
  | noValue (instr : Instr)
  | notAssignable (dest : Operand)
  | staticTarget (target : Operand)
  | unnamedCall (call : Instr)
  | arrayWithoutSize
  | notInstantiable (target : Operand)
  | noOwner (ty : Ty)
  | notField (operand : Operand)
  | noSlot (name method : String)
  | classValue (operand : Operand)
deriving DecidableEq

def InstrFault.detail : InstrFault → String
  | .undefinedLabel label method => "jump to undefined label '" ++ label ++ "' in " ++ method
  | .tableCount methods tables =>
    toString methods ++ " methods but " ++ toString tables ++ " slot tables"
  | .voidCallValue call => "void call used as a value: " ++ call.text
  | .noValue instr => instr.kindName ++ " does not produce a value: " ++ instr.text
  | .notAssignable dest => "cannot assign to " ++ dest.text
  | .staticTarget target => "static call on " ++ target.text
  | .unnamedCall call => "call without method name: " ++ call.text
  | .arrayWithoutSize => "new array without a size"
  | .notInstantiable target => "cannot instantiate " ++ target.text
  | .noOwner ty => "method call on value of type " ++ ty.text
  | .notField operand => "field operand " ++ operand.text
  | .noSlot name method => "no slot for '" ++ name ++ "' in " ++ method
  | .classValue operand => "class name " ++ operand.text ++ " is not a value"

inductive Error where
  | unsupportedNode (fault : NodeFault)
  | unsupportedInstr (fault : InstrFault)
  | unmappedType (type : String)
  | multipleConstructors (cls : String) (count : Nat)
  | unresolved (name method : String)
  | slotLimit (method : String) (needed limit : Nat)
  | stackUnderflow (method : String)
  | rejectedUnit (errors : Nat)
deriving DecidableEq

def Error.message : Error → String
  | .unsupportedNode fault => "unsupported " ++ fault.kind ++ " node: " ++ fault.detail
  | .unsupportedInstr fault => "unsupported instruction: " ++ fault.detail
  | .unmappedType type => "unmapped type '" ++ type ++ "'"
  | .multipleConstructors cls count =>
    "class " ++ cls ++ " declares " ++ toString count ++ " constructors; at most one is allowed"
  | .unresolved name method =>
    "identifier '" ++ name ++ "' does not resolve inside method '" ++ method ++ "'"
  | .slotLimit method needed limit =>
    "method '" ++ method ++ "' needs " ++ toString needed ++ " local slots but only " ++
      toString limit ++ " are allowed"
  | .stackUnderflow method => "operand stack underflow while emitting '" ++ method ++ "'"
  | .rejectedUnit errors =>
    "unit rejected by semantic analysis (" ++ toString errors ++ " error(s))"

end JavaMinus
