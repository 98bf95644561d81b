/-!
# Operands of flat code

Flat code is three-address code: each instruction works on operands, and every operand carries the
type of its value. The printed form of an operand ends in a point and its type.
-/

namespace JavaMinus.Flat

/-- The type of a value in flat code. -/
inductive Ty where
  | int
  | bool
  | str
  | void
  | array (elem : Ty)
  /-- An instance of a class. -/
  | object (cls : String)
  /-- A class itself, as the target of a static call. -/
  | classRef (cls : String)
  /-- The current object. -/
  | self (cls : String)
deriving DecidableEq, Inhabited

namespace Ty

def text : Ty → String
  | .int => "i32"
  | .bool => "bool"
  | .str => "String"
  | .void => "V"
  | .array elem => "array." ++ elem.text
  | .object cls => cls
  | .classRef cls => cls
  | .self cls => cls

/-- A value of this type is a reference to an object or array. -/
def isReference : Ty → Bool
  | .str | .array _ | .object _ | .self _ => true
  | .int | .bool | .void | .classRef _ => false

def intArray : Ty := .array .int

end Ty

inductive Operand where
  | lit (value : Int32) (ty : Ty)
  /-- A local variable or temporary. -/
  | var (name : String) (ty : Ty)
  /-- A parameter. Numbers start at one in instance methods and at zero in static ones. -/
  | param (index : Nat) (name : String) (ty : Ty)
  /-- An array element; the type is that of the element. -/
  | elem (array index : Operand) (ty : Ty)
  /-- The current object. -/
  | self (cls : String)
  /-- A class as the target of a static call or allocation. -/
  | classRef (name : String)
deriving DecidableEq, Inhabited

namespace Operand

def int (value : Int32) : Operand :=
  .lit value .int

def bool (value : Bool) : Operand :=
  .lit (if value then 1 else 0) .bool

def ty : Operand → Ty
  | .lit _ ty => ty
  | .var _ ty => ty
  | .param _ _ ty => ty
  | .elem _ _ ty => ty
  | .self cls => .self cls
  | .classRef name => .classRef name

/-- The name of a variable or parameter. -/
def name? : Operand → Option String
  | .var name _ => some name
  | .param _ name _ => some name
  | _ => none

def isLiteral : Operand → Bool
  | .lit .. => true
  | _ => false

/-- The names whose values are needed to evaluate the operand, in order, with repeats. -/
def reads : Operand → List String
  | .var name _ => [name]
  | .param _ name _ => [name]
  | .elem array index _ => array.reads ++ index.reads
  | .lit .. | .self _ | .classRef _ => []

/-- The operand and, for an array element, the operands inside it. -/
def parts : Operand → List Operand
  | .elem array index ty => .elem array index ty :: (array.parts ++ index.parts)
  | op => [op]

/-- The printed form. An array inside an element leaves out its own type. -/
def text : Operand → String
  | .lit value ty => toString value.toInt ++ "." ++ ty.text
  | .var name ty => name ++ "." ++ ty.text
  | .param index name ty => "$" ++ toString index ++ "." ++ name ++ "." ++ ty.text
  | .elem array index ty =>
    let base :=
      match array with
      | .param position name _ => "$" ++ toString position ++ "." ++ name
      | .var name _ => name
      | other => other.text
    base ++ "[" ++ index.text ++ "]." ++ ty.text
  | .self _ => "this"
  | .classRef name => name

end Operand

end JavaMinus.Flat
