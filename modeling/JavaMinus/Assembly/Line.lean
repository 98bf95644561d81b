import JavaMinus.Flat.Operand
import JavaMinus.Source.Tree

/-!
# Assembly lines

A method body in assembly is a list of labels and opcodes for a stack machine with numbered slots.
`Line.text` spells a line.
-/

namespace JavaMinus.Assembly

open JavaMinus.Flat (Ty)
open JavaMinus.Source (BinOp)

/-- The two kinds of one-cell values that opcodes tell apart. -/
inductive Kind where
  | int
  | ref
deriving DecidableEq, Inhabited

namespace Kind

def of (ty : Ty) : Kind :=
  if ty.isReference then .ref else .int

/-- The first letter of an opcode for this kind. -/
def letter : Kind → String
  | .int => "i"
  | .ref => "a"

end Kind

/-- The comparison of two integers that a jump makes. -/
inductive Comparison where
  | lt | gt | le | ge | eq | ne
deriving DecidableEq, Inhabited

namespace Comparison

def of? : BinOp → Option Comparison
  | .lt => some .lt
  | .gt => some .gt
  | .le => some .le
  | .ge => some .ge
  | .eq => some .eq
  | .ne => some .ne
  | _ => none

def suffix : Comparison → String
  | .lt => "lt"
  | .gt => "gt"
  | .le => "le"
  | .ge => "ge"
  | .eq => "eq"
  | .ne => "ne"

end Comparison

/-- An operation on the two integers on top of the stack. -/
inductive Arith where
  | add | sub | mul | div | and | or | xor
deriving DecidableEq, Inhabited

namespace Arith

def of? : BinOp → Option Arith
  | .add => some .add
  | .sub => some .sub
  | .mul => some .mul
  | .div => some .div
  | .and => some .and
  | .or => some .or
  | _ => none

def mnemonic : Arith → String
  | .add => "iadd"
  | .sub => "isub"
  | .mul => "imul"
  | .div => "idiv"
  | .and => "iand"
  | .or => "ior"
  | .xor => "ixor"

end Arith

/-- How a call is dispatched. -/
inductive Dispatch where
  | static
  | virtual
  | special
deriving DecidableEq, Inhabited

def Dispatch.mnemonic : Dispatch → String
  | .static => "invokestatic"
  | .virtual => "invokevirtual"
  | .special => "invokespecial"

/-- A field of a class, with the descriptor of its type. -/
structure FieldRef where
  owner : String
  name : String
  descriptor : String
deriving DecidableEq, Inhabited

def FieldRef.text (f : FieldRef) : String :=
  f.owner ++ "/" ++ f.name ++ " " ++ f.descriptor

/-- A method of a class, with its descriptor. -/
structure MethodRef where
  owner : String
  name : String
  descriptor : String
deriving DecidableEq, Inhabited

def MethodRef.text (m : MethodRef) : String :=
  m.owner ++ "/" ++ m.name ++ m.descriptor

inductive Op where
  | const (value : Int32)
  | load (kind : Kind) (slot : Nat)
  | store (kind : Kind) (slot : Nat)
  | arrayLoad (kind : Kind)
  | arrayStore (kind : Kind)
  | arith (op : Arith)
  | pop
  | nop
  | goto (label : String)
  /-- Jump if the integer on top is zero. -/
  | ifZero (label : String)
  /-- Jump if the integer on top is not zero. -/
  | ifNonzero (label : String)
  /-- Jump if the two integers on top compare so. -/
  | ifCompare (cmp : Comparison) (label : String)
  | ret
  | retValue (kind : Kind)
  | getField (field : FieldRef)
  | putField (field : FieldRef)
  | invoke (dispatch : Dispatch) (method : MethodRef)
  | new (cls : String)
  | newIntArray
  | arrayLength
deriving DecidableEq, Inhabited

inductive Line where
  | label (name : String)
  | op (op : Op)
deriving DecidableEq, Inhabited

/-- An integer constant, in the shortest form that can hold it. -/
def constText (value : Int) : String :=
  if value = -1 then "iconst_m1"
  else if 0 ≤ value ∧ value ≤ 5 then "iconst_" ++ toString value
  else if -128 ≤ value ∧ value ≤ 127 then "bipush " ++ toString value
  else if -32768 ≤ value ∧ value ≤ 32767 then "sipush " ++ toString value
  else "ldc " ++ toString value

/-- A slot number after its opcode: the first four slots have opcodes of their own. -/
def slotText (slot : Nat) : String :=
  if slot ≤ 3 then "_" ++ toString slot else " " ++ toString slot

def Op.text : Op → String
  | .const value => constText value.toInt
  | .load kind slot => kind.letter ++ "load" ++ slotText slot
  | .store kind slot => kind.letter ++ "store" ++ slotText slot
  | .arrayLoad kind => kind.letter ++ "aload"
  | .arrayStore kind => kind.letter ++ "astore"
  | .arith op => op.mnemonic
  | .pop => "pop"
  | .nop => "nop"
  | .goto label => "goto " ++ label
  | .ifZero label => "ifeq " ++ label
  | .ifNonzero label => "ifne " ++ label
  | .ifCompare cmp label => "if_icmp" ++ cmp.suffix ++ " " ++ label
  | .ret => "return"
  | .retValue kind => kind.letter ++ "return"
  | .getField field => "getfield " ++ field.text
  | .putField field => "putfield " ++ field.text
  | .invoke dispatch method => dispatch.mnemonic ++ " " ++ method.text
  | .new cls => "new " ++ cls
  | .newIntArray => "newarray int"
  | .arrayLength => "arraylength"

/-- A line with its line break. Labels stand at the margin. -/
def Line.text : Line → String
  | .label name => name ++ ":\n"
  | .op o => "\t" ++ o.text ++ "\n"

end JavaMinus.Assembly
