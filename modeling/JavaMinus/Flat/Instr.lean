import JavaMinus.Source.Tree
import JavaMinus.Flat.Operand

/-!
# Instructions of flat code

An assignment holds the instruction that produces its value, and a branch the instruction that it
tests. The methods here say what an instruction writes, what it reads and how it is printed.
-/

namespace JavaMinus.Flat

open JavaMinus.Source (BinOp)

/-- How a call finds the code it runs. -/
inductive Invocation where
  | static
  | virtual
  | special
  /-- Allocation of an object or array. -/
  | new
  | arrayLength
deriving DecidableEq, Inhabited

def Invocation.keyword : Invocation → String
  | .static => "invokestatic"
  | .virtual => "invokevirtual"
  | .special => "invokespecial"
  | .new => "new"
  | .arrayLength => "arraylength"

inductive Instr where
  | assign (dest : Operand) (ty : Ty) (rhs : Instr)
  | binary (op : BinOp) (lhs rhs : Operand)
  | not (operand : Operand)
  | call (invocation : Invocation) (target : Operand) (method : Option String)
      (args : List Operand) (ret : Ty)
  | ret (value : Option Operand)
  | goto (label : String)
  /-- Jump if the tested instruction yields true. -/
  | branch (cond : Instr) (label : String)
  | getField (object field : Operand)
  | putField (object field value : Operand)
  | single (operand : Operand)
  | nop
deriving DecidableEq, Inhabited

namespace Instr

def kindName : Instr → String
  | .assign .. => "assign"
  | .binary .. => "binary-op"
  | .not _ => "unary-op"
  | .call .. => "call"
  | .ret _ => "return"
  | .goto _ => "goto"
  | .branch .. => "branch"
  | .getField .. => "get-field"
  | .putField .. => "put-field"
  | .single _ => "single-op"
  | .nop => "no-op"

/-- The type of a binary operation's value. -/
def binaryType (op : BinOp) : Ty :=
  if op.isArithmetic then .int else .bool

/-- The type of the value that the instruction leaves behind; `void` if it leaves none. -/
def resultType : Instr → Ty
  | .binary op _ _ => binaryType op
  | .not _ => .bool
  | .call _ _ _ _ result => result
  | .getField _ field => field.ty
  | .single op => op.ty
  | _ => .void

/-- The variable or parameter that the instruction writes. A store to an array element writes
none. -/
def defines? : Instr → Option String
  | .assign dest _ _ => dest.name?
  | _ => none

/-- The names needed to address the destination of an assignment. -/
def destReads : Operand → List String
  | .elem array index _ => array.reads ++ index.reads
  | _ => []

/-- The names that the instruction reads, in operand order, with repeats. A field operand names a
field and is not read. -/
def reads : Instr → List String
  | .assign dest _ rhs => destReads dest ++ rhs.reads
  | .binary _ lhs rhs => lhs.reads ++ rhs.reads
  | .not op => op.reads
  | .call _ target _ args _ => target.reads ++ args.flatMap Operand.reads
  | .ret (some value) => value.reads
  | .ret none => []
  | .goto _ => []
  | .branch cond _ => cond.reads
  | .getField object _ => object.reads
  | .putField object _ value => object.reads ++ value.reads
  | .single op => op.reads
  | .nop => []

/-- Every operand that stands for a value or a slot, with those inside array elements. Field
operands are left out. -/
def operands : Instr → List Operand
  | .assign dest _ rhs => dest.parts ++ rhs.operands
  | .binary _ lhs rhs => lhs.parts ++ rhs.parts
  | .not op => op.parts
  | .call _ target _ args _ => target.parts ++ args.flatMap Operand.parts
  | .ret (some value) => value.parts
  | .ret none => []
  | .goto _ => []
  | .branch cond _ => cond.operands
  | .getField object _ => object.parts
  | .putField object _ value => object.parts ++ value.parts
  | .single op => op.parts
  | .nop => []

/-- The same assignment with another destination; other instructions have none to change. -/
def retarget? (dest : Operand) : Instr → Option Instr
  | .assign _ _ rhs => some (.assign dest dest.ty rhs)
  | _ => none

/-- An assignment typed by its destination. -/
def assignTo (dest : Operand) (rhs : Instr) : Instr :=
  .assign dest dest.ty rhs

def isReturn : Instr → Bool
  | .ret _ => true
  | _ => false

def text : Instr → String
  | .assign dest ty rhs => dest.text ++ " :=." ++ ty.text ++ " " ++ rhs.text
  | .binary op lhs rhs =>
    lhs.text ++ " " ++ op.symbol ++ "." ++ (binaryType op).text ++ " " ++ rhs.text
  | .not op => "!.bool " ++ op.text
  | .call invocation target method args result =>
    invocation.keyword ++ "(" ++ target.text ++
      (match method with | some m => ", \"" ++ m ++ "\"" | none => "") ++
      String.join (args.map fun a => ", " ++ a.text) ++ ")." ++ result.text
  | .ret (some value) => "ret." ++ value.ty.text ++ " " ++ value.text
  | .ret none => "ret.V"
  | .goto label => "goto " ++ label
  | .branch cond label => "if (" ++ cond.text ++ ") goto " ++ label
  | .getField object field =>
    "getfield(" ++ object.text ++ ", " ++ field.text ++ ")." ++ field.ty.text
  | .putField object field value =>
    "putfield(" ++ object.text ++ ", " ++ field.text ++ ", " ++ value.text ++ ").V"
  | .single op => op.text
  | .nop => "nop"

end Instr

/-- One line of flat code: a label or an instruction. -/
inductive Item where
  | label (name : String)
  | instr (instr : Instr)
deriving DecidableEq, Inhabited

abbrev Code := List Item

end JavaMinus.Flat
