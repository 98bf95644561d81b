import JavaMinus.Assembly.Descriptor
import JavaMinus.Assembly.Line
import JavaMinus.Assembly.StackDepth
import JavaMinus.Flat.Class
import JavaMinus.Slots.Table

/-!
# Assembly of a method

Each instruction of flat code becomes a run of lines that leaves the operand stack as it found it.
While the lines are laid out every push and pop is counted, and the greatest depth becomes the stack
limit of the method.
-/

namespace JavaMinus.Assembly

open JavaMinus.Flat (Ty Operand Instr Invocation)
open JavaMinus.Source (Access BinOp)

/-- What the code of a method refers to. -/
structure Frame where
  cls : Flat.Class
  method : Flat.Method
  slots : SlotTable

/-- The progress of emission: the stack, and the number of the next label made up on the way. -/
structure EmitState where
  stack : StackDepth := {}
  labels : Nat := 0
deriving DecidableEq, Inhabited

abbrev EmitM := StateT EmitState (Except Error)

/-! ### Bookkeeping -/

def push (n : Nat) : EmitM Unit :=
  modify fun s => { s with stack := s.stack.push n }

def pop (φ : Frame) (n : Nat) : EmitM Unit := do
  let s ← get
  let stack ← s.stack.pop φ.method.name n
  set { s with stack }

/-- A label that no other place of the method has. -/
def inventLabel (base : String) : EmitM String := do
  let s ← get
  set { s with labels := s.labels + 1 }
  return base ++ "_" ++ toString s.labels

def unsupported {α : Type} (fault : InstrFault) : EmitM α :=
  throw (.unsupportedInstr fault)

namespace Frame

/-- The full name of the superclass. -/
def superName (φ : Frame) : String :=
  match φ.cls.superClass with
  | some s => resolveClass φ.cls.imports s
  | none => "java/lang/Object"

/-- The slot of a variable or parameter. -/
def slotOf (φ : Frame) (op : Operand) : Except Error Nat :=
  let name := op.name?.getD ""
  match φ.slots.get? name with
  | some slot => .ok slot.index.toNat
  | none => .error (.unsupportedInstr (.noSlot name φ.method.name))

/-- The class that a method called on this operand belongs to. -/
def ownerOf (φ : Frame) (op : Operand) : Except Error String :=
  match op.ty with
  | .self _ => .ok φ.cls.name
  | .object cls => .ok (resolveClass φ.cls.imports cls)
  | .classRef cls => .ok (resolveClass φ.cls.imports cls)
  | ty => .error (.unsupportedInstr (.noOwner ty))

/-- The field of this class that an operand names. -/
def fieldRef (φ : Frame) (op : Operand) : Except Error FieldRef :=
  match op with
  | .var name ty => do
    return { owner := φ.cls.name, name, descriptor := ← typeDescriptor φ.cls.imports ty }
  | _ => .error (.unsupportedInstr (.notField op))

end Frame

/-! ### Values -/

/-- Put the value of an operand on the stack. -/
def load (φ : Frame) : Operand → EmitM (List Line)
  | .lit value _ => do
    push 1
    return [.op (.const value)]
  | .self _ => do
    push 1
    return [.op (.load .ref 0)]
  | .var name ty => do
    let slot ← φ.slotOf (.var name ty)
    push 1
    return [.op (.load (.of ty) slot)]
  | .param index name ty => do
    let slot ← φ.slotOf (.param index name ty)
    push 1
    return [.op (.load (.of ty) slot)]
  | .elem array index ty => do
    let a ← load φ array
    let i ← load φ index
    pop φ 2
    push 1
    return a ++ i ++ [.op (.arrayLoad (.of ty))]
  | .classRef name => unsupported (.classValue (.classRef name))

/-- Put the values of several operands on the stack, in order. -/
def loadAll (φ : Frame) : List Operand → EmitM (List Line)
  | [] => return []
  | op :: rest => do
    let first ← load φ op
    return first ++ (← loadAll φ rest)

/-- Move the value on top of the stack into a variable or parameter. -/
def store (φ : Frame) (dest : Operand) : EmitM (List Line) := do
  let slot ← φ.slotOf dest
  pop φ 1
  return [.op (.store (.of dest.ty) slot)]

/-- A binary operation. A comparison puts zero or one on the stack by way of two labels. -/
def binary (φ : Frame) (op : BinOp) (lhs rhs : Operand) : EmitM (List Line) := do
  let l ← load φ lhs
  let r ← load φ rhs
  match Arith.of? op with
  | some a =>
    pop φ 2
    push 1
    return l ++ r ++ [.op (.arith a)]
  | none =>
    let yes ← inventLabel "cmp_true"
    let done ← inventLabel "cmp_end"
    pop φ 2
    push 1
    return l ++ r ++
      [.op (.ifCompare ((Comparison.of? op).getD .ne) yes), .op (.const 0), .op (.goto done),
        .label yes, .op (.const 1), .label done]

/-- Allocation. The target `array` makes an integer array of the size given as argument. -/
def allocation (φ : Frame) (target : Operand) (args : List Operand) : EmitM (List Line) :=
  match target with
  | .classRef name =>
    if name = "array" then
      match args with
      | [] => unsupported .arrayWithoutSize
      | size :: _ => do
        let n ← load φ size
        pop φ 1
        push 1
        return n ++ [.op .newIntArray]
    else do
      push 1
      return [.op (.new (resolveClass φ.cls.imports name))]
  | _ => unsupported (.notInstantiable target)

/-- The receiver of a call: its lines, the dispatch, the owner of the method and the result type. -/
def callTarget (φ : Frame) (invocation : Invocation) (target : Operand) (result : Ty) :
    EmitM (List Line × Dispatch × String × Ty) :=
  match invocation with
  | .static =>
    match target with
    | .classRef cls => return ([], .static, resolveClass φ.cls.imports cls, result)
    | _ => unsupported (.staticTarget target)
  | .virtual => do
    let lines ← load φ target
    return (lines, .virtual, ← φ.ownerOf target, result)
  | _ => do
    let lines ← load φ target
    let owner ← match target with
      | .self _ => pure φ.superName
      | _ => (φ.ownerOf target : EmitM String)
    return (lines, .special, owner, .void)

/-- A call of a named method. The flag tells whether it leaves a value on the stack. -/
def namedCall (φ : Frame) (invocation : Invocation) (target : Operand) (name : String)
    (args : List Operand) (result : Ty) : EmitM (List Line × Bool) := do
  let (receiver, dispatch, owner, ret) ← callTarget φ invocation target result
  let values ← loadAll φ args
  let descriptor ← methodDescriptor φ.cls.imports (args.map Operand.ty) ret
  pop φ (args.length + if invocation = .static then 0 else 1)
  let lines := receiver ++ values ++ [.op (.invoke dispatch { owner, name, descriptor })]
  if ret = .void then return (lines, false)
  else
    push 1
    return (lines, true)

/-- A call instruction. The flag tells whether it leaves a value on the stack. -/
def call (φ : Frame) (invocation : Invocation) (target : Operand) (method : Option String)
    (args : List Operand) (result : Ty) : EmitM (List Line × Bool) :=
  match invocation with
  | .new => do return (← allocation φ target args, true)
  | .arrayLength => do
    let lines ← load φ target
    pop φ 1
    push 1
    return (lines ++ [.op .arrayLength], true)
  | _ =>
    match method with
    | some name => namedCall φ invocation target name args result
    | none => unsupported (.unnamedCall (.call invocation target method args result))

/-- Evaluate an instruction and leave its value on the stack. -/
def value (φ : Frame) : Instr → EmitM (List Line)
  | .single op => load φ op
  | .binary op lhs rhs => binary φ op lhs rhs
  | .not op => do
    let lines ← load φ op
    push 1
    pop φ 1
    return lines ++ [.op (.const 1), .op (.arith .xor)]
  | .getField object field => do
    let lines ← load φ object
    let ref ← φ.fieldRef field
    pop φ 1
    push 1
    return lines ++ [.op (.getField ref)]
  | .call invocation target method args result => do
    let (lines, hasValue) ← call φ invocation target method args result
    if hasValue then return lines
    else unsupported (.voidCallValue (.call invocation target method args result))
  | instr => unsupported (.noValue instr)

/-! ### Instructions -/

def assign (φ : Frame) (dest : Operand) (rhs : Instr) : EmitM (List Line) :=
  match dest with
  | .elem array index ty => do
    let a ← load φ array
    let i ← load φ index
    let v ← value φ rhs
    pop φ 3
    return a ++ i ++ v ++ [.op (.arrayStore (.of ty))]
  | .var .. | .param .. => do
    let v ← value φ rhs
    return v ++ (← store φ dest)
  | _ => unsupported (.notAssignable dest)

def returnLines (φ : Frame) : Option Operand → EmitM (List Line)
  | none => return [.op .ret]
  | some op => do
    let lines ← load φ op
    pop φ 1
    return lines ++ [.op (.retValue (.of op.ty))]

/-- A conditional jump. Comparisons and negations need no value on the stack for their result. -/
def branch (φ : Frame) (cond : Instr) (label : String) : EmitM (List Line) :=
  let byValue : EmitM (List Line) := do
    let lines ← value φ cond
    pop φ 1
    return lines ++ [.op (.ifNonzero label)]
  match cond with
  | .binary op lhs rhs =>
    match Comparison.of? op with
    | some cmp => do
      let l ← load φ lhs
      let r ← load φ rhs
      pop φ 2
      return l ++ r ++ [.op (.ifCompare cmp label)]
    | none => byValue
  | .not op => do
    let lines ← load φ op
    pop φ 1
    return lines ++ [.op (.ifZero label)]
  | _ => byValue

/-- A value that nobody wants is taken off the stack again. -/
def discarded (φ : Frame) (lines : List Line) : EmitM (List Line) := do
  pop φ 1
  return lines ++ [.op .pop]

/-- The lines of one instruction. -/
def instruction (φ : Frame) : Instr → EmitM (List Line)
  | .assign dest _ rhs => assign φ dest rhs
  | .call invocation target method args result => do
    let (lines, hasValue) ← call φ invocation target method args result
    if hasValue then discarded φ lines else return lines
  | .ret op => returnLines φ op
  | .goto label => return [.op (.goto label)]
  | .branch cond label => branch φ cond label
  | .putField object field v => do
    let o ← load φ object
    let x ← load φ v
    let ref ← φ.fieldRef field
    pop φ 2
    return o ++ x ++ [.op (.putField ref)]
  | .nop => return [.op .nop]
  | instr => do discarded φ (← value φ instr)

/-- The labels of each step, followed by the lines of its instruction. -/
def stepLines (φ : Frame) : List Flat.Step → EmitM (List Line)
  | [] => return []
  | s :: rest => do
    let lines ← instruction φ s.instr
    return s.labels.map .label ++ lines ++ (← stepLines φ rest)

/-- A method whose last path is open gets a return at its end. -/
def closing (m : Flat.Method) : List Line :=
  if !m.hasReturn || (m.returnType = .void && !m.endsInReturn) then [.op .ret] else []

/-! ### Methods -/

/-- A method in assembly. -/
structure Method where
  access : Access
  isStatic : Bool
  name : String
  descriptor : String
  stackLimit : Nat
  localsLimit : Nat
  body : List Line
deriving DecidableEq, Inhabited

namespace Method

/-- The assembly of a method of `cls` whose variables live in these slots. -/
def emit (cls : Flat.Class) (m : Flat.Method) (slots : SlotTable) : Except Error Method := do
  let (lines, state) ← (stepLines { cls, method := m, slots } m.steps).run {}
  let result := if m.isConstructor then .void else m.returnType
  return {
    access := m.access
    isStatic := m.isStatic
    name := if m.isConstructor then "<init>" else m.name
    descriptor := ← methodDescriptor cls.imports (m.params.map (·.ty)) result
    stackLimit := state.stack.peak
    localsLimit := slots.localsLimit
    body := lines ++ closing m }

def text (m : Method) : String :=
  ".method " ++ m.access.lead ++ (if m.isStatic then "static " else "") ++ m.name ++ m.descriptor ++
    "\n\t.limit stack " ++ toString m.stackLimit ++ "\n\t.limit locals " ++ toString m.localsLimit ++
    "\n" ++ String.join (m.body.map Line.text) ++ ".end method\n"

end Method

end JavaMinus.Assembly
