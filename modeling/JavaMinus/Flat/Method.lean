import JavaMinus.Error

/-!
# Methods of flat code

`Method.assemble` turns a list of labels and instructions into a numbered method: every instruction
gets an id, keeps the labels that stand directly before it, and lists the ids that control may reach
next.
-/

namespace JavaMinus.Flat

open JavaMinus.Source (Access)

structure Param where
  name : String
  ty : Ty
deriving DecidableEq, Inhabited

/-- A method without its body. -/
structure Header where
  name : String
  access : Access := .pack
  isStatic : Bool := false
  isConstructor : Bool := false
  params : List Param := []
  returnType : Ty
deriving DecidableEq, Inhabited

/-- A numbered instruction with its labels and the ids of its successors. -/
structure Step where
  id : Nat
  labels : List String := []
  instr : Instr
  succs : List Nat := []
deriving DecidableEq, Inhabited

structure Method extends Header where
  steps : List Step
deriving DecidableEq, Inhabited

/-! ### Assembly -/

/-- Every instruction with the labels before it; `pending` labels wait for their instruction.
Labels at the end are put on an instruction without effect. -/
def attachLabels : Code → List String → List (List String × Instr)
  | [], [] => []
  | [], pending => [(pending, .nop)]
  | .label name :: rest, pending => attachLabels rest (pending ++ [name])
  | .instr instr :: rest, pending => (pending, instr) :: attachLabels rest []

/-- The id of the last instruction that carries `label`; ids count from one. -/
def labelId? (body : List (List String × Instr)) (label : String) : Option Nat :=
  ((body.zipIdx 1).reverse.find? fun p => p.1.1.contains label).map (·.2)

/-- The ids that control may reach after an instruction. A branch lists its target first. -/
def successors (target : String → Except Error Nat) (next : Option Nat) :
    Instr → Except Error (List Nat)
  | .goto label => return [← target label]
  | .branch _ label => do
    let taken ← target label
    return taken :: (next.filter (· != taken)).toList
  | .ret _ => return []
  | _ => return next.toList

/-- The id of a jump's target. -/
def jumpTarget (method : String) (body : List (List String × Instr)) (label : String) :
    Except Error Nat :=
  match labelId? body label with
  | some id => .ok id
  | none => .error (.unsupportedInstr (.undefinedLabel label method))

namespace Method

/-- Number the instructions from one, attach the labels and link the successors. Fails if a jump
names a label that is not there. -/
def assemble (header : Header) (code : Code) : Except Error Method := do
  let body := attachLabels code []
  let steps ← (body.zipIdx 1).mapM fun ((labels, instr), id) => do
    let next := if id < body.length then some (id + 1) else none
    let succs ← successors (jumpTarget header.name body) next instr
    return { id, labels, instr, succs : Step }
  return { toHeader := header, steps }

def hasReturn (m : Method) : Bool :=
  m.steps.any fun s => s.instr.isReturn

/-- The last instruction is a return. -/
def endsInReturn (m : Method) : Bool :=
  m.steps.getLast?.any fun s => s.instr.isReturn

/-- Add a variable unless one of its name is there. -/
def addVar (seen : List (String × Ty)) : Operand → List (String × Ty)
  | .var name ty => if seen.any fun v => v.1 == name then seen else seen ++ [(name, ty)]
  | _ => seen

/-- The local variables and temporaries of the body, in order of first appearance, each with the
type it has there. -/
def vars (m : Method) : List (String × Ty) :=
  (m.steps.flatMap fun s => s.instr.operands).foldl addVar []

end Method

end JavaMinus.Flat
