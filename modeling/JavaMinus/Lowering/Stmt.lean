import JavaMinus.Lowering.Expr

/-!
# Lowering statements

A statement becomes labels, jumps and the code of its expressions. All labels of one statement share
a number.
-/

namespace JavaMinus.Lowering

open JavaMinus.Source (Expr Stmt)
open JavaMinus.Flat (Ty Operand Instr Item Code)

/-- A call whose value nobody wants is one instruction; any other expression runs for its effects. -/
def lowerExprStmt (σ : Scope) (e : Expr) : LowerM Code := do
  match e.unparen with
  | .call _ receiver method args =>
    let (code, call) ← lowerCall σ receiver method args .statement
    return code ++ [.instr call]
  | other => return (← lowerExpr σ other none).code

/-- Assignment to a variable or parameter. An instruction that would bind a temporary writes the
variable instead. -/
def assignToSlot (σ : Scope) (dest : Operand) (value : Expr) : LowerM Code := do
  match value.unparen with
  | .newObject _ cls =>
    let _ ← σ.objectType cls
    return constructInto dest cls
  | .call _ receiver method args =>
    let (code, call) ← lowerCall σ receiver method args (.assigned dest.ty)
    return code ++ [.instr (.assignTo dest call)]
  | _ =>
    let v ← lowerExpr σ value (some dest.ty)
    match v.takeBinding? with
    | some (binding, rest) => return rest.code ++ [.instr ((binding.retarget? dest).getD binding)]
    | none => return v.code ++ [.instr (.assignTo dest (.single v.result))]

def lowerAssign (σ : Scope) (target : String) (value : Expr) : LowerM Code := do
  match ← σ.slotOperand? target with
  | some dest => assignToSlot σ dest value
  | none =>
    match ← σ.fieldOperand? target with
    | some field =>
      let v ← lowerExpr σ value (some field.ty)
      return v.code ++ [.instr (.putField σ.self field v.result)]
    | none => throw (σ.unresolved target)

/-- Assignment to an array element: array, index, value, then the store. -/
def lowerStore (σ : Scope) (target : String) (index value : Expr) : LowerM Code := do
  let arr ← lowerName σ target
  requireSlot "ArrayAssign" arr.result
  let elem ← elementType arr.result
  let idx ← indexOperand σ (← lowerExpr σ index (some .int))
  let v ← lowerExpr σ value (some elem)
  return arr.code ++ idx.code ++ v.code ++
    [.instr (.assign (.elem arr.result idx.result elem) elem (.single v.result))]

def lowerReturn (σ : Scope) : Option Expr → LowerM Code
  | none => return [.instr (.ret none)]
  | some e => do
    let v ← lowerExpr σ e (some σ.returnType)
    return v.code ++ [.instr (.ret (some v.result))]

/-- The label of one place of a construct. -/
def placeLabel (place : String) (n : Nat) : String :=
  place ++ "_" ++ toString n

/-- A choice: the test jumps to the first branch, and the second one comes before it. -/
def branchCode (n : Nat) (test : Code × Instr) (thenCode elseCode : Code) : Code :=
  test.1 ++ [.instr (.branch test.2 (placeLabel "then" n))] ++ elseCode ++
    [.instr (.goto (placeLabel "endif" n)), .label (placeLabel "then" n)] ++ thenCode ++
    [.label (placeLabel "endif" n)]

/-- A loop: the test comes first and jumps over the way out. -/
def loopCode (n : Nat) (test : Code × Instr) (body : Code) : Code :=
  [.label (placeLabel "whilecond" n)] ++ test.1 ++
    [.instr (.branch test.2 (placeLabel "whilebody" n)), .instr (.goto (placeLabel "whileend" n)),
      .label (placeLabel "whilebody" n)] ++ body ++
    [.instr (.goto (placeLabel "whilecond" n)), .label (placeLabel "whileend" n)]

mutual

/-- The flat code of a statement. -/
def lowerStmt (σ : Scope) : Stmt → LowerM Code
  | .block _ body => lowerStmts σ body
  | .expr _ e => lowerExprStmt σ e
  | .assign _ target value => lowerAssign σ target value
  | .store _ target index value => lowerStore σ target index value
  | .ret _ value => lowerReturn σ value
  | .branch _ cond thenBody (some elseBody) => do
    let n ← freshLabel
    let test ← lowerCondition σ cond
    let elseCode ← lowerStmt σ elseBody
    let thenCode ← lowerStmt σ thenBody
    return branchCode n test thenCode elseCode
  | .branch _ cond thenBody none => do
    let n ← freshLabel
    let test ← lowerCondition σ cond
    let thenCode ← lowerStmt σ thenBody
    return branchCode n test thenCode []
  | .loop _ cond body => do
    let n ← freshLabel
    let test ← lowerCondition σ cond
    let bodyCode ← lowerStmt σ body
    return loopCode n test bodyCode
termination_by structural s => s

/-- The flat code of a list of statements. -/
def lowerStmts (σ : Scope) : List Stmt → LowerM Code
  | [] => return []
  | s :: rest => do
    let code ← lowerStmt σ s
    return code ++ (← lowerStmts σ rest)
termination_by structural body => body

end

end JavaMinus.Lowering
