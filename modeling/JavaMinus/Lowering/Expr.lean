import JavaMinus.Lowering.Scope

/-!
# Lowering expressions

Operands are lowered from left to right and their code is laid out in that order. `&&` and `||` skip
their right operand by a jump. A type hint says what the place around an expression expects; only a
call whose method is not declared in this class looks at it.
-/

namespace JavaMinus.Lowering

open JavaMinus.Source (Expr BinOp TypeName MethodSymbols)
open JavaMinus.Flat (Ty Operand Instr Item Code Invocation)

/-! ### Pieces -/

/-- A field is read into a temporary; other names need no code. -/
def lowerName (σ : Scope) (name : String) : LowerM Lowered := do
  match ← σ.slotOperand? name with
  | some op => return .value op
  | none =>
    match ← σ.fieldOperand? name with
    | some field =>
      let dest ← freshTemp σ field.ty
      return .computed [] dest (.getField σ.self field)
    | none =>
      if σ.symbols.isKnownClass name then return .value (.classRef name)
      else throw (σ.unresolved name)

/-- The array of an element access must be held in a variable or parameter. -/
def requireSlot (kind : String) (op : Operand) : Except Error Unit :=
  match op with
  | .var .. | .param .. => .ok ()
  | _ => .error (.unsupportedNode (.arrayNotVariable kind op))

/-- The type of the elements of an array. -/
def elementType (op : Operand) : Except Error Ty :=
  match op.ty with
  | .array elem => .ok elem
  | ty => .error (.unsupportedNode (.indexOfNonArray ty))

/-- An index must not be a literal: it is copied into a temporary first. -/
def indexOperand (σ : Scope) (idx : Lowered) : LowerM Lowered := do
  if idx.result.isLiteral then
    let dest ← freshTemp σ .int
    return .computed idx.code dest (.single idx.result)
  else return idx

/-- Allocate an object into `dest` and run its constructor. -/
def constructInto (dest : Operand) (cls : String) : Code :=
  [.instr (.assignTo dest (.call .new (.classRef cls) none [] dest.ty)),
    .instr (.call .special dest (some "<init>") [] .void)]

/-- The label that ends a short-circuit operation. -/
def skipLabel (op : BinOp) (n : Nat) : String :=
  (if op = .and then "and_end_" else "or_end_") ++ toString n

/-- The test under which a short-circuit operation skips its right operand. -/
def skipTest (op : BinOp) (left : Operand) : Instr :=
  if op = .and then .not left else .single left

/-! ### Calls -/

/-- Where the value of a call goes. -/
inductive CallUse where
  /-- Nowhere: the call is a statement. -/
  | statement
  /-- Into a variable of this type. -/
  | assigned (ty : Ty)
  /-- Into an expression that may expect a type. -/
  | value (hint : Option Ty)
deriving DecidableEq

/-- The receiver of a call. -/
structure Receiver where
  code : Code := []
  invocation : Invocation
  target : Operand
deriving DecidableEq

/-- The receiver that `e` denotes: the current object, a class whose name means nothing else, or the
value of the expression, which `lowered` computes. -/
def receiverOf (σ : Scope) (method : String) (e : Expr) (lowered : LowerM Lowered) :
    LowerM Receiver :=
  let byValue : LowerM Receiver := do
    let r ← lowered
    match r.result with
    | .lit .. | .elem .. =>
      throw (.unsupportedNode (.badReceiver e.unparen.kindName method r.result))
    | target => return { code := r.code, invocation := .virtual, target }
  match e.unparen with
  | .self _ => return { invocation := .virtual, target := σ.self }
  | .ident _ name =>
    if !σ.symbols.isDeclared σ.method name && σ.symbols.isKnownClass name then
      return { invocation := .static, target := .classRef name }
    else byValue
  | _ => byValue

/-- The target belongs to the class being compiled, so its declarations can be seen. -/
def isOwnClass (σ : Scope) : Operand → Bool
  | .self _ => true
  | .classRef name => name == σ.symbols.className
  | op => op.ty == .object σ.symbols.className

/-- The declaration of the called method, if it can be seen. -/
def declaration? (σ : Scope) (target : Operand) (method : String) : Option MethodSymbols :=
  if isOwnClass σ target then σ.symbols.method? method else none

/-- The result type of a call. -/
def callType (declared : Option Ty) : CallUse → Ty
  | .assigned ty => ty
  | .statement => declared.getD .void
  | .value hint => (declared.or hint).getD .int

/-- A call: its receiver, then its arguments, which `args` lowers for the declared parameter types,
then the call instruction itself. -/
def callWith (σ : Scope) (method : String) (receiver : LowerM Receiver)
    (args : List TypeName → LowerM (Code × List Operand)) (usage : CallUse) :
    LowerM (Code × Instr) := do
  let r ← receiver
  let declared := declaration? σ r.target method
  let (argCode, operands) ← args (match declared with
    | some d => d.parameters.map (·.type)
    | none => [])
  let result ← match declared with
    | some d => some <$> (σ.typeOf d.returnType : LowerM Ty)
    | none => pure none
  return (r.code ++ argCode,
    .call r.invocation r.target (some method) operands (callType result usage))

/-- The hint for an argument: the type of the parameter at its place, if one is declared there. -/
def argHint (σ : Scope) (params : List TypeName) : Except Error (Option Ty) :=
  match params.head? with
  | some p => some <$> σ.typeOf p
  | none => .ok none

/-! ### Expressions -/

mutual

/-- The flat code of an expression. -/
def lowerExpr (σ : Scope) : Expr → Option Ty → LowerM Lowered
  | .intLit _ v, _ => return .value (.int v)
  | .boolLit _ v, _ => return .value (.bool v)
  | .paren _ e, hint => lowerExpr σ e hint
  | .self _, _ => return .value σ.self
  | .ident _ name, _ => lowerName σ name
  | .not _ e, _ => do
    let inner ← lowerExpr σ e (some .bool)
    let dest ← freshTemp σ .bool
    return .computed inner.code dest (.not inner.result)
  | .binary _ op lhs rhs, _ => do
    if op.isLogical then
      let n ← freshLabel
      let l ← lowerExpr σ lhs (some .bool)
      let dest ← freshTemp σ .bool
      let r ← lowerExpr σ rhs (some .bool)
      return {
        result := dest
        code := l.code ++
          [.instr (.assignTo dest (.single l.result)),
            .instr (.branch (skipTest op dest) (skipLabel op n))] ++
          r.code ++
          [.instr (.assignTo dest (.single r.result)), .label (skipLabel op n)] }
    else
      let l ← lowerExpr σ lhs (some .int)
      let r ← lowerExpr σ rhs (some .int)
      let dest ← freshTemp σ (Instr.binaryType op)
      return .computed (l.code ++ r.code) dest (.binary op l.result r.result)
  | .index _ array index, _ => do
    let arr ← lowerExpr σ array (some .intArray)
    requireSlot "Index" arr.result
    let elem ← elementType arr.result
    let idx ← indexOperand σ (← lowerExpr σ index (some .int))
    let dest ← freshTemp σ elem
    return .computed (arr.code ++ idx.code) dest (.single (.elem arr.result idx.result elem))
  | .length _ array, _ => do
    let arr ← lowerExpr σ array (some .intArray)
    let dest ← freshTemp σ .int
    return .computed arr.code dest (.call .arrayLength arr.result none [] .int)
  | .call _ receiver method args, hint => do
    let (code, call) ← callWith σ method (receiverOf σ method receiver (lowerExpr σ receiver none))
      (lowerArgs σ args) (.value hint)
    if call.resultType = .void then throw (.unsupportedNode (.voidValue method))
    else
      let dest ← freshTemp σ call.resultType
      return .computed code dest call
  | .newArray _ size, _ => do
    let n ← lowerExpr σ size (some .int)
    let dest ← freshTemp σ .intArray
    return .computed n.code dest (.call .new (.classRef "array") none [n.result] .intArray)
  | .newObject _ cls, _ => do
    let ty ← σ.objectType cls
    let dest ← freshTemp σ ty
    return { result := dest, code := constructInto dest cls }
termination_by structural e => e

/-- The code and the operands of the arguments of a call; `params` are the types that the remaining
parameters are declared with. -/
def lowerArgs (σ : Scope) : List Expr → List TypeName → LowerM (Code × List Operand)
  | [], _ => return ([], [])
  | e :: rest, params => do
    let hint ← argHint σ params
    let arg ← lowerExpr σ e hint
    let (code, operands) ← lowerArgs σ rest params.tail
    return (arg.code ++ code, arg.result :: operands)
termination_by structural args => args

end

/-- The code of a call and the call instruction. -/
def lowerCall (σ : Scope) (receiver : Expr) (method : String) (args : List Expr)
    (usage : CallUse) : LowerM (Code × Instr) :=
  callWith σ method (receiverOf σ method receiver (lowerExpr σ receiver none)) (lowerArgs σ args) usage

/-- An instruction that a branch can test as it stands. -/
def isTest : Instr → Bool
  | .binary op _ _ => op.isComparison
  | .not _ => true
  | _ => false

/-- The code of a condition and the instruction that a branch tests. A comparison or negation is
tested directly and not through a temporary. -/
def lowerCondition (σ : Scope) (cond : Expr) : LowerM (Code × Instr) := do
  let l ← lowerExpr σ cond (some .bool)
  match l.takeBinding? with
  | some (.assign _ _ rhs, rest) =>
    if isTest rhs then return (rest.code, rhs) else return (l.code, .single l.result)
  | _ => return (l.code, .single l.result)

end JavaMinus.Lowering
