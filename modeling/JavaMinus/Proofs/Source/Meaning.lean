import JavaMinus.Proofs.Behaviour
import JavaMinus.Source.Symbols

/-!
# The meaning of source trees

The reference that lowering is measured against. Expressions are evaluated from left to right and
change no variable; `&&` and `||` evaluate their right operand only if the left one does not settle
the result. Statements are given by their finished runs, which end normally or by a return.
-/

namespace JavaMinus.Source

open JavaMinus.Behaviour

/-- The variables of a running method. A parameter that a local variable hides keeps its value. -/
structure Activation where
  /-- The current object. Static methods have none. -/
  self : Option Value
  locals : String → Value
  params : String → Value

namespace Activation

def setLocal (a : Activation) (name : String) (v : Value) : Activation :=
  { a with locals := fun n => if n = name then v else a.locals n }

def setParam (a : Activation) (name : String) (v : Value) : Activation :=
  { a with params := fun n => if n = name then v else a.params n }

end Activation

/-! ### Expressions -/

/-- The value of the left operand settles `&&` if it is false, and `||` if it is true. -/
def BinOp.settledBy (op : BinOp) (left : Bool) : Bool :=
  if op = .and then !left else left

def fieldNamed (name : String) : Assembly.FieldRef :=
  { owner := "", name, descriptor := "" }

/-- A method, known by its name and, for static calls, by its class. -/
def methodNamed (owner name : String) : Assembly.MethodRef :=
  { owner, name, descriptor := "" }

section

variable (t : SymbolTable) (method : String) (ω : Oracle) (a : Activation)

/-- The value of a name: a local variable before a parameter before a field. -/
def readName (name : String) : Act Value :=
  match t.resolve? method name with
  | some { storage := .localVar, .. } => pure (a.locals name)
  | some { storage := .param _, .. } => pure (a.params name)
  | some { storage := .field, .. } => do
    let object ← expect a.self
    perform ω (.getField (fieldNamed name) object)
  | none => failure

/-- What a method is called on. A name that is not declared stands for a class. -/
inductive Callee where
  | cls (name : String)
  | object (value : Value)

/-- What a call is made on, if `value` evaluates the expression in front of it. -/
def evalCallee (e : Expr) (value : Act Value) : Act Callee :=
  match e.unparen with
  | .ident _ name =>
    if t.isDeclared method name then do
      let v ← value
      return .object v
    else pure (.cls name)
  | _ => do
    let v ← value
    return .object v

def Callee.call (callee : Callee) (name : String) (args : List Value) : Event :=
  match callee with
  | .cls owner => .call .static (methodNamed owner name) none args
  | .object v => .call .virtual (methodNamed "" name) (some v) args

/-- A new object, already initialised by its constructor. -/
def construct (cls : String) : Act Value := do
  let v ← perform ω (.newObject cls)
  let _ ← perform ω (.call .special (methodNamed "" "<init>") (some v) [])
  return v

mutual

def evalExpr : Expr → Act Value
  | .intLit _ v => pure (.int v)
  | .boolLit _ b => pure (.ofBool b)
  | .ident _ name => readName t method ω a name
  | .self _ => expect a.self
  | .paren _ e => evalExpr e
  | .not _ e => do
    let v ← evalExpr e
    expect v.negation?
  | .binary _ op lhs rhs => do
    let l ← evalExpr lhs
    if op.isLogical then
      let b ← expect l.truth?
      if op.settledBy b then return l else evalExpr rhs
    else
      let r ← evalExpr rhs
      expect (binary? op l r)
  | .index _ array index => do
    let x ← evalExpr array
    let i ← evalExpr index
    perform ω (.getElement x i)
  | .length _ array => do
    let x ← evalExpr array
    perform ω (.arrayLength x)
  | .call _ receiver name args => do
    let callee ← evalCallee t method receiver (evalExpr receiver)
    let values ← evalArgs args
    perform ω (callee.call name values)
  | .newArray _ size => do
    let n ← evalExpr size
    perform ω (.newArray n)
  | .newObject _ cls => construct ω cls
termination_by structural e => e

def evalArgs : List Expr → Act (List Value)
  | [] => pure []
  | e :: rest => do
    let v ← evalExpr e
    let vs ← evalArgs rest
    return v :: vs
termination_by structural args => args

end

def writeName (name : String) (v : Value) : Act Activation :=
  match t.resolve? method name with
  | some { storage := .localVar, .. } => pure (a.setLocal name v)
  | some { storage := .param _, .. } => pure (a.setParam name v)
  | some { storage := .field, .. } => do
    let object ← expect a.self
    let _ ← perform ω (.putField (fieldNamed name) object v)
    return a
  | none => failure

def writeElement (name : String) (index value : Expr) : Act Unit := do
  let x ← readName t method ω a name
  let i ← evalExpr t method ω a index
  let v ← evalExpr t method ω a value
  let _ ← perform ω (.putElement x i v)

end

/-! ### Statements -/

inductive Outcome where
  | normal
  | returned (value : Option Value)
deriving DecidableEq

structure State where
  vars : Activation
  world : World

/-- `Exec t method ω s p o q`: run from state `p`, the statement `s` ends as `o` says in state `q`. A
list of statements runs as a block. -/
inductive Exec (t : SymbolTable) (method : String) (ω : Oracle) :
    Stmt → State → Outcome → State → Prop
  | done {span p} : Exec t method ω (.block span []) p .normal p
  | seq {span s rest p q r o} : Exec t method ω s p .normal q →
      Exec t method ω (.block span rest) q o r → Exec t method ω (.block span (s :: rest)) p o r
  | stop {span s rest p q v} : Exec t method ω s p (.returned v) q →
      Exec t method ω (.block span (s :: rest)) p (.returned v) q
  | yes {span cond s other a w v w₁ o q} : evalExpr t method ω a cond w = some (v, w₁) →
      v.truth? = some true → Exec t method ω s ⟨a, w₁⟩ o q →
      Exec t method ω (.branch span cond s other) ⟨a, w⟩ o q
  | no {span cond s other a w v w₁ o q} : evalExpr t method ω a cond w = some (v, w₁) →
      v.truth? = some false → Exec t method ω other ⟨a, w₁⟩ o q →
      Exec t method ω (.branch span cond s (some other)) ⟨a, w⟩ o q
  | skip {span cond s a w v w₁} : evalExpr t method ω a cond w = some (v, w₁) →
      v.truth? = some false → Exec t method ω (.branch span cond s none) ⟨a, w⟩ .normal ⟨a, w₁⟩
  | leave {span cond body a w v w₁} : evalExpr t method ω a cond w = some (v, w₁) →
      v.truth? = some false → Exec t method ω (.loop span cond body) ⟨a, w⟩ .normal ⟨a, w₁⟩
  | again {span cond body a w v w₁ q o r} : evalExpr t method ω a cond w = some (v, w₁) →
      v.truth? = some true → Exec t method ω body ⟨a, w₁⟩ .normal q →
      Exec t method ω (.loop span cond body) q o r →
      Exec t method ω (.loop span cond body) ⟨a, w⟩ o r
  | exit {span cond body a w v w₁ x q} : evalExpr t method ω a cond w = some (v, w₁) →
      v.truth? = some true → Exec t method ω body ⟨a, w₁⟩ (.returned x) q →
      Exec t method ω (.loop span cond body) ⟨a, w⟩ (.returned x) q
  | expr {span e a w v w₁} : evalExpr t method ω a e w = some (v, w₁) →
      Exec t method ω (.expr span e) ⟨a, w⟩ .normal ⟨a, w₁⟩
  | assign {span name e a w v w₁ a' w₂} : evalExpr t method ω a e w = some (v, w₁) →
      writeName t method ω a name v w₁ = some (a', w₂) →
      Exec t method ω (.assign span name e) ⟨a, w⟩ .normal ⟨a', w₂⟩
  | store {span name index e a w u w₁} :
      writeElement t method ω a name index e w = some (u, w₁) →
      Exec t method ω (.store span name index e) ⟨a, w⟩ .normal ⟨a, w₁⟩
  | ret {span p} : Exec t method ω (.ret span none) p (.returned none) p
  | retValue {span e a w v w₁} : evalExpr t method ω a e w = some (v, w₁) →
      Exec t method ω (.ret span (some e)) ⟨a, w⟩ (.returned (some v)) ⟨a, w₁⟩

end JavaMinus.Source
