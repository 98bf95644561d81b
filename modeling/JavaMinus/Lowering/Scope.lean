import JavaMinus.Error
import JavaMinus.Source.Symbols

/-!
# The scope of lowering

Lowering turns trees into flat code inside a `Scope`: the symbol table and the method at hand. It
draws the numbers of temporaries and labels from `Fresh` counters, which run through the whole class
and keep their progress when a step fails.
-/

namespace JavaMinus.Lowering

open JavaMinus.Source (SymbolTable TypeName)
open JavaMinus.Flat (Ty Operand Instr Item Code)

/-- Where a piece of the tree stands. -/
structure Scope where
  symbols : SymbolTable
  method : String := ""
  isStatic : Bool := false
  returnType : Ty := .void
deriving DecidableEq, Inhabited

/-- How many temporaries and labels have been numbered so far. -/
structure Fresh where
  temps : Nat := 0
  labels : Nat := 0
deriving DecidableEq, Inhabited

/-- A lowering step: it may fail, and it advances the counters either way. -/
abbrev LowerM := ExceptT Error (StateM Fresh)

/-! ### Fresh names -/

/-- The name of the temporary with this number. -/
def tempName (n : Nat) : String :=
  "t" ++ toString n

/-- The first number from `n` on whose temporary is not taken. At most `fuel` names are. -/
def firstFree (taken : String → Bool) : Nat → Nat → Nat
  | 0, n => n
  | fuel + 1, n => if taken (tempName n) then firstFree taken fuel (n + 1) else n

/-- The number of the next temporary: names that the program declares are passed over. -/
def Scope.nextTemp (σ : Scope) (fresh : Fresh) : Nat :=
  firstFree (σ.symbols.isDeclared σ.method) (σ.symbols.declaredNames σ.method).length
    (fresh.temps + 1)

/-- A new temporary. -/
def freshTemp (σ : Scope) (ty : Ty) : LowerM Operand := do
  let fresh ← get
  let n := σ.nextTemp fresh
  set { fresh with temps := n }
  return .var (tempName n) ty

/-- A new label number. All labels of one construct are made from it. -/
def freshLabel : LowerM Nat := do
  let fresh ← get
  set { fresh with labels := fresh.labels + 1 }
  return fresh.labels

/-! ### Types and names -/

namespace Scope

def self (σ : Scope) : Operand :=
  .self σ.symbols.className

/-- The type of values declared with this type. Arrays hold `int` or `String`, and a class must be
known to the unit. -/
def typeOf (σ : Scope) (t : TypeName) : Except Error Ty :=
  let base : Option Ty :=
    if t.name = "int" then some .int
    else if t.name = "boolean" then some .bool
    else if t.name = "String" then some .str
    else if t.name = "void" then some .void
    else if σ.symbols.isKnownClass t.name then some (.object t.name)
    else none
  match base, t.isArray with
  | some ty, false => .ok ty
  | some .int, true => .ok (.array .int)
  | some .str, true => .ok (.array .str)
  | _, _ => .error (.unmappedType t.text)

/-- The type of the instances of a class. -/
def objectType (σ : Scope) (cls : String) : Except Error Ty :=
  if σ.symbols.isKnownClass cls then .ok (.object cls) else .error (.unmappedType cls)

/-- The number of a parameter: slot zero belongs to the current object in instance methods. -/
def paramIndex (σ : Scope) (position : Nat) : Nat :=
  if σ.isStatic then position else position + 1

/-- The operand of a local variable or parameter. Fields and unknown names have none. -/
def slotOperand? (σ : Scope) (name : String) : Except Error (Option Operand) :=
  match σ.symbols.resolve? σ.method name with
  | none => .ok none
  | some b => do
    let ty ← σ.typeOf b.symbol.type
    match b.storage with
    | .localVar => return some (.var name ty)
    | .param position => return some (.param (σ.paramIndex position) name ty)
    | .field => return none

/-- The operand that names a field. Static methods have no object to take a field from. -/
def fieldOperand? (σ : Scope) (name : String) : Except Error (Option Operand) :=
  match σ.symbols.resolve? σ.method name with
  | some { storage := .field, symbol } =>
    if σ.isStatic then .error (.unsupportedNode (.fieldInStatic name σ.method))
    else do return some (.var name (← σ.typeOf symbol.type))
  | _ => .ok none

/-- The error for a name that means nothing. -/
def unresolved (σ : Scope) (name : String) : Error :=
  .unresolved name σ.method

end Scope

/-! ### Lowered expressions -/

/-- An expression as flat code: once `code` has run, `result` holds its value. -/
structure Lowered where
  result : Operand
  code : Code := []
  /-- The result is a temporary that the last instruction of the code binds. -/
  fresh : Bool := false
deriving DecidableEq, Inhabited

namespace Lowered

/-- A value that needs no code. -/
def value (result : Operand) : Lowered :=
  { result }

/-- Code followed by an assignment to a temporary, which is the result. -/
def computed (code : Code) (dest : Operand) (rhs : Instr) : Lowered :=
  { result := dest, code := code ++ [.instr (.assignTo dest rhs)], fresh := true }

/-- Take off the assignment that binds a fresh result, so that it can be given another destination.
Nothing if there is no such assignment. -/
def takeBinding? (l : Lowered) : Option (Instr × Lowered) :=
  if l.fresh then
    match l.code.getLast? with
    | some (.instr (.assign dest ty rhs)) =>
      some (.assign dest ty rhs, { l with code := l.code.dropLast, fresh := false })
    | _ => none
  else none

end Lowered

end JavaMinus.Lowering
