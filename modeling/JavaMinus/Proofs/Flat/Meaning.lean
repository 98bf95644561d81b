import JavaMinus.Flat.Instr
import JavaMinus.Proofs.Behaviour

/-!
# The meaning of flat code

What one instruction does, for any way of keeping the variables of a method. Operands are evaluated
from left to right; an operand that is an array element reads the element when its turn comes.
-/

namespace JavaMinus.Flat

open JavaMinus.Assembly (Dispatch FieldRef MethodRef)
open JavaMinus.Behaviour

/-! ### What flat code runs on -/

/-- A variable of a method. Flat code tells local variables and parameters apart. -/
inductive Cell where
  | var (name : String)
  | param (name : String)
deriving DecidableEq

def Cell.name : Cell → String
  | .var name => name
  | .param name => name

structure Storage (S : Type) where
  /-- The current object. Static methods have none. -/
  self? : S → Option Value
  read? : S → Cell → Option Value
  write? : S → Cell → Value → Option S

/-- How code names the classes, fields and methods that it refers to. -/
structure Linkage where
  cls : String → String
  field? : Operand → Option FieldRef
  method? : Dispatch → Operand → String → List Operand → Ty → Option MethodRef

/-- All that the meaning of an instruction depends on. -/
structure Platform (S : Type) where
  oracle : Oracle
  link : Linkage
  storage : Storage S

def Operand.cell? : Operand → Option Cell
  | .var name _ => some (.var name)
  | .param _ name _ => some (.param name)
  | _ => none

theorem Operand.name?_eq (op : Operand) : op.name? = op.cell?.map Cell.name := by
  cases op <;> rfl

variable {S : Type}

/-! ### Values -/

/-- The value of an operand. A class has none. -/
def Operand.eval (π : Platform S) (s : S) : Operand → Act Value
  | .lit value _ => pure (.int value)
  | .var name _ => expect (π.storage.read? s (.var name))
  | .param _ name _ => expect (π.storage.read? s (.param name))
  | .elem array index _ => do
    let a ← array.eval π s
    let i ← index.eval π s
    perform π.oracle (.getElement a i)
  | .self _ => expect (π.storage.self? s)
  | .classRef _ => failure

def evalAll (π : Platform S) (s : S) : List Operand → Act (List Value)
  | [] => pure []
  | op :: rest => do
    let v ← op.eval π s
    let vs ← evalAll π s rest
    return v :: vs

/-- The receiver of a call. A static call names a class and has none. -/
def evalReceiver (π : Platform S) (s : S) (dispatch : Dispatch) (target : Operand) :
    Act (Option Value) :=
  match dispatch with
  | .static =>
    match target with
    | .classRef _ => pure none
    | _ => failure
  | .virtual | .special => do
    let v ← target.eval π s
    return some v

/-- A call of a named method: receiver, arguments, then the call itself. -/
def invoke (π : Platform S) (s : S) (dispatch : Dispatch) (target : Operand)
    (method : Option String) (args : List Operand) (result : Ty) : Act Value := do
  let name ← expect method
  let receiver ← evalReceiver π s dispatch target
  let values ← evalAll π s args
  let ref ← expect (π.link.method? dispatch target name args result)
  perform π.oracle (.call dispatch ref receiver values)

/-- An allocation. Only the class `array` takes an argument, the size; others are not evaluated. -/
def allocate (π : Platform S) (s : S) (target : Operand) (args : List Operand) : Act Value :=
  match target with
  | .classRef name =>
    match args with
    | size :: _ =>
      if name = "array" then do
        let n ← size.eval π s
        perform π.oracle (.newArray n)
      else perform π.oracle (.newObject (π.link.cls name))
    | [] => perform π.oracle (.newObject (π.link.cls name))
  | _ => failure

def callValue (π : Platform S) (s : S) (invocation : Invocation) (target : Operand)
    (method : Option String) (args : List Operand) (result : Ty) : Act Value :=
  match invocation with
  | .static => invoke π s .static target method args result
  | .virtual => invoke π s .virtual target method args result
  | .special => invoke π s .special target method args result
  | .new => allocate π s target args
  | .arrayLength => do
    let a ← target.eval π s
    perform π.oracle (.arrayLength a)

/-- The value that an instruction leaves behind. Jumps, returns and writes leave none, so they cannot
stand where a value is wanted. -/
def Instr.value (π : Platform S) (s : S) : Instr → Act Value
  | .single op => op.eval π s
  | .binary op lhs rhs => do
    let a ← lhs.eval π s
    let b ← rhs.eval π s
    expect (binary? op a b)
  | .not op => do
    let a ← op.eval π s
    expect a.negation?
  | .getField object field => do
    let o ← object.eval π s
    let ref ← expect (π.link.field? field)
    perform π.oracle (.getField ref o)
  | .call invocation target method args result =>
    callValue π s invocation target method args result
  | _ => failure

/-! ### Instructions -/

inductive Flow where
  | next
  | jump (label : String)
  | ret (value : Option Value)
deriving DecidableEq

/-- Write a value to a destination. The array and the index of an element are evaluated before the
value is. -/
def writeTo (π : Platform S) (s : S) (dest : Operand) (rhs : Act Value) : Act S :=
  match dest with
  | .elem array index _ => do
    let a ← array.eval π s
    let i ← index.eval π s
    let v ← rhs
    let _ ← perform π.oracle (.putElement a i v)
    return s
  | .var name _ => do
    let v ← rhs
    expect (π.storage.write? s (.var name) v)
  | .param _ name _ => do
    let v ← rhs
    expect (π.storage.write? s (.param name) v)
  | _ => failure

/-- The effect of one instruction: where control goes, and the variables after it. -/
def Instr.exec (π : Platform S) (s : S) : Instr → Act (Flow × S)
  | .assign dest _ rhs => do
    let s' ← writeTo π s dest (rhs.value π s)
    return (.next, s')
  | .ret none => pure (.ret none, s)
  | .ret (some op) => do
    let v ← op.eval π s
    return (.ret (some v), s)
  | .goto label => pure (.jump label, s)
  | .branch cond label => do
    let v ← cond.value π s
    let b ← expect v.truth?
    return (if b then .jump label else .next, s)
  | .putField object field value => do
    let o ← object.eval π s
    let v ← value.eval π s
    let ref ← expect (π.link.field? field)
    let _ ← perform π.oracle (.putField ref o v)
    return (.next, s)
  | .nop => pure (.next, s)
  -- a value that nobody takes
  | instr => do
    let _ ← instr.value π s
    return (.next, s)

/-! ### Code -/

structure Point (S : Type) where
  pc : Nat
  store : S
  world : World

def Item.label? : Item → Option String
  | .label name => some name
  | .instr _ => none

def labelsOf (code : Code) : List String :=
  code.filterMap Item.label?

@[simp] theorem labelsOf_nil : labelsOf [] = [] := rfl

@[simp] theorem labelsOf_append (c d : Code) : labelsOf (c ++ d) = labelsOf c ++ labelsOf d :=
  List.filterMap_append

@[simp] theorem labelsOf_instr (i : Instr) (c : Code) : labelsOf (.instr i :: c) = labelsOf c := rfl

@[simp] theorem labelsOf_label (l : String) (c : Code) :
    labelsOf (.label l :: c) = l :: labelsOf c := rfl

def labelPlace? (code : Code) (label : String) : Option Nat :=
  code.findIdx? fun item => item == .label label

theorem labelPlace?_append {before after : Code} {label : String}
    (h : (labelsOf (before ++ .label label :: after)).Nodup) :
    labelPlace? (before ++ .label label :: after) label = some before.length := by
  have hbefore : ∀ item ∈ before, (item == Item.label label) = false := by
    intro item hitem
    simp only [beq_eq_false_iff_ne, ne_eq]
    rintro rfl
    have hmem : label ∈ labelsOf before := List.mem_filterMap.mpr ⟨_, hitem, rfl⟩
    simp only [labelsOf_append, labelsOf_label, List.nodup_append, List.mem_cons] at h
    exact h.2.2 label hmem label (.inl rfl) rfl
  unfold labelPlace?
  rw [List.findIdx?_append, List.findIdx?_eq_none_iff.mpr hbefore]
  simp [List.findIdx?_cons]

/-- One step. There is none from a return, from the end, or from an instruction that fails. -/
def stepCode? (π : Platform S) (code : Code) (p : Point S) : Option (Point S) :=
  match code[p.pc]? with
  | some (.label _) => some { p with pc := p.pc + 1 }
  | some (.instr i) =>
    match i.exec π p.store p.world with
    | some ((.next, store), world) => some { pc := p.pc + 1, store, world }
    | some ((.jump label, store), world) =>
      (labelPlace? code label).map fun pc => { pc, store, world }
    | _ => none
  | none => none

/-- The code stands at a return that gives back this value. -/
def ReturnsAt (π : Platform S) (code : Code) (p : Point S) (value : Option Value) : Prop :=
  ∃ op, code[p.pc]? = some (.instr (.ret op)) ∧
    (Instr.ret op).exec π p.store p.world = some ((.ret value, p.store), p.world)

end JavaMinus.Flat
