import JavaMinus.Proofs.Flat.Assembled
import JavaMinus.Proofs.Lowering.Cells

/-!
# Types of lowered values

The type that a tree gives an expression, in the scope where it stands, and the declaration that a
call refers to. The operands of lowered code have these types.
-/

namespace JavaMinus.Lowering

open JavaMinus.Source (Expr TypeName MethodSymbols)
open JavaMinus.Flat (Ty Operand Instr bind_eq_ok pure_eq_ok)

/-- The type of an operand that is a value. -/
def valueTy? : Operand → Option Ty
  | .classRef _ => none
  | op => some op.ty

/-- The receiver belongs to the class at hand: it is the current object, the name of the class, or a
value of this type. -/
def ownReceiver (σ : Scope) (receiver : Expr) (type : Option Ty) : Bool :=
  match receiver.unparen with
  | .self _ => true
  | .ident _ name =>
    if σ.symbols.isDeclared σ.method name then type == some (.object σ.symbols.className)
    else name == σ.symbols.className
  | _ => type == some (.object σ.symbols.className)

/-- The type of the value of an expression where `hint` is expected. A method that is not declared
here is taken to return what is expected of it. -/
def valueType? (σ : Scope) : Expr → Option Ty → Option Ty
  | .intLit .., _ | .length .., _ => some .int
  | .boolLit .., _ | .not .., _ => some .bool
  | .self _, _ => some (.self σ.symbols.className)
  | .paren _ e, hint => valueType? σ e hint
  | .ident _ name, _ => do
    let b ← σ.symbols.resolve? σ.method name
    (σ.typeOf b.symbol.type).toOption
  | .binary _ op _ _, _ => some (Instr.binaryType op)
  | .index _ array _, _ =>
    match valueType? σ array (some .intArray) with
    | some (.array elem) => some elem
    | _ => none
  | .call _ receiver method _, hint =>
    match σ.symbols.method? method, ownReceiver σ receiver (valueType? σ receiver none) with
    | some d, true => (σ.typeOf d.returnType).toOption
    | _, _ => some (hint.getD .int)
  | .newArray .., _ => some .intArray
  | .newObject _ cls, _ => some (.object cls)
termination_by structural e => e

/-- The declaration that a call refers to. -/
def callee? (σ : Scope) (receiver : Expr) (method : String) : Option MethodSymbols :=
  if ownReceiver σ receiver (valueType? σ receiver none) then σ.symbols.method? method else none

/-- The types of the arguments of a call, for the declared parameter types. -/
def argTypes (σ : Scope) : List Expr → List TypeName → List (Option Ty)
  | [], _ => []
  | e :: rest, params =>
    valueType? σ e (params.head?.bind fun p => (σ.typeOf p).toOption) :: argTypes σ rest params.tail

def Piece.Typed (σ : Scope) : Piece → Prop
  | .expr e hint l => valueType? σ e hint = valueTy? l.result
  | .receiver _ e r => isOwnClass σ r.target = ownReceiver σ e (valueType? σ e none) ∧
      (r.invocation = .static ∨ r.invocation = .virtual)
  | .args es params _ operands => operands.map valueTy? = argTypes σ es params
  | .call e method es usage _ instr => ∃ invocation target operands result,
      instr = .call invocation target (some method) operands (callType result usage) ∧
      (invocation = .static ∨ invocation = .virtual) ∧
      operands.map valueTy? = argTypes σ es (declaredParams (callee? σ e method)) ∧
      declaredResult σ (callee? σ e method) = .ok result

section Types

variable {σ : Scope} {f f' : Fresh}

theorem slotOperand?_type {name : String} {op : Operand}
    (h : σ.slotOperand? name = .ok (some op)) :
    ∃ b, σ.symbols.resolve? σ.method name = some b ∧ b.storage ≠ .field ∧
      σ.typeOf b.symbol.type = .ok op.ty := by
  unfold Scope.slotOperand? at h
  cases hr : σ.symbols.resolve? σ.method name with
  | none => simp [hr] at h
  | some b =>
    rw [hr] at h
    obtain ⟨ty, hty, h⟩ := bind_eq_ok.mp h
    refine ⟨b, rfl, ?_⟩
    cases hs : b.storage with
    | localVar | param =>
      rw [hs] at h
      obtain rfl := Option.some.inj (pure_eq_ok.mp h)
      exact ⟨by simp, hty⟩
    | field =>
      rw [hs] at h
      cases pure_eq_ok.mp h

theorem fieldOperand?_type {name : String} {op : Operand}
    (h : σ.fieldOperand? name = .ok (some op)) :
    ∃ b, σ.symbols.resolve? σ.method name = some b ∧ σ.typeOf b.symbol.type = .ok op.ty := by
  unfold Scope.fieldOperand? at h
  split at h
  · next symbol hr =>
    split at h
    · cases h
    · obtain ⟨ty, hty, h⟩ := bind_eq_ok.mp h
      obtain rfl := Option.some.inj (pure_eq_ok.mp h)
      exact ⟨_, hr, hty⟩
  · cases h

theorem resolve?_eq_none {name : String} (hslot : σ.slotOperand? name = .ok none)
    (hfield : σ.fieldOperand? name = .ok none) : σ.symbols.resolve? σ.method name = none := by
  cases hr : σ.symbols.resolve? σ.method name with
  | none => rfl
  | some b =>
    obtain ⟨storage, symbol⟩ := b
    unfold Scope.slotOperand? at hslot
    unfold Scope.fieldOperand? at hfield
    rw [hr] at hslot hfield
    obtain ⟨ty, hty, hslot⟩ := bind_eq_ok.mp hslot
    cases storage with
    | localVar | param => cases pure_eq_ok.mp hslot
    | field =>
      simp only at hfield
      split at hfield
      · cases hfield
      · obtain ⟨_, _, hfield⟩ := bind_eq_ok.mp hfield
        cases pure_eq_ok.mp hfield

theorem LowersName.typed {name : String} {span : Source.Span} {hint : Option Ty} {l : Lowered}
    (h : LowersName σ name f l f') : valueType? σ (.ident span name) hint = valueTy? l.result := by
  cases h with
  | slot hslot =>
    obtain ⟨b, hr, _, hty⟩ := slotOperand?_type hslot
    rcases slotOperand?_cases hslot with ⟨_, _, _, rfl⟩ | ⟨_, _, _, _, rfl⟩ <;>
      simp [valueType?, hr, hty, Except.toOption, Lowered.value, valueTy?]
  | field _ hfield =>
    obtain ⟨b, hr, hty⟩ := fieldOperand?_type hfield
    simp [valueType?, hr, hty, Except.toOption, Lowered.computed, Scope.temp, valueTy?, Operand.ty]
  | cls hslot hfield _ =>
    simp [valueType?, resolve?_eq_none hslot hfield, Lowered.value, valueTy?]

theorem objectType_ok {cls : String} {ty : Ty} (h : σ.objectType cls = .ok ty) :
    ty = .object cls := by
  unfold Scope.objectType at h
  split at h
  · exact (Except.ok.inj h).symm
  · cases h

theorem callee?_eq {e : Expr} {target : Operand} {method : String}
    (h : isOwnClass σ target = ownReceiver σ e (valueType? σ e none)) :
    declaration? σ target method = callee? σ e method := by
  unfold declaration? callee?
  rw [h]

/-- Only the current object and names of classes have operands that are no plain values. -/
theorem Lowers.result_plain {e : Expr} {hint : Option Ty} {l : Lowered}
    (h : Lowers σ (.expr e hint l) f f') (hself : ∀ span, e.unparen ≠ .self span)
    (hident : ∀ span name, e.unparen = .ident span name →
      σ.symbols.isDeclared σ.method name = true) :
    ∀ c, l.result ≠ .self c ∧ l.result ≠ .classRef c := by
  intro c
  generalize hp : Piece.expr e hint l = p at h
  induction h generalizing e hint with
  | paren _ ih =>
    cases hp
    rw [Expr.unparen] at hself hident
    exact ih hself hident rfl
  | self =>
    cases hp
    exact absurd rfl (hself _)
  | name h =>
    cases hp
    cases h with
    | slot hslot =>
      rcases slotOperand?_cases hslot with ⟨_, _, _, rfl⟩ | ⟨_, _, _, _, rfl⟩ <;>
        constructor <;> intro h <;> cases h
    | field => constructor <;> intro h <;> cases h
    | cls hslot hfield _ =>
      have hdeclared := hident _ _ rfl
      simp [Source.SymbolTable.isDeclared, resolve?_eq_none hslot hfield] at hdeclared
  | int | bool | not | logical | binary | index | length | callValue | newArray | newObject =>
    cases hp
    constructor <;> intro h <;> cases h
  | selfReceiver | classReceiver | valueReceiver | noArgs | arg | call => cases hp

theorem isOwnClass_plain {op : Operand} (h : ∀ c, op ≠ .self c ∧ op ≠ .classRef c) :
    isOwnClass σ op = (valueTy? op == some (.object σ.symbols.className)) := by
  cases op with
  | self c => exact absurd rfl (h c).1
  | classRef c => exact absurd rfl (h c).2
  | lit | var | param | elem => rfl

theorem ownReceiver_value {e : Expr} (type : Option Ty) (hself : ∀ span, e.unparen ≠ .self span)
    (hident : ∀ span name, e.unparen = .ident span name →
      σ.symbols.isDeclared σ.method name = true) :
    ownReceiver σ e type = (type == some (.object σ.symbols.className)) := by
  unfold ownReceiver
  split
  · next span hu => exact absurd hu (hself span)
  · next span name hu => rw [hident span name hu, if_pos rfl]
  · rfl

theorem argHint_ok {params : List TypeName} {hint : Option Ty} (h : argHint σ params = .ok hint) :
    hint = params.head?.bind fun p => (σ.typeOf p).toOption := by
  unfold argHint at h
  cases hp : params.head? with
  | none =>
    rw [hp] at h
    exact (Except.ok.inj h).symm
  | some p =>
    rw [hp] at h
    cases hty : σ.typeOf p with
    | error e =>
      simp only [hty] at h
      cases h
    | ok ty =>
      simp only [hty] at h
      simp [hty, Except.toOption, ← Except.ok.inj h]

theorem declaredResult_ok {d : MethodSymbols} {result : Option Ty}
    (h : declaredResult σ (some d) = .ok result) :
    ∃ ty, σ.typeOf d.returnType = .ok ty ∧ result = some ty := by
  cases hty : σ.typeOf d.returnType with
  | error e => simp [declaredResult, hty] at h
  | ok ty =>
    obtain rfl : some ty = result := by simpa [declaredResult, hty] using h
    exact ⟨ty, rfl, rfl⟩

theorem valueType?_call {span : Source.Span} {receiver : Expr} {method : String} {args : List Expr}
    {hint result : Option Ty} (h : declaredResult σ (callee? σ receiver method) = .ok result) :
    valueType? σ (.call span receiver method args) hint =
      some (callType result (.value hint)) := by
  unfold callee? at h
  rw [valueType?]
  cases hown : ownReceiver σ receiver (valueType? σ receiver none) with
  | false =>
    rw [hown] at h
    obtain rfl := Except.ok.inj h
    simp [callType]
  | true =>
    rw [hown, if_pos rfl] at h
    cases hd : σ.symbols.method? method with
    | none =>
      rw [hd] at h
      obtain rfl := Except.ok.inj h
      simp [callType]
    | some d =>
      rw [hd] at h
      obtain ⟨ty, hty, rfl⟩ := declaredResult_ok h
      simp [callType, hty, Except.toOption]

/-- The operands of lowered code have the types of the values in the tree. -/
theorem Lowers.typed {p : Piece} (h : Lowers σ p f f') : p.Typed σ := by
  induction h with
  | int | bool | self | not | length | newArray => rfl
  | name h => exact h.typed
  | paren _ ih => exact ih
  | @logical _ op _ _ _ _ _ _ _ _ hop =>
    have harith : op.isArithmetic = false := by
      cases op with
      | and | or => rfl
      | add | sub | mul | div | lt | gt | le | ge | eq | ne => cases hop
    simp [Piece.Typed, valueType?, valueTy?, Scope.temp, Operand.ty, Instr.binaryType, harith]
  | binary => rfl
  | @index _ _ _ _ arr elem _ _ _ _ _ _ _ hslot helem _ _ iha _ =>
    have harray : valueTy? arr.result = some (.array elem) := by
      unfold elementType at helem
      split at helem
      · next ty hty =>
        obtain rfl := Except.ok.inj helem
        cases hres : arr.result with
        | var | param => simp [valueTy?, hres ▸ hty]
        | lit | elem | self | classRef =>
          rw [hres] at hslot
          cases hslot
      · cases helem
    simp only [Piece.Typed, valueType?] at iha ⊢
    rw [iha, harray]
    rfl
  | callValue _ _ ih =>
    obtain ⟨invocation, target, operands, result, rfl, _, _, hresult⟩ := ih
    exact valueType?_call hresult
  | newObject hty =>
    obtain rfl := objectType_ok hty
    rfl
  | selfReceiver hu => exact ⟨by simp [ownReceiver, hu, isOwnClass, Scope.self], .inr rfl⟩
  | classReceiver hu hdeclared _ =>
    exact ⟨by simp [ownReceiver, hu, hdeclared, isOwnClass], .inl rfl⟩
  | valueReceiver hself hident hl _ _ ih =>
    refine ⟨?_, .inr rfl⟩
    rw [isOwnClass_plain (hl.result_plain hself hident), ownReceiver_value _ hself hident, ih]
  | noArgs => rfl
  | arg hhint _ _ ihe ihrest =>
    obtain rfl := argHint_ok hhint
    simp only [Piece.Typed, List.map_cons, argTypes] at ihe ihrest ⊢
    rw [ihe, ihrest]
  | call _ _ hresult ihr ihargs =>
    rw [callee?_eq ihr.1] at hresult ihargs
    exact ⟨_, _, _, _, rfl, ihr.2, ihargs, hresult⟩

end Types

end JavaMinus.Lowering
