import JavaMinus.Assembly.Method
import JavaMinus.Proofs.Flat.Assembled
import JavaMinus.Proofs.Lowering.Names

/-!
# Derivations of emission

Emission is a computation that may fail and that counts the stack on the way. Here the lines of its
successful runs are described rule by rule, with the number of the next invented label before and
after. Statements about emitted lines are proved from these rules and need not look at the
computation again.
-/

namespace JavaMinus.Assembly

open JavaMinus.Flat (Ty Operand Instr Invocation Cell Linkage bind_eq_ok pure_eq_ok)
open JavaMinus.Lowering (placeLabel)
open JavaMinus.Source (BinOp)

/-! ### Successful steps -/

section Steps

variable {α β : Type} {s s' : EmitState} {φ : Frame}

theorem emit_bind {x : EmitM α} {f : α → EmitM β} {b : β} :
    (x >>= f) s = .ok (b, s') ↔ ∃ a s₁, x s = .ok (a, s₁) ∧ f a s₁ = .ok (b, s') := by
  rw [show (x >>= f) s = (x s >>= fun p => f p.1 p.2) from rfl, bind_eq_ok]
  constructor
  · rintro ⟨⟨a, s₁⟩, hx, hf⟩
    exact ⟨a, s₁, hx, hf⟩
  · rintro ⟨a, s₁, hx, hf⟩
    exact ⟨(a, s₁), hx, hf⟩

theorem emit_pure {a b : α} : (pure a : EmitM α) s = .ok (b, s') ↔ a = b ∧ s = s' := by
  rw [show (pure a : EmitM α) s = pure (a, s) from rfl, pure_eq_ok, Prod.mk.injEq]

theorem emit_lift {x : Except Error α} {a : α} :
    (liftM x : EmitM α) s = .ok (a, s') ↔ x = .ok a ∧ s = s' := by
  cases x with
  | error e =>
    constructor
    · intro h
      cases h
    · intro h
      cases h.1
  | ok b =>
    rw [show (liftM (Except.ok b : Except Error α) : EmitM α) s = .ok (b, s) from rfl]
    simp

theorem push_labels {n : Nat} {u : Unit} (h : push n s = .ok (u, s')) : s'.labels = s.labels := by
  cases h
  rfl

theorem pop_labels {n : Nat} {u : Unit} (h : pop φ n s = .ok (u, s')) : s'.labels = s.labels := by
  unfold pop at h
  obtain ⟨s₁, s₂, hget, h⟩ := emit_bind.mp h
  cases hget
  obtain ⟨stack, s₃, hstack, h⟩ := emit_bind.mp h
  obtain ⟨_, rfl⟩ := emit_lift.mp hstack
  cases h
  rfl

theorem inventLabel_ok {base label : String} (h : inventLabel base s = .ok (label, s')) :
    label = placeLabel base s.labels ∧ s'.labels = s.labels + 1 := by
  cases h
  exact ⟨rfl, rfl⟩

theorem unsupported_ne_ok {fault : InstrFault} {a : α} :
    ¬ (unsupported fault : EmitM α) s = .ok (a, s') := by
  intro h
  cases h

end Steps

/-! ### Linkage -/

def classOf? (c : Flat.Class) : Ty → Option String
  | .self _ => some c.name
  | .object cls | .classRef cls => some (resolveClass c.imports cls)
  | _ => none

/-- The class that the method of a call belongs to. A special call on the current object is meant for
its superclass. -/
def ownerName? (c : Flat.Class) (dispatch : Dispatch) (target : Operand) : Option String :=
  match dispatch, target with
  | .static, .classRef cls => some (resolveClass c.imports cls)
  | .static, _ => none
  | .special, .self _ => some (c.superClass.elim "java/lang/Object" (resolveClass c.imports))
  | _, target => classOf? c target.ty

/-- What a call leaves behind. Special calls run for their effect only. -/
def resultType (dispatch : Dispatch) (result : Ty) : Ty :=
  if dispatch = .special then .void else result

/-- How code of a class names classes, its own fields and the methods it calls. -/
def linkage (c : Flat.Class) : Linkage where
  cls := resolveClass c.imports
  field? op :=
    match op with
    | .var name ty =>
      (typeDescriptor c.imports ty).toOption.map fun descriptor => { owner := c.name, name, descriptor }
    | _ => none
  method? dispatch target name args result := do
    let owner ← ownerName? c dispatch target
    let descriptor ←
      (methodDescriptor c.imports (args.map Operand.ty) (resultType dispatch result)).toOption
    return { owner, name, descriptor }

theorem fieldRef_ok {φ : Frame} {op : Operand} {ref : FieldRef} (h : φ.fieldRef op = .ok ref) :
    (linkage φ.cls).field? op = some ref := by
  cases op with
  | var name ty =>
    unfold Frame.fieldRef at h
    obtain ⟨d, hd, h⟩ := bind_eq_ok.mp h
    obtain rfl := pure_eq_ok.mp h
    simp [linkage, hd, Except.toOption]
  | lit | param | elem | self | classRef => cases h

theorem ownerOf_ok {φ : Frame} {op : Operand} {owner : String} (h : φ.ownerOf op = .ok owner) :
    classOf? φ.cls op.ty = some owner := by
  unfold Frame.ownerOf at h
  cases hty : op.ty with
  | self cls | object cls | classRef cls =>
    simp only [hty, Except.ok.injEq] at h
    rw [classOf?, h]
  | int | bool | str | void | array => simp [hty] at h

/-! ### Operands -/

/-- These lines put the value of the operand on the stack. -/
inductive Loads (φ : Frame) : Operand → List Line → Prop
  | lit (value : Int32) (ty : Ty) : Loads φ (.lit value ty) [.op (.const value)]
  | self (cls : String) : Loads φ (.self cls) [.op (.load .ref 0)]
  | cell {op : Operand} {cell : Cell} {slot : Slot} (hcell : op.cell? = some cell)
      (hslot : φ.slots.get? cell.name = some slot) :
      Loads φ op [.op (.load (.of op.ty) slot.index)]
  | elem {array index : Operand} {a i : List Line} (ty : Ty) (ha : Loads φ array a)
      (hi : Loads φ index i) :
      Loads φ (.elem array index ty) (a ++ i ++ [.op (.arrayLoad (.of ty))])

/-- These lines put the values of the operands on the stack, the first one deepest. -/
inductive LoadsAll (φ : Frame) : List Operand → List Line → Prop
  | nil : LoadsAll φ [] []
  | cons {op : Operand} {rest : List Operand} {first more : List Line} (hop : Loads φ op first)
      (hrest : LoadsAll φ rest more) : LoadsAll φ (op :: rest) (first ++ more)

section Operands

variable {φ : Frame} {s s' : EmitState} {lines : List Line}

theorem slotOf_ok {op : Operand} {cell : Cell} {index : Nat} (hcell : op.cell? = some cell)
    (h : φ.slotOf op = .ok index) :
    ∃ slot, φ.slots.get? cell.name = some slot ∧ slot.index.toNat = index := by
  unfold Frame.slotOf at h
  rw [Operand.name?_eq, hcell] at h
  simp only [Option.map_some, Option.getD_some] at h
  cases hslot : φ.slots.get? cell.name with
  | none => simp [hslot] at h
  | some slot =>
    rw [hslot] at h
    exact ⟨slot, rfl, by simpa using h⟩

theorem load_loads {op : Operand} (h : load φ op s = .ok (lines, s')) :
    Loads φ op lines ∧ s'.labels = s.labels := by
  induction op generalizing s s' lines with
  | lit value ty =>
    obtain ⟨_, s₁, hpush, h⟩ := emit_bind.mp h
    obtain ⟨rfl, rfl⟩ := emit_pure.mp h
    exact ⟨.lit value ty, push_labels hpush⟩
  | self cls =>
    obtain ⟨_, s₁, hpush, h⟩ := emit_bind.mp h
    obtain ⟨rfl, rfl⟩ := emit_pure.mp h
    exact ⟨.self cls, push_labels hpush⟩
  | var name ty | param position name ty =>
    obtain ⟨index, s₁, hslot, h⟩ := emit_bind.mp h
    obtain ⟨hindex, rfl⟩ := emit_lift.mp hslot
    obtain ⟨slot, hget, rfl⟩ := slotOf_ok rfl hindex
    obtain ⟨_, s₂, hpush, h⟩ := emit_bind.mp h
    obtain ⟨rfl, rfl⟩ := emit_pure.mp h
    exact ⟨.cell rfl hget, push_labels hpush⟩
  | elem array index ty iha ihi =>
    unfold load at h
    obtain ⟨a, s₁, ha, h⟩ := emit_bind.mp h
    obtain ⟨i, s₂, hi, h⟩ := emit_bind.mp h
    obtain ⟨_, s₃, hpop, h⟩ := emit_bind.mp h
    obtain ⟨_, s₄, hpush, h⟩ := emit_bind.mp h
    obtain ⟨rfl, rfl⟩ := emit_pure.mp h
    obtain ⟨ha, hsa⟩ := iha ha
    obtain ⟨hi, hsi⟩ := ihi hi
    exact ⟨.elem ty ha hi, by rw [push_labels hpush, pop_labels hpop, hsi, hsa]⟩
  | classRef name => exact absurd h unsupported_ne_ok

theorem loadAll_loads {ops : List Operand} (h : loadAll φ ops s = .ok (lines, s')) :
    LoadsAll φ ops lines ∧ s'.labels = s.labels := by
  induction ops generalizing s s' lines with
  | nil =>
    obtain ⟨rfl, rfl⟩ := emit_pure.mp h
    exact ⟨.nil, rfl⟩
  | cons op rest ih =>
    unfold loadAll at h
    obtain ⟨first, s₁, hop, h⟩ := emit_bind.mp h
    obtain ⟨more, s₂, hrest, h⟩ := emit_bind.mp h
    obtain ⟨rfl, rfl⟩ := emit_pure.mp h
    obtain ⟨hop, hs₁⟩ := load_loads hop
    obtain ⟨hrest, hs₂⟩ := ih hrest
    exact ⟨.cons hop hrest, by rw [hs₂, hs₁]⟩

end Operands

/-! ### Calls -/

/-- These lines put the receiver of a call on the stack, if it has one. -/
inductive Receives (φ : Frame) : Dispatch → Operand → List Line → Prop
  | static (cls : String) : Receives φ .static (.classRef cls) []
  | value {dispatch : Dispatch} {target : Operand} {lines : List Line} (hne : dispatch ≠ .static)
      (h : Loads φ target lines) : Receives φ dispatch target lines

def dispatch? : Invocation → Option Dispatch
  | .static => some .static
  | .virtual => some .virtual
  | .special => some .special
  | .new | .arrayLength => none

/-- The lines of a call instruction, and whether they leave a value on the stack. -/
inductive Calls (φ : Frame) :
    Invocation → Operand → Option String → List Operand → Ty → List Line → Bool → Prop
  | newArray {size : Operand} {n : List Line} (method : Option String) (rest : List Operand)
      (result : Ty) (hsize : Loads φ size n) :
      Calls φ .new (.classRef "array") method (size :: rest) result (n ++ [.op .newIntArray]) true
  | newObject {name : String} (method : Option String) (args : List Operand) (result : Ty)
      (hname : name ≠ "array") :
      Calls φ .new (.classRef name) method args result [.op (.new (resolveClass φ.cls.imports name))]
        true
  | arrayLength {target : Operand} {a : List Line} (method : Option String) (args : List Operand)
      (result : Ty) (htarget : Loads φ target a) :
      Calls φ .arrayLength target method args result (a ++ [.op .arrayLength]) true
  | named {invocation : Invocation} {dispatch : Dispatch} {target : Operand} {name : String}
      {args : List Operand} {result : Ty} {receiver values : List Line} {ref : MethodRef}
      (hdispatch : dispatch? invocation = some dispatch) (hreceiver : Receives φ dispatch target receiver)
      (hargs : LoadsAll φ args values)
      (href : (linkage φ.cls).method? dispatch target name args result = some ref) :
      Calls φ invocation target (some name) args result
        (receiver ++ values ++ [.op (.invoke dispatch ref)])
        (decide (resultType dispatch result ≠ .void))

section Calls

variable {φ : Frame} {s s' : EmitState} {lines : List Line}

theorem callTarget_receives {invocation : Invocation} {target : Operand} {result ret : Ty}
    {dispatch d : Dispatch} {owner : String} (hd : dispatch? invocation = some d)
    (h : callTarget φ invocation target result s = .ok ((lines, dispatch, owner, ret), s')) :
    dispatch = d ∧ Receives φ d target lines ∧ ownerName? φ.cls d target = some owner ∧
      ret = resultType d result ∧ s'.labels = s.labels := by
  cases invocation with
  | static =>
    obtain rfl : Dispatch.static = d := by simpa [dispatch?] using hd
    cases target with
    | classRef cls =>
      obtain ⟨heq, rfl⟩ := emit_pure.mp h
      simp only [Prod.mk.injEq] at heq
      obtain ⟨rfl, rfl, rfl, rfl⟩ := heq
      exact ⟨rfl, .static cls, rfl, rfl, rfl⟩
    | lit | var | param | elem | self => exact absurd h unsupported_ne_ok
  | virtual =>
    obtain rfl : Dispatch.virtual = d := by simpa [dispatch?] using hd
    obtain ⟨l, s₁, hload, h⟩ := emit_bind.mp h
    obtain ⟨hload, hs⟩ := load_loads hload
    obtain ⟨o, s₂, howner, h⟩ := emit_bind.mp h
    obtain ⟨ho, rfl⟩ := emit_lift.mp howner
    obtain ⟨heq, rfl⟩ := emit_pure.mp h
    simp only [Prod.mk.injEq] at heq
    obtain ⟨rfl, rfl, rfl, rfl⟩ := heq
    exact ⟨rfl, .value (by decide) hload, ownerOf_ok ho, rfl, hs⟩
  | special =>
    obtain rfl : Dispatch.special = d := by simpa [dispatch?] using hd
    obtain ⟨l, s₁, hload, h⟩ := emit_bind.mp h
    obtain ⟨hload, hs⟩ := load_loads hload
    cases target with
    | self cls =>
      obtain ⟨heq, rfl⟩ := emit_pure.mp h
      simp only [Prod.mk.injEq] at heq
      obtain ⟨rfl, rfl, rfl, rfl⟩ := heq
      refine ⟨rfl, .value (by decide) hload, ?_, rfl, hs⟩
      unfold Frame.superName ownerName?
      cases φ.cls.superClass with
      | none => rfl
      | some super => rfl
    | lit | var | param | elem | classRef =>
      obtain ⟨o, s₂, howner, h⟩ := emit_bind.mp h
      obtain ⟨ho, rfl⟩ := emit_lift.mp howner
      obtain ⟨heq, rfl⟩ := emit_pure.mp h
      simp only [Prod.mk.injEq] at heq
      obtain ⟨rfl, rfl, rfl, rfl⟩ := heq
      exact ⟨rfl, .value (by decide) hload, ownerOf_ok ho, rfl, hs⟩
  | new | arrayLength => simp [dispatch?] at hd

theorem namedCall_calls {invocation : Invocation} {target : Operand} {name : String}
    {args : List Operand} {result : Ty} {hasValue : Bool} {d : Dispatch}
    (hd : dispatch? invocation = some d)
    (h : namedCall φ invocation target name args result s = .ok ((lines, hasValue), s')) :
    Calls φ invocation target (some name) args result lines hasValue ∧ s'.labels = s.labels := by
  unfold namedCall at h
  obtain ⟨⟨receiver, dispatch, owner, ret⟩, s₁, htarget, h⟩ := emit_bind.mp h
  obtain ⟨rfl, hreceiver, howner, rfl, hs₁⟩ := callTarget_receives hd htarget
  obtain ⟨values, s₂, hvalues, h⟩ := emit_bind.mp h
  obtain ⟨hvalues, hs₂⟩ := loadAll_loads hvalues
  obtain ⟨descriptor, s₃, hdesc, h⟩ := emit_bind.mp h
  obtain ⟨hdescriptor, rfl⟩ := emit_lift.mp hdesc
  obtain ⟨_, s₄, hpop, h⟩ := emit_bind.mp h
  have hs₄ : s₄.labels = s.labels := by rw [pop_labels hpop, hs₂, hs₁]
  have href : (linkage φ.cls).method? dispatch target name args result =
      some ⟨owner, name, descriptor⟩ := by
    simp [linkage, howner, hdescriptor, Except.toOption]
  have hcalls := Calls.named hd hreceiver hvalues href
  by_cases hvoid : resultType dispatch result = .void
  · rw [if_pos hvoid] at h
    obtain ⟨heq, rfl⟩ := emit_pure.mp h
    obtain ⟨rfl, rfl⟩ := Prod.mk.inj heq
    exact ⟨by simpa [hvoid] using hcalls, hs₄⟩
  · rw [if_neg hvoid] at h
    obtain ⟨_, s₅, hpush, h⟩ := emit_bind.mp h
    obtain ⟨heq, rfl⟩ := emit_pure.mp h
    obtain ⟨rfl, rfl⟩ := Prod.mk.inj heq
    exact ⟨by simpa [hvoid] using hcalls, by rw [push_labels hpush, hs₄]⟩

theorem allocation_calls {target : Operand} {args : List Operand} (method : Option String)
    (result : Ty) (h : allocation φ target args s = .ok (lines, s')) :
    Calls φ .new target method args result lines true ∧ s'.labels = s.labels := by
  cases target with
  | classRef name =>
    unfold allocation at h
    by_cases hname : name = "array"
    · subst hname
      cases args with
      | nil => exact absurd h unsupported_ne_ok
      | cons size rest =>
        obtain ⟨n, s₁, hsize, h⟩ := emit_bind.mp h
        obtain ⟨_, s₂, hpop, h⟩ := emit_bind.mp h
        obtain ⟨_, s₃, hpush, h⟩ := emit_bind.mp h
        obtain ⟨rfl, rfl⟩ := emit_pure.mp h
        obtain ⟨hsize, hs₁⟩ := load_loads hsize
        exact ⟨.newArray method rest result hsize, by rw [push_labels hpush, pop_labels hpop, hs₁]⟩
    · simp only [if_neg hname] at h
      obtain ⟨_, s₁, hpush, h⟩ := emit_bind.mp h
      obtain ⟨rfl, rfl⟩ := emit_pure.mp h
      exact ⟨.newObject method args result hname, push_labels hpush⟩
  | lit | var | param | elem | self => exact absurd h unsupported_ne_ok

theorem call_calls {invocation : Invocation} {target : Operand} {method : Option String}
    {args : List Operand} {result : Ty} {hasValue : Bool}
    (h : call φ invocation target method args result s = .ok ((lines, hasValue), s')) :
    Calls φ invocation target method args result lines hasValue ∧ s'.labels = s.labels := by
  unfold call at h
  cases invocation with
  | new =>
    obtain ⟨l, s₁, halloc, h⟩ := emit_bind.mp h
    obtain ⟨heq, rfl⟩ := emit_pure.mp h
    obtain ⟨rfl, rfl⟩ := Prod.mk.inj heq
    exact allocation_calls method result halloc
  | arrayLength =>
    obtain ⟨a, s₁, htarget, h⟩ := emit_bind.mp h
    obtain ⟨_, s₂, hpop, h⟩ := emit_bind.mp h
    obtain ⟨_, s₃, hpush, h⟩ := emit_bind.mp h
    obtain ⟨heq, rfl⟩ := emit_pure.mp h
    obtain ⟨rfl, rfl⟩ := Prod.mk.inj heq
    obtain ⟨htarget, hs₁⟩ := load_loads htarget
    exact ⟨.arrayLength method args result htarget,
      by rw [push_labels hpush, pop_labels hpop, hs₁]⟩
  | static | virtual | special =>
    cases method with
    | none => exact absurd h unsupported_ne_ok
    | some name => exact namedCall_calls rfl h

end Calls

/-! ### Values -/

/-- The end of a comparison whose result is wanted as a value. -/
def compareLines (cmp : Comparison) (n : Nat) : List Line :=
  [.op (.ifCompare cmp (placeLabel "cmp_true" n)), .op (.const 0),
    .op (.goto (placeLabel "cmp_end" (n + 1))), .label (placeLabel "cmp_true" n), .op (.const 1),
    .label (placeLabel "cmp_end" (n + 1))]

/-- These lines leave the value of the instruction on the stack. -/
inductive Pushes (φ : Frame) : Instr → List Line → Nat → Nat → Prop
  | single {op : Operand} {lines : List Line} (n : Nat) (h : Loads φ op lines) :
      Pushes φ (.single op) lines n n
  | arith {op : BinOp} {a : Arith} {lhs rhs : Operand} {l r : List Line} (n : Nat)
      (hop : Arith.of? op = some a) (hl : Loads φ lhs l) (hr : Loads φ rhs r) :
      Pushes φ (.binary op lhs rhs) (l ++ r ++ [.op (.arith a)]) n n
  | compare {op : BinOp} {cmp : Comparison} {lhs rhs : Operand} {l r : List Line} (n : Nat)
      (hop : Comparison.of? op = some cmp) (hl : Loads φ lhs l) (hr : Loads φ rhs r) :
      Pushes φ (.binary op lhs rhs) (l ++ r ++ compareLines cmp n) n (n + 2)
  | not {op : Operand} {lines : List Line} (n : Nat) (h : Loads φ op lines) :
      Pushes φ (.not op) (lines ++ [.op (.const 1), .op (.arith .xor)]) n n
  | getField {object field : Operand} {lines : List Line} {ref : FieldRef} (n : Nat)
      (hobject : Loads φ object lines) (href : (linkage φ.cls).field? field = some ref) :
      Pushes φ (.getField object field) (lines ++ [.op (.getField ref)]) n n
  | call {invocation : Invocation} {target : Operand} {method : Option String} {args : List Operand}
      {result : Ty} {lines : List Line} (n : Nat)
      (h : Calls φ invocation target method args result lines true) :
      Pushes φ (.call invocation target method args result) lines n n

theorem comparison_of_arith {op : BinOp} (h : Arith.of? op = none) :
    Comparison.of? op = some ((Comparison.of? op).getD .ne) := by
  cases op with
  | lt | gt | le | ge | eq | ne => rfl
  | add | sub | mul | div | and | or => simp [Arith.of?] at h

section Values

variable {φ : Frame} {s s' : EmitState} {lines : List Line}

theorem binary_pushes {op : BinOp} {lhs rhs : Operand} (h : binary φ op lhs rhs s = .ok (lines, s')) :
    Pushes φ (.binary op lhs rhs) lines s.labels s'.labels := by
  unfold binary at h
  obtain ⟨l, s₁, hl, h⟩ := emit_bind.mp h
  obtain ⟨r, s₂, hr, h⟩ := emit_bind.mp h
  obtain ⟨hl, hs₁⟩ := load_loads hl
  obtain ⟨hr, hs₂⟩ := load_loads hr
  cases ha : Arith.of? op with
  | some a =>
    simp only [ha] at h
    obtain ⟨_, s₃, hpop, h⟩ := emit_bind.mp h
    obtain ⟨_, s₄, hpush, h⟩ := emit_bind.mp h
    obtain ⟨rfl, rfl⟩ := emit_pure.mp h
    rw [push_labels hpush, pop_labels hpop, hs₂, hs₁]
    exact .arith _ ha hl hr
  | none =>
    simp only [ha] at h
    obtain ⟨yes, s₃, hyes, h⟩ := emit_bind.mp h
    obtain ⟨done, s₄, hdone, h⟩ := emit_bind.mp h
    obtain ⟨_, s₅, hpop, h⟩ := emit_bind.mp h
    obtain ⟨_, s₆, hpush, h⟩ := emit_bind.mp h
    obtain ⟨rfl, rfl⟩ := emit_pure.mp h
    obtain ⟨rfl, hs₃⟩ := inventLabel_ok hyes
    obtain ⟨rfl, hs₄⟩ := inventLabel_ok hdone
    rw [push_labels hpush, pop_labels hpop, hs₄, hs₃, hs₂, hs₁]
    exact .compare _ (comparison_of_arith ha) hl hr

theorem value_pushes {i : Instr} (h : value φ i s = .ok (lines, s')) :
    Pushes φ i lines s.labels s'.labels := by
  cases i with
  | single op =>
    obtain ⟨hload, hs⟩ := load_loads h
    rw [hs]
    exact .single _ hload
  | binary op lhs rhs => exact binary_pushes h
  | not op =>
    obtain ⟨l, s₁, hload, h⟩ := emit_bind.mp h
    obtain ⟨_, s₂, hpush, h⟩ := emit_bind.mp h
    obtain ⟨_, s₃, hpop, h⟩ := emit_bind.mp h
    obtain ⟨rfl, rfl⟩ := emit_pure.mp h
    obtain ⟨hload, hs₁⟩ := load_loads hload
    rw [pop_labels hpop, push_labels hpush, hs₁]
    exact .not _ hload
  | getField object field =>
    obtain ⟨l, s₁, hload, h⟩ := emit_bind.mp h
    obtain ⟨ref, s₂, href, h⟩ := emit_bind.mp h
    obtain ⟨hfield, rfl⟩ := emit_lift.mp href
    obtain ⟨_, s₃, hpop, h⟩ := emit_bind.mp h
    obtain ⟨_, s₄, hpush, h⟩ := emit_bind.mp h
    obtain ⟨rfl, rfl⟩ := emit_pure.mp h
    obtain ⟨hload, hs₁⟩ := load_loads hload
    rw [push_labels hpush, pop_labels hpop, hs₁]
    exact .getField _ hload (fieldRef_ok hfield)
  | call invocation target method args result =>
    obtain ⟨⟨l, hasValue⟩, s₁, hcall, h⟩ := emit_bind.mp h
    obtain ⟨hcalls, hs₁⟩ := call_calls hcall
    cases hasValue with
    | false => exact absurd h unsupported_ne_ok
    | true =>
      obtain ⟨rfl, rfl⟩ := emit_pure.mp h
      rw [hs₁]
      exact .call _ hcalls
  | assign | ret | goto | branch | putField | nop => exact absurd h unsupported_ne_ok

end Values

/-! ### Instructions -/

inductive Emits (φ : Frame) : Instr → List Line → Nat → Nat → Prop
  | assignElem {array index : Operand} {rhs : Instr} {a i v : List Line} {n n' : Nat} (ty ty' : Ty)
      (ha : Loads φ array a) (hi : Loads φ index i) (hv : Pushes φ rhs v n n') :
      Emits φ (.assign (.elem array index ty) ty' rhs) (a ++ i ++ v ++ [.op (.arrayStore (.of ty))])
        n n'
  | assignCell {dest : Operand} {cell : Cell} {slot : Slot} {rhs : Instr} {v : List Line} {n n' : Nat}
      (ty : Ty) (hcell : dest.cell? = some cell) (hslot : φ.slots.get? cell.name = some slot)
      (hv : Pushes φ rhs v n n') :
      Emits φ (.assign dest ty rhs) (v ++ [.op (.store (.of dest.ty) slot.index)]) n n'
  | retNone (n : Nat) : Emits φ (.ret none) [.op .ret] n n
  | ret {op : Operand} {lines : List Line} (n : Nat) (h : Loads φ op lines) :
      Emits φ (.ret (some op)) (lines ++ [.op (.retValue (.of op.ty))]) n n
  | goto (label : String) (n : Nat) : Emits φ (.goto label) [.op (.goto label)] n n
  | branchCompare {op : BinOp} {cmp : Comparison} {lhs rhs : Operand} {l r : List Line} (label : String)
      (n : Nat) (hop : Comparison.of? op = some cmp) (hl : Loads φ lhs l) (hr : Loads φ rhs r) :
      Emits φ (.branch (.binary op lhs rhs) label) (l ++ r ++ [.op (.ifCompare cmp label)]) n n
  | branchNot {op : Operand} {lines : List Line} (label : String) (n : Nat) (h : Loads φ op lines) :
      Emits φ (.branch (.not op) label) (lines ++ [.op (.ifZero label)]) n n
  | branchValue {cond : Instr} {lines : List Line} {n n' : Nat} (label : String)
      (h : Pushes φ cond lines n n') :
      Emits φ (.branch cond label) (lines ++ [.op (.ifNonzero label)]) n n'
  | putField {object field value : Operand} {o x : List Line} {ref : FieldRef} (n : Nat)
      (hobject : Loads φ object o) (hvalue : Loads φ value x)
      (href : (linkage φ.cls).field? field = some ref) :
      Emits φ (.putField object field value) (o ++ x ++ [.op (.putField ref)]) n n
  | nop (n : Nat) : Emits φ .nop [.op .nop] n n
  | callVoid {invocation : Invocation} {target : Operand} {method : Option String}
      {args : List Operand} {result : Ty} {lines : List Line} (n : Nat)
      (h : Calls φ invocation target method args result lines false) :
      Emits φ (.call invocation target method args result) lines n n
  | discard {i : Instr} {lines : List Line} {n n' : Nat} (h : Pushes φ i lines n n') :
      Emits φ i (lines ++ [.op .pop]) n n'

section Instructions

variable {φ : Frame} {s s' : EmitState} {lines : List Line}

theorem assign_emits {dest : Operand} {rhs : Instr} (ty : Ty)
    (h : assign φ dest rhs s = .ok (lines, s')) :
    Emits φ (.assign dest ty rhs) lines s.labels s'.labels := by
  cases dest with
  | elem array index elemTy =>
    obtain ⟨a, s₁, ha, h⟩ := emit_bind.mp h
    obtain ⟨i, s₂, hi, h⟩ := emit_bind.mp h
    obtain ⟨v, s₃, hv, h⟩ := emit_bind.mp h
    obtain ⟨_, s₄, hpop, h⟩ := emit_bind.mp h
    obtain ⟨rfl, rfl⟩ := emit_pure.mp h
    obtain ⟨ha, hs₁⟩ := load_loads ha
    obtain ⟨hi, hs₂⟩ := load_loads hi
    have hv := value_pushes hv
    rw [hs₂, hs₁] at hv
    rw [pop_labels hpop]
    exact .assignElem elemTy ty ha hi hv
  | var name varTy | param position name varTy =>
    obtain ⟨v, s₁, hv, h⟩ := emit_bind.mp h
    obtain ⟨l, s₂, hstore, h⟩ := emit_bind.mp h
    obtain ⟨rfl, rfl⟩ := emit_pure.mp h
    unfold store at hstore
    obtain ⟨index, s₃, hlift, hstore⟩ := emit_bind.mp hstore
    obtain ⟨hindex, rfl⟩ := emit_lift.mp hlift
    obtain ⟨slot, hslot, rfl⟩ := slotOf_ok rfl hindex
    obtain ⟨_, s₄, hpop, hstore⟩ := emit_bind.mp hstore
    obtain ⟨rfl, rfl⟩ := emit_pure.mp hstore
    rw [pop_labels hpop]
    exact .assignCell ty rfl hslot (value_pushes hv)
  | lit | self | classRef => exact absurd h unsupported_ne_ok

theorem branch_emits {cond : Instr} {label : String} (h : branch φ cond label s = .ok (lines, s')) :
    Emits φ (.branch cond label) lines s.labels s'.labels := by
  -- the test by value, for whatever is not tested directly
  have hvalue (hbind : (do
      let lines ← value φ cond
      pop φ 1
      return lines ++ [.op (.ifNonzero label)] : EmitM (List Line)) s = .ok (lines, s')) :
      Emits φ (.branch cond label) lines s.labels s'.labels := by
    obtain ⟨l, s₁, hv, hbind⟩ := emit_bind.mp hbind
    obtain ⟨_, s₂, hpop, hbind⟩ := emit_bind.mp hbind
    obtain ⟨rfl, rfl⟩ := emit_pure.mp hbind
    rw [pop_labels hpop]
    exact .branchValue label (value_pushes hv)
  unfold branch at h
  cases cond with
  | binary op lhs rhs =>
    cases hop : Comparison.of? op with
    | none =>
      simp only [hop] at h
      exact hvalue h
    | some cmp =>
      simp only [hop] at h
      obtain ⟨l, s₁, hl, h⟩ := emit_bind.mp h
      obtain ⟨r, s₂, hr, h⟩ := emit_bind.mp h
      obtain ⟨_, s₃, hpop, h⟩ := emit_bind.mp h
      obtain ⟨rfl, rfl⟩ := emit_pure.mp h
      obtain ⟨hl, hs₁⟩ := load_loads hl
      obtain ⟨hr, hs₂⟩ := load_loads hr
      rw [pop_labels hpop, hs₂, hs₁]
      exact .branchCompare label _ hop hl hr
  | not op =>
    obtain ⟨l, s₁, hload, h⟩ := emit_bind.mp h
    obtain ⟨_, s₂, hpop, h⟩ := emit_bind.mp h
    obtain ⟨rfl, rfl⟩ := emit_pure.mp h
    obtain ⟨hload, hs₁⟩ := load_loads hload
    rw [pop_labels hpop, hs₁]
    exact .branchNot label _ hload
  | assign | call | ret | goto | branch | getField | putField | single | nop => exact hvalue h

theorem discarded_emits {i : Instr} {v : List Line} {n : Nat} (hv : Pushes φ i v n s.labels)
    (h : discarded φ v s = .ok (lines, s')) : Emits φ i lines n s'.labels := by
  obtain ⟨_, s₁, hpop, h⟩ := emit_bind.mp h
  obtain ⟨rfl, rfl⟩ := emit_pure.mp h
  rw [pop_labels hpop]
  exact .discard hv

theorem instruction_emits {i : Instr} (h : instruction φ i s = .ok (lines, s')) :
    Emits φ i lines s.labels s'.labels := by
  cases i with
  | assign dest ty rhs => exact assign_emits ty h
  | call invocation target method args result =>
    obtain ⟨⟨l, hasValue⟩, s₁, hcall, h⟩ := emit_bind.mp h
    obtain ⟨hcalls, hs₁⟩ := call_calls hcall
    cases hasValue with
    | false =>
      obtain ⟨rfl, rfl⟩ := emit_pure.mp h
      rw [hs₁]
      exact .callVoid _ hcalls
    | true =>
      refine discarded_emits ?_ h
      rw [hs₁]
      exact .call _ hcalls
  | ret value =>
    cases value with
    | none =>
      obtain ⟨rfl, rfl⟩ := emit_pure.mp h
      exact .retNone _
    | some op =>
      obtain ⟨l, s₁, hload, h⟩ := emit_bind.mp h
      obtain ⟨_, s₂, hpop, h⟩ := emit_bind.mp h
      obtain ⟨rfl, rfl⟩ := emit_pure.mp h
      obtain ⟨hload, hs₁⟩ := load_loads hload
      rw [pop_labels hpop, hs₁]
      exact .ret _ hload
  | goto label =>
    obtain ⟨rfl, rfl⟩ := emit_pure.mp h
    exact .goto label _
  | branch cond label => exact branch_emits h
  | putField object field v =>
    obtain ⟨o, s₁, ho, h⟩ := emit_bind.mp h
    obtain ⟨x, s₂, hx, h⟩ := emit_bind.mp h
    obtain ⟨ref, s₃, href, h⟩ := emit_bind.mp h
    obtain ⟨hfield, rfl⟩ := emit_lift.mp href
    obtain ⟨_, s₄, hpop, h⟩ := emit_bind.mp h
    obtain ⟨rfl, rfl⟩ := emit_pure.mp h
    obtain ⟨ho, hs₁⟩ := load_loads ho
    obtain ⟨hx, hs₂⟩ := load_loads hx
    rw [pop_labels hpop, hs₂, hs₁]
    exact .putField _ ho hx (fieldRef_ok hfield)
  | nop =>
    obtain ⟨rfl, rfl⟩ := emit_pure.mp h
    exact .nop _
  | binary | not | getField | single =>
    obtain ⟨v, s₁, hv, h⟩ := emit_bind.mp h
    exact discarded_emits (value_pushes hv) h

end Instructions

/-! ### Bodies -/

/-- The labels of each step, followed by its block of lines. -/
def layout : List Flat.Step → List (List Line) → List Line
  | s :: rest, block :: blocks => s.labels.map .label ++ block ++ layout rest blocks
  | _, _ => []

/-- Each block holds the lines of its step, emitted one after the other. -/
inductive EmitsAll (φ : Frame) : List Flat.Step → List (List Line) → EmitState → EmitState → Prop
  | nil (σ : EmitState) : EmitsAll φ [] [] σ σ
  | cons {s : Flat.Step} {rest : List Flat.Step} {block : List Line} {blocks : List (List Line)}
      {σ σ₁ σ₂ : EmitState} (hs : instruction φ s.instr σ = .ok (block, σ₁))
      (hrest : EmitsAll φ rest blocks σ₁ σ₂) : EmitsAll φ (s :: rest) (block :: blocks) σ σ₂

theorem stepLines_emits {φ : Frame} {steps : List Flat.Step} {σ σ' : EmitState} {lines : List Line}
    (h : stepLines φ steps σ = .ok (lines, σ')) :
    ∃ blocks, lines = layout steps blocks ∧ EmitsAll φ steps blocks σ σ' := by
  induction steps generalizing σ σ' lines with
  | nil =>
    obtain ⟨rfl, rfl⟩ := emit_pure.mp h
    exact ⟨[], rfl, .nil σ⟩
  | cons step rest ih =>
    unfold stepLines at h
    obtain ⟨block, σ₁, hstep, h⟩ := emit_bind.mp h
    obtain ⟨more, σ₂, hrest, h⟩ := emit_bind.mp h
    obtain ⟨rfl, rfl⟩ := emit_pure.mp h
    obtain ⟨blocks, rfl, hblocks⟩ := ih hrest
    exact ⟨block :: blocks, rfl, .cons hstep hblocks⟩

theorem emit_body {cls : Flat.Class} {m : Flat.Method} {slots : SlotTable} {out : Method}
    (h : Method.emit cls m slots = .ok out) :
    ∃ blocks σ, EmitsAll ⟨cls, m, slots⟩ m.steps blocks {} σ ∧
      out.body = layout m.steps blocks ++ closing m := by
  unfold Method.emit at h
  obtain ⟨⟨lines, σ⟩, hlines, h⟩ := bind_eq_ok.mp h
  obtain ⟨descriptor, _, h⟩ := bind_eq_ok.mp h
  obtain rfl := pure_eq_ok.mp h
  obtain ⟨blocks, rfl, hblocks⟩ := stepLines_emits hlines
  exact ⟨blocks, σ, hblocks, rfl⟩

end JavaMinus.Assembly
