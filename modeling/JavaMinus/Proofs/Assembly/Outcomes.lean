import JavaMinus.Proofs.Assembly.Derivation

/-!
# Outcomes of emission

Emission ends in one of two ways. Either it succeeds, and then it is known how many values it has
left on the stack and how high the stack has been, or it fails. Taking values off the stack never
fails, and the causes of other failures lie in the instruction: its shape, its types, or a name in
it that has no slot.
-/

namespace JavaMinus

/-- Causes that come from badly built code or from a slot table that does not belong to it. -/
def InstrFault.isInternal : InstrFault → Bool
  | .undefinedLabel .. | .tableCount .. | .noValue _ | .notAssignable _ | .staticTarget _
  | .unnamedCall _ | .notInstantiable _ | .notField _ | .noSlot .. => true
  | .voidCallValue _ | .arrayWithoutSize | .noOwner _ | .classValue _ => false

/-- Errors that no tree can be blamed for. -/
def Error.isInternal : Error → Bool
  | .stackUnderflow _ => true
  | .unsupportedInstr fault => fault.isInternal
  | _ => false

/-- Errors that blame an instruction or a type in it. -/
def Error.isUnsupported : Error → Bool
  | .unsupportedInstr _ | .unmappedType _ => true
  | _ => false

end JavaMinus

namespace JavaMinus.Flat

/-! ### Shapes -/

def Operand.isClass : Operand → Bool
  | .classRef _ => true
  | _ => false

def Operand.isVar : Operand → Bool
  | .var .. => true
  | _ => false

def Operand.isAssignable : Operand → Bool
  | .var .. | .param .. | .elem .. => true
  | _ => false

namespace Instr

/-- A call whose target and name are of the kind that its invocation asks for. -/
def isCall (invocation : Invocation) (target : Operand) (method : Option String) : Bool :=
  match invocation with
  | .new => target.isClass
  | .arrayLength => true
  | .static => target.isClass && method.isSome
  | .virtual | .special => method.isSome

/-- The instruction is of a kind that leaves a value, and its parts are of the right kinds. -/
def isValue : Instr → Bool
  | .single _ | .binary .. | .not _ => true
  | .getField _ field => field.isVar
  | .call invocation target method _ _ => isCall invocation target method
  | _ => false

def isShaped : Instr → Bool
  | .assign dest _ rhs => dest.isAssignable && rhs.isValue
  | .call invocation target method _ _ => isCall invocation target method
  | .ret _ | .goto _ | .nop => true
  | .branch cond _ => cond.isValue
  | .putField _ field _ => field.isVar
  | i => i.isValue

end Instr

/-! ### Stack use -/

/-- How many values are on the stack at most while the operand is loaded. -/
def Operand.stackUse : Operand → Nat
  | .elem array index _ => max array.stackUse (1 + index.stackUse)
  | _ => 1

theorem Operand.one_le_stackUse (op : Operand) : 1 ≤ op.stackUse := by
  induction op with
  | elem array index ty iha _ =>
    unfold Operand.stackUse
    omega
  | lit | var | param | self | classRef => exact Nat.le_refl 1

def stackUseAll : List Operand → Nat
  | [] => 0
  | op :: rest => max op.stackUse (1 + stackUseAll rest)

namespace Instr

def callStackUse (invocation : Invocation) (target : Operand) (args : List Operand)
    (result : Ty) : Nat :=
  match invocation with
  | .new => if target = .classRef "array" then (args.head?.map Operand.stackUse).getD 1 else 1
  | .arrayLength => target.stackUse
  | .static => max (stackUseAll args) (if result = .void then 0 else 1)
  | .virtual | .special => max target.stackUse (1 + stackUseAll args)

def valueStackUse : Instr → Nat
  | .single op => op.stackUse
  | .binary _ lhs rhs => max lhs.stackUse (1 + rhs.stackUse)
  | .not op => max op.stackUse 2
  | .getField object _ => object.stackUse
  | .call invocation target _ args result => callStackUse invocation target args result
  | _ => 0

/-- How many values are on the stack at most while the instruction runs. -/
def stackUse : Instr → Nat
  | .assign (.elem array index _) _ rhs =>
    max (max array.stackUse (1 + index.stackUse)) (2 + rhs.valueStackUse)
  | .assign _ _ rhs => rhs.valueStackUse
  | .ret (some op) => op.stackUse
  | .branch (.not op) _ => op.stackUse
  | .branch cond _ => cond.valueStackUse
  | .putField object _ value => max object.stackUse (1 + value.stackUse)
  | i => i.valueStackUse

end Instr

end JavaMinus.Flat

namespace JavaMinus.Assembly

open JavaMinus.Flat (Ty Operand Instr Invocation stackUseAll bind_eq_ok pure_eq_ok bind_eq_error
  pure_ne_error error_of_mapM)
open JavaMinus.Source (BinOp)

/-! ### Computations -/

/-- Started on `s`, the computation ends as `post` says or fails. It fails because something is not
supported, never for want of values on the stack, and if `fit` holds not for an internal cause. -/
def Meets {α : Type} (x : EmitM α) (s : EmitState) (fit : Prop) (post : α → EmitState → Prop) :
    Prop :=
  match x s with
  | .ok (a, s') => post a s'
  | .error e => e.isUnsupported = true ∧ (fit → e.isInternal = false)

namespace Meets

variable {α β : Type} {x : EmitM α} {f : α → EmitM β} {s : EmitState} {fit fit' : Prop}
  {post mid : α → EmitState → Prop} {post' : β → EmitState → Prop}

theorem pure {a : α} (h : post a s) : Meets (pure a) s fit post :=
  h

theorem bind (hx : Meets x s fit mid) (hf : ∀ a s₁, mid a s₁ → Meets (f a) s₁ fit post') :
    Meets (x >>= f) s fit post' := by
  unfold Meets at hx ⊢
  rw [show (x >>= f) s = (x s >>= fun p => f p.1 p.2) from rfl]
  cases hxs : x s with
  | error e =>
    rw [hxs] at hx
    exact hx
  | ok p =>
    rw [hxs] at hx
    exact hf p.1 p.2 hx

theorem under (h : Meets x s fit' post) (hfit : fit → fit') : Meets x s fit post := by
  unfold Meets at h ⊢
  cases hxs : x s with
  | error e =>
    rw [hxs] at h
    exact ⟨h.1, fun hf => h.2 (hfit hf)⟩
  | ok p =>
    rw [hxs] at h
    exact h

theorem lift {r : Except Error α} (hok : ∀ a, r = .ok a → post a s)
    (herror : ∀ e, r = .error e →
      e.isUnsupported = true ∧ (fit → e.isInternal = false)) :
    Meets (liftM r : EmitM α) s fit post := by
  cases r with
  | error e => exact herror e rfl
  | ok a => exact hok a rfl

theorem unsupported {fault : InstrFault} (h : fit → fault.isInternal = false) :
    Meets (unsupported fault : EmitM α) s fit post :=
  ⟨rfl, h⟩

theorem ok (h : Meets x s fit post) {a : α} {s' : EmitState} (hx : x s = .ok (a, s')) :
    post a s' := by
  unfold Meets at h
  rw [hx] at h
  exact h

theorem error (h : Meets x s fit post) {e : Error} (hx : x s = .error e) :
    e.isUnsupported = true ∧ (fit → e.isInternal = false) := by
  unfold Meets at h
  rw [hx] at h
  exact h

end Meets

/-! ### The stack -/

/-- From `s` to `s'` the stack has grown by `kept` values, and at most `used` values were on it
above those that it held in `s`. -/
structure Grown (s : EmitState) (kept used : Nat) (s' : EmitState) : Prop where
  depth : s'.stack.depth = s.stack.depth + kept
  peak : s'.stack.peak = max s.stack.peak (s.stack.depth + used)
  steady : s'.stack.depth ≤ s'.stack.peak

section Stack

variable {φ : Frame} {s s₁ s₂ : EmitState} {kept used kept' used' n : Nat} {fit : Prop}

theorem Grown.refl (h : s.stack.depth ≤ s.stack.peak) : Grown s 0 0 s :=
  ⟨rfl, by omega, h⟩

theorem Grown.trans (h : Grown s kept used s₁) (h' : Grown s₁ kept' used' s₂) :
    Grown s (kept + kept') (max used (kept + used')) s₂ := by
  have hdepth := h.depth
  have hpeak := h.peak
  have hdepth' := h'.depth
  have hpeak' := h'.peak
  exact ⟨by omega, by omega, h'.steady⟩

theorem Grown.of_eq (h : Grown s kept used s₁) (hkept : kept = kept') (hused : used = used') :
    Grown s kept' used' s₁ := by
  rw [← hkept, ← hused]
  exact h

theorem push_meets (h : Grown s kept used s₁) :
    Meets (push n) s₁ fit fun _ s' => Grown s (kept + n) (max used (kept + n)) s' := by
  have hdepth := h.depth
  have hpeak := h.peak
  change Grown s (kept + n) (max used (kept + n)) { s₁ with stack := s₁.stack.push n }
  refine ⟨?_, ?_, StackDepth.depth_push_le_peak s₁.stack n⟩
  · simp only [StackDepth.push]
    omega
  · simp only [StackDepth.push]
    omega

/-- What was put on the stack can be taken off it. -/
theorem pop_meets (kept : Nat) (h : Grown s kept' used s₁) (hkept : kept' = kept + n) :
    Meets (pop φ n) s₁ fit fun _ s' => Grown s kept used s' := by
  have hdepth := h.depth
  have hsteady := h.steady
  have hle : n ≤ s₁.stack.depth := by omega
  have hpop : s₁.stack.pop φ.method.name n = .ok { s₁.stack with depth := s₁.stack.depth - n } := by
    rw [StackDepth.pop, if_pos hle]
  have hrun : pop φ n s₁ =
      .ok ((), { s₁ with stack := { s₁.stack with depth := s₁.stack.depth - n } }) :=
    emit_bind.mpr ⟨s₁, s₁, rfl, emit_bind.mpr ⟨_, s₁, emit_lift.mpr ⟨hpop, rfl⟩, rfl⟩⟩
  unfold Meets
  rw [hrun]
  refine ⟨?_, h.peak, ?_⟩
  · simp only
    omega
  · simp only
    omega

/-- The operands on the stack give way to one result. -/
theorem replace_meets {α : Type} {x : EmitM α} {post : α → EmitState → Prop} (h : Grown s n used s₁)
    (hused : 1 ≤ used) (hx : ∀ s', Grown s 1 used s' → Meets x s' fit post) :
    Meets (do pop φ n; push 1; x) s₁ fit post := by
  refine (pop_meets 0 h (Nat.zero_add n).symm).bind fun _ s₂ h₂ => ?_
  refine (push_meets h₂).bind fun _ s₃ h₃ => hx s₃ (h₃.of_eq rfl ?_)
  omega

theorem inventLabel_meets {base : String} (h : Grown s kept used s₁) :
    Meets (inventLabel base) s₁ fit fun _ s' => Grown s kept used s' :=
  ⟨h.depth, h.peak, h.steady⟩

end Stack

/-! ### Operands -/

/-- Each variable and parameter among the operands has a slot. -/
def Held (φ : Frame) (ops : List Operand) : Prop :=
  ∀ op ∈ ops, ∀ name, op.name? = some name → ∃ slot, φ.slots.get? name = some slot

section Operands

variable {φ : Frame} {s : EmitState}

theorem Held.left {ops ops' : List Operand} (h : Held φ (ops ++ ops')) : Held φ ops :=
  fun op hop => h op (List.mem_append_left _ hop)

theorem Held.right {ops ops' : List Operand} (h : Held φ (ops ++ ops')) : Held φ ops' :=
  fun op hop => h op (List.mem_append_right _ hop)

theorem slotOf_meets {op : Operand} {name : String} {fit : Prop} {post : Nat → EmitState → Prop}
    (hname : op.name? = some name) (hfit : fit → Held φ op.parts)
    (hpost : ∀ index, post index s) : Meets (liftM (φ.slotOf op) : EmitM Nat) s fit post := by
  refine Meets.lift (fun index _ => hpost index) ?_
  intro e he
  have hmem : op ∈ op.parts := by
    cases op <;> exact List.mem_cons_self ..
  unfold Frame.slotOf at he
  rw [hname, Option.getD_some] at he
  cases hslot : φ.slots.get? name with
  | some slot => simp [hslot] at he
  | none =>
    obtain rfl : Error.unsupportedInstr (.noSlot name φ.method.name) = e := by
      simpa [hslot] using he
    refine ⟨rfl, fun hf => ?_⟩
    obtain ⟨slot, hsome⟩ := hfit hf op hmem name hname
    simp [hslot] at hsome

theorem load_meets (op : Operand) (hs : s.stack.depth ≤ s.stack.peak) :
    Meets (load φ op) s (Held φ op.parts) fun _ s' => Grown s 1 op.stackUse s' := by
  have hstart := Grown.refl hs
  induction op generalizing s with
  | lit value ty => exact (push_meets hstart).bind fun _ s₁ h₁ => .pure h₁
  | self cls => exact (push_meets hstart).bind fun _ s₁ h₁ => .pure h₁
  | var name ty | param position name ty =>
    refine (slotOf_meets rfl id fun _ => hstart).bind fun index s₁ h₁ => ?_
    exact (push_meets h₁).bind fun _ s₂ h₂ => .pure h₂
  | elem array index ty iha ihi =>
    have hone := array.one_le_stackUse
    have hheld (h : Held φ (Operand.elem array index ty).parts) :
        Held φ (array.parts ++ index.parts) :=
      fun op hop => h op (List.mem_cons_of_mem _ hop)
    refine ((iha hs hstart).under fun h => (hheld h).left).bind fun a s₁ h₁ => ?_
    refine ((ihi h₁.steady (.refl h₁.steady)).under fun h => (hheld h).right).bind
      fun i s₂ h₂ => ?_
    exact replace_meets (h₁.trans h₂) (by omega) fun s₃ h₃ => .pure h₃
  | classRef name => exact .unsupported fun _ => rfl

theorem loadAll_meets (ops : List Operand) (hs : s.stack.depth ≤ s.stack.peak) :
    Meets (loadAll φ ops) s (Held φ (ops.flatMap Operand.parts))
      fun _ s' => Grown s ops.length (stackUseAll ops) s' := by
  induction ops generalizing s with
  | nil => exact .pure (.refl hs)
  | cons op rest ih =>
    rw [List.flatMap_cons]
    refine ((load_meets op hs).under Held.left).bind fun first s₁ h₁ => ?_
    refine ((ih h₁.steady).under Held.right).bind fun more s₂ h₂ => .pure ?_
    refine (h₁.trans h₂).of_eq ?_ rfl
    rw [List.length_cons]
    omega

/-- Two operands, the second above the first. -/
theorem loadTwo_meets {α : Type} {f : List Line → List Line → EmitM α} {fit : Prop}
    {post : α → EmitState → Prop} (a b : Operand) (hs : s.stack.depth ≤ s.stack.peak)
    (hfit : fit → Held φ (a.parts ++ b.parts))
    (hf : ∀ l r s', Grown s 2 (max a.stackUse (1 + b.stackUse)) s' → Meets (f l r) s' fit post) :
    Meets (do let l ← load φ a; let r ← load φ b; f l r) s fit post := by
  refine ((load_meets a hs).under fun h => (hfit h).left).bind fun l s₁ h₁ => ?_
  refine ((load_meets b h₁.steady).under fun h => (hfit h).right).bind
    fun r s₂ h₂ => ?_
  exact hf l r s₂ (h₁.trans h₂)

end Operands

/-! ### Calls -/

theorem typeDescriptor_error {imports : List String} {ty : Ty} {e : Error}
    (h : typeDescriptor imports ty = .error e) : ∃ name, e = .unmappedType name := by
  have hclass {cls : String} (hcls : classDescriptor imports cls = .error e) :
      ∃ name, e = .unmappedType name := by
    unfold classDescriptor at hcls
    split at hcls
    · exact ⟨cls, by simpa using hcls.symm⟩
    · simp at hcls
  induction ty with
  | int | bool | str | void => simp [typeDescriptor] at h
  | array elem ih =>
    unfold typeDescriptor at h
    split at h
    · exact ⟨_, by simpa using h.symm⟩
    · rcases bind_eq_error.mp h with helem | ⟨_, _, h⟩
      · exact ih helem
      · exact absurd h pure_ne_error
  | object cls | classRef cls | self cls => exact hclass h

theorem methodDescriptor_error {imports : List String} {params : List Ty} {result : Ty} {e : Error}
    (h : methodDescriptor imports params result = .error e) : ∃ name, e = .unmappedType name := by
  unfold methodDescriptor at h
  rcases bind_eq_error.mp h with hparams | ⟨_, _, h⟩
  · obtain ⟨ty, _, hty⟩ := error_of_mapM hparams
    exact typeDescriptor_error hty
  · rcases bind_eq_error.mp h with hresult | ⟨_, _, h⟩
    · exact typeDescriptor_error hresult
    · exact absurd h pure_ne_error

section Calls

variable {φ : Frame} {s s₁ : EmitState} {fit : Prop} {kept used : Nat}

theorem descriptor_meets {params : List Ty} {result : Ty} (h : Grown s kept used s₁) :
    Meets (liftM (methodDescriptor φ.cls.imports params result) : EmitM String) s₁ fit
      fun _ s' => Grown s kept used s' := by
  refine Meets.lift (fun _ _ => h) ?_
  intro e he
  obtain ⟨name, rfl⟩ := methodDescriptor_error he
  exact ⟨rfl, fun _ => rfl⟩

theorem ownerOf_meets {op : Operand} (h : Grown s kept used s₁) :
    Meets (liftM (φ.ownerOf op) : EmitM String) s₁ fit fun _ s' => Grown s kept used s' := by
  refine Meets.lift (fun _ _ => h) ?_
  intro e he
  unfold Frame.ownerOf at he
  split at he
  · simp at he
  · simp at he
  · simp at he
  · obtain rfl := Except.error.inj he
    exact ⟨rfl, fun _ => rfl⟩

/-- What the receiver of a call takes of the stack. Static calls have none. -/
def receiverUse (invocation : Invocation) (target : Operand) : Nat :=
  if invocation = .static then 0 else target.stackUse

theorem callTarget_meets {invocation : Invocation} {d : Dispatch}
    (hd : dispatch? invocation = some d) (target : Operand) (name : Option String) (result : Ty)
    (hs : s.stack.depth ≤ s.stack.peak) :
    Meets (callTarget φ invocation target result) s
      (Instr.isCall invocation target name = true ∧ Held φ target.parts) fun r s' =>
        r.2.2.2 = resultType d result ∧
          Grown s (if invocation = .static then 0 else 1) (receiverUse invocation target) s' := by
  cases invocation with
  | static =>
    obtain rfl : Dispatch.static = d := by simpa [dispatch?] using hd
    cases target with
    | classRef cls => exact .pure ⟨rfl, .refl hs⟩
    | lit | var | param | elem | self =>
      refine .unsupported fun hfit => ?_
      simp [Instr.isCall, Operand.isClass] at hfit
  | virtual =>
    obtain rfl : Dispatch.virtual = d := by simpa [dispatch?] using hd
    refine ((load_meets target hs).under And.right).bind fun lines s₁ h₁ => ?_
    exact (ownerOf_meets h₁).bind fun owner s₂ h₂ => .pure ⟨rfl, h₂⟩
  | special =>
    obtain rfl : Dispatch.special = d := by simpa [dispatch?] using hd
    refine ((load_meets target hs).under And.right).bind fun lines s₁ h₁ => ?_
    cases target with
    | self cls => exact .pure ⟨rfl, h₁⟩
    | lit | var | param | elem | classRef =>
      exact (ownerOf_meets h₁).bind fun owner s₂ h₂ => .pure ⟨rfl, h₂⟩
  | new | arrayLength => simp [dispatch?] at hd

theorem callStackUse_named {invocation : Invocation} {d : Dispatch}
    (hd : dispatch? invocation = some d) (target : Operand) (args : List Operand) (result : Ty) :
    max (receiverUse invocation target)
        (max ((if invocation = .static then 0 else 1) + stackUseAll args)
          (if resultType d result = .void then 0 else 1)) =
      Instr.callStackUse invocation target args result := by
  have hone := target.one_le_stackUse
  cases invocation with
  | static =>
    obtain rfl : Dispatch.static = d := by simpa [dispatch?] using hd
    simp [receiverUse, Instr.callStackUse, resultType]
  | virtual =>
    simp only [receiverUse, Instr.callStackUse, reduceCtorEq, if_false]
    split <;> omega
  | special =>
    simp only [receiverUse, Instr.callStackUse, reduceCtorEq, if_false]
    split <;> omega
  | new | arrayLength => simp [dispatch?] at hd

theorem namedCall_meets {invocation : Invocation} {d : Dispatch}
    (hd : dispatch? invocation = some d) (target : Operand) (name : String) (args : List Operand)
    (result : Ty) (hs : s.stack.depth ≤ s.stack.peak) :
    Meets (namedCall φ invocation target name args result) s
      (Instr.isCall invocation target (some name) = true ∧
        Held φ (target.parts ++ args.flatMap Operand.parts))
      fun r s' =>
        Grown s (if r.2 then 1 else 0) (Instr.callStackUse invocation target args result) s' := by
  have huse := callStackUse_named hd target args result
  refine ((callTarget_meets hd target (some name) result hs).under
    fun h => ⟨h.1, h.2.left⟩).bind ?_
  rintro ⟨receiver, dispatch, owner, ret⟩ s₁ ⟨rfl, h₁⟩
  refine ((loadAll_meets args h₁.steady).under fun h => h.2.right).bind
    fun values s₂ h₂ => ?_
  refine (descriptor_meets (h₁.trans h₂)).bind fun descriptor s₃ h₃ => ?_
  refine (pop_meets 0 h₃ (by omega)).bind fun _ s₄ h₄ => ?_
  by_cases hvoid : resultType d result = .void
  · simp only [hvoid, if_true] at huse ⊢
    refine .pure (h₄.of_eq rfl ?_)
    omega
  · simp only [hvoid, if_false] at huse ⊢
    refine (push_meets h₄).bind fun _ s₅ h₅ => .pure (h₅.of_eq rfl ?_)
    omega

theorem allocation_meets (target : Operand) (args : List Operand) (result : Ty)
    (hs : s.stack.depth ≤ s.stack.peak) :
    Meets (allocation φ target args) s
      (target.isClass = true ∧ Held φ (target.parts ++ args.flatMap Operand.parts))
      fun _ s' => Grown s 1 (Instr.callStackUse .new target args result) s' := by
  cases target with
  | classRef name =>
    unfold allocation
    by_cases hname : name = "array"
    · subst hname
      cases args with
      | nil => exact .unsupported fun _ => rfl
      | cons size rest =>
        have hone := size.one_le_stackUse
        refine ((load_meets size hs).under fun h => h.2.right.left).bind
          fun n s₁ h₁ => ?_
        exact replace_meets h₁ hone fun s₂ h₂ => .pure h₂
    · simp only [if_neg hname]
      refine (push_meets (.refl hs)).bind fun _ s₁ h₁ => .pure (h₁.of_eq rfl ?_)
      simp [Instr.callStackUse, hname]
  | lit | var | param | elem | self =>
    refine .unsupported fun hfit => ?_
    simp [Operand.isClass] at hfit

theorem call_meets (invocation : Invocation) (target : Operand) (method : Option String)
    (args : List Operand) (result : Ty) (hs : s.stack.depth ≤ s.stack.peak) :
    Meets (call φ invocation target method args result) s
      (Instr.isCall invocation target method = true ∧
        Held φ (target.parts ++ args.flatMap Operand.parts))
      fun r s' =>
        Grown s (if r.2 then 1 else 0) (Instr.callStackUse invocation target args result) s' := by
  unfold call
  cases invocation with
  | new => exact (allocation_meets target args result hs).bind fun lines s₁ h₁ => .pure h₁
  | arrayLength =>
    have hone := target.one_le_stackUse
    refine ((load_meets target hs).under fun h => h.2.left).bind fun a s₁ h₁ => ?_
    exact replace_meets h₁ hone fun s₂ h₂ => .pure h₂
  | static | virtual | special =>
    cases method with
    | some name => exact namedCall_meets rfl target name args result hs
    | none =>
      refine .unsupported fun hfit => ?_
      simp [Instr.isCall] at hfit

end Calls

/-! ### Values and instructions -/

section Instructions

variable {φ : Frame} {s s₁ : EmitState} {fit : Prop} {kept used : Nat}

theorem fieldRef_meets {field : Operand} (h : Grown s kept used s₁)
    (hfit : fit → field.isVar = true) :
    Meets (liftM (φ.fieldRef field) : EmitM FieldRef) s₁ fit fun _ s' => Grown s kept used s' := by
  refine Meets.lift (fun _ _ => h) ?_
  intro e he
  cases field with
  | var name ty =>
    unfold Frame.fieldRef at he
    rcases bind_eq_error.mp he with hty | ⟨_, _, he⟩
    · obtain ⟨name, rfl⟩ := typeDescriptor_error hty
      exact ⟨rfl, fun _ => rfl⟩
    · exact absurd he pure_ne_error
  | lit | param | elem | self | classRef =>
    obtain rfl := Except.error.inj he
    refine ⟨rfl, fun hf => ?_⟩
    have := hfit hf
    simp [Operand.isVar] at this

theorem binary_meets (op : BinOp) (lhs rhs : Operand) (hs : s.stack.depth ≤ s.stack.peak) :
    Meets (binary φ op lhs rhs) s (Held φ (lhs.parts ++ rhs.parts))
      fun _ s' => Grown s 1 (max lhs.stackUse (1 + rhs.stackUse)) s' := by
  have hone := lhs.one_le_stackUse
  refine loadTwo_meets lhs rhs hs id fun l r s₁ h₁ => ?_
  cases Arith.of? op with
  | some a => exact replace_meets h₁ (by omega) fun s₂ h₂ => .pure h₂
  | none =>
    refine (inventLabel_meets h₁).bind fun yes s₂ h₂ => ?_
    refine (inventLabel_meets h₂).bind fun done s₃ h₃ => ?_
    exact replace_meets h₃ (by omega) fun s₄ h₄ => .pure h₄

theorem value_meets (i : Instr) (hs : s.stack.depth ≤ s.stack.peak) :
    Meets (value φ i) s (i.isValue = true ∧ Held φ i.operands)
      fun _ s' => Grown s 1 i.valueStackUse s' := by
  cases i with
  | single op => exact (load_meets op hs).under And.right
  | binary op lhs rhs => exact (binary_meets op lhs rhs hs).under And.right
  | not op =>
    refine ((load_meets op hs).under And.right).bind fun lines s₁ h₁ => ?_
    refine (push_meets h₁).bind fun _ s₂ h₂ => ?_
    exact (pop_meets 1 h₂ rfl).bind fun _ s₃ h₃ => .pure h₃
  | getField object field =>
    have hone := object.one_le_stackUse
    refine ((load_meets object hs).under And.right).bind fun lines s₁ h₁ => ?_
    refine (fieldRef_meets h₁ And.left).bind fun ref s₂ h₂ => ?_
    exact replace_meets h₂ hone fun s₃ h₃ => .pure h₃
  | call invocation target method args result =>
    refine (call_meets invocation target method args result hs).bind ?_
    rintro ⟨lines, hasValue⟩ s₁ h₁
    cases hasValue with
    | true => exact .pure h₁
    | false => exact .unsupported fun _ => rfl
  | assign | ret | goto | branch | putField | nop =>
    refine .unsupported fun hfit => ?_
    simp [Instr.isValue] at hfit

theorem assign_meets (dest : Operand) (ty : Ty) (rhs : Instr) (hs : s.stack.depth ≤ s.stack.peak) :
    Meets (assign φ dest rhs) s
      (dest.isAssignable = true ∧ rhs.isValue = true ∧ Held φ (dest.parts ++ rhs.operands))
      fun _ s' => Grown s 0 (Instr.assign dest ty rhs).stackUse s' := by
  cases dest with
  | elem array index elemTy =>
    have hheld (h : Held φ ((Operand.elem array index elemTy).parts ++ rhs.operands)) :
        Held φ (array.parts ++ index.parts) :=
      fun op hop => h.left op (List.mem_cons_of_mem _ hop)
    refine loadTwo_meets array index hs (fun h => hheld h.2.2) fun a i s₁ h₁ => ?_
    refine ((value_meets rhs h₁.steady).under fun h => ⟨h.2.1, h.2.2.right⟩).bind
      fun v s₂ h₂ => ?_
    exact (pop_meets 0 (h₁.trans h₂) rfl).bind fun _ s₃ h₃ => .pure h₃
  | var name varTy | param position name varTy =>
    refine ((value_meets rhs hs).under fun h => ⟨h.2.1, h.2.2.right⟩).bind
      fun v s₁ h₁ => ?_
    refine Meets.bind ?_ fun lines s₂ h₂ => .pure h₂
    refine (slotOf_meets rfl (fun h => h.2.2.left) fun _ => h₁).bind fun slot s₂ h₂ => ?_
    exact (pop_meets 0 h₂ rfl).bind fun _ s₃ h₃ => .pure h₃
  | lit | self | classRef =>
    refine .unsupported fun hfit => ?_
    simp [Operand.isAssignable] at hfit

theorem branch_meets (cond : Instr) (label : String) (hs : s.stack.depth ≤ s.stack.peak) :
    Meets (branch φ cond label) s (cond.isValue = true ∧ Held φ cond.operands)
      fun _ s' => Grown s 0 (Instr.branch cond label).stackUse s' := by
  have hvalue : Meets (do
      let lines ← value φ cond
      pop φ 1
      return lines ++ [.op (.ifNonzero label)] : EmitM (List Line)) s
      (cond.isValue = true ∧ Held φ cond.operands) fun _ s' => Grown s 0 cond.valueStackUse s' := by
    refine (value_meets cond hs).bind fun lines s₁ h₁ => ?_
    exact (pop_meets 0 h₁ rfl).bind fun _ s₂ h₂ => .pure h₂
  unfold branch
  cases cond with
  | binary op lhs rhs =>
    cases hop : Comparison.of? op with
    | none =>
      simp only [hop]
      exact hvalue
    | some cmp =>
      simp only [hop]
      refine loadTwo_meets lhs rhs hs And.right fun l r s₁ h₁ => ?_
      exact (pop_meets 0 h₁ rfl).bind fun _ s₂ h₂ => .pure h₂
  | not op =>
    refine ((load_meets op hs).under And.right).bind fun lines s₁ h₁ => ?_
    exact (pop_meets 0 h₁ rfl).bind fun _ s₂ h₂ => .pure h₂
  | assign | call | ret | goto | branch | getField | putField | single | nop => exact hvalue

theorem discarded_meets {lines : List Line} (h : Grown s 1 used s₁) :
    Meets (discarded φ lines) s₁ fit fun _ s' => Grown s 0 used s' :=
  (pop_meets 0 h rfl).bind fun _ _ h₂ => .pure h₂

/-- An instruction leaves the stack as it found it. -/
theorem instruction_meets (i : Instr) (hs : s.stack.depth ≤ s.stack.peak) :
    Meets (instruction φ i) s (i.isShaped = true ∧ Held φ i.operands)
      fun _ s' => Grown s 0 i.stackUse s' := by
  cases i with
  | assign dest ty rhs =>
    refine (assign_meets dest ty rhs hs).under ?_
    rintro ⟨hshape, hheld⟩
    obtain ⟨hdest, hrhs⟩ := Bool.and_eq_true_iff.mp hshape
    exact ⟨hdest, hrhs, hheld⟩
  | call invocation target method args result =>
    refine (call_meets invocation target method args result hs).bind ?_
    rintro ⟨lines, hasValue⟩ s₁ h₁
    cases hasValue with
    | true => exact discarded_meets h₁
    | false => exact .pure h₁
  | ret value =>
    cases value with
    | none => exact .pure (.refl hs)
    | some op =>
      refine ((load_meets op hs).under And.right).bind fun lines s₁ h₁ => ?_
      exact (pop_meets 0 h₁ rfl).bind fun _ s₂ h₂ => .pure h₂
  | goto label => exact .pure (.refl hs)
  | branch cond label => exact branch_meets cond label hs
  | putField object field value =>
    refine loadTwo_meets object value hs And.right fun o x s₁ h₁ => ?_
    refine (fieldRef_meets h₁ And.left).bind fun ref s₂ h₂ => ?_
    exact (pop_meets 0 h₂ rfl).bind fun _ s₃ h₃ => .pure h₃
  | nop => exact .pure (.refl hs)
  | binary | not | getField | single =>
    exact (value_meets _ hs).bind fun lines s₁ h₁ => discarded_meets h₁

end Instructions

/-! ### Methods -/

def stackUseOf (steps : List Flat.Step) : Nat :=
  (steps.map fun s => s.instr.stackUse).foldr max 0

theorem stepLines_meets {φ : Frame} (steps : List Flat.Step) {s : EmitState}
    (hs : s.stack.depth ≤ s.stack.peak) :
    Meets (stepLines φ steps) s
      (∀ step ∈ steps, step.instr.isShaped = true ∧ Held φ step.instr.operands)
      fun _ s' => Grown s 0 (stackUseOf steps) s' := by
  induction steps generalizing s with
  | nil => exact .pure (.refl hs)
  | cons step rest ih =>
    refine ((instruction_meets step.instr hs).under fun h => h step (List.mem_cons_self ..)).bind
      fun lines s₁ h₁ => ?_
    refine ((ih h₁.steady).under fun h step' hmem => h step' (List.mem_cons_of_mem _ hmem)).bind
      fun more s₂ h₂ => .pure ?_
    refine (h₁.trans h₂).of_eq rfl ?_
    simp only [stackUseOf, List.map_cons, List.foldr_cons]
    omega

theorem emit_error {cls : Flat.Class} {m : Flat.Method} {slots : SlotTable} {e : Error}
    (h : Method.emit cls m slots = .error e) :
    e.isUnsupported = true ∧
      ((∀ step ∈ m.steps, step.instr.isShaped = true ∧ Held ⟨cls, m, slots⟩ step.instr.operands) →
        e.isInternal = false) := by
  unfold Method.emit at h
  rcases bind_eq_error.mp h with hlines | ⟨_, _, h⟩
  · exact (stepLines_meets m.steps (Nat.le_refl 0)).error hlines
  · rcases bind_eq_error.mp h with hdescriptor | ⟨_, _, h⟩
    · obtain ⟨name, rfl⟩ := methodDescriptor_error hdescriptor
      exact ⟨rfl, fun _ => rfl⟩
    · exact absurd h pure_ne_error

/-- The stack limit is the greatest stack use of an instruction. -/
theorem stackLimit_emit {cls : Flat.Class} {m : Flat.Method} {slots : SlotTable} {out : Method}
    (h : Method.emit cls m slots = .ok out) : out.stackLimit = stackUseOf m.steps := by
  unfold Method.emit at h
  obtain ⟨⟨lines, σ⟩, hlines, h⟩ := bind_eq_ok.mp h
  obtain ⟨descriptor, _, h⟩ := bind_eq_ok.mp h
  obtain rfl := pure_eq_ok.mp h
  have hgrown := (stepLines_meets m.steps (Nat.le_refl 0)).ok hlines
  have hpeak : σ.stack.peak = max 0 (0 + stackUseOf m.steps) := hgrown.peak
  change σ.stack.peak = stackUseOf m.steps
  omega

end JavaMinus.Assembly
