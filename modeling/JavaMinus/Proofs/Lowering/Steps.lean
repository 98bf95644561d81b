import JavaMinus.Proofs.Assembly.Outcomes
import JavaMinus.Proofs.Lowering.Derivation

/-!
# What lowering is put together from

Lowering expressions and statements looks names and types up, draws temporaries and label numbers, and
does nothing else: every step is one of these or a sequence of them. What a look-up finds missing is
to be blamed on the tree or its symbols. Facts about all steps, the failing ones too, need to be
checked for the parts only.
-/

namespace JavaMinus

open JavaMinus.Flat (bind_eq_error error_of_mapM)

/-- The result is no failure, or one with an external cause. -/
def External {α : Type} (r : Except Error α) : Prop :=
  ∀ e, r = .error e → e.isInternal = false

namespace External

variable {α β : Type}

theorem ok (a : α) : External (.ok a) := by
  intro e h
  cases h

theorem pure (a : α) : External (pure a) :=
  ok a

theorem error {e : Error} (h : e.isInternal = false) : External (.error e : Except Error α) := by
  intro e' he
  cases he
  exact h

theorem bind {x : Except Error α} {g : α → Except Error β} (hx : External x)
    (hg : ∀ a, x = .ok a → External (g a)) : External (x >>= g) := by
  intro e he
  rcases bind_eq_error.mp he with hfail | ⟨a, ha, hfail⟩
  · exact hx e hfail
  · exact hg a ha e hfail

theorem throw_bind {e : Error} {g : α → Except Error β} (h : e.isInternal = false) :
    External (throw e >>= g) :=
  error h

theorem map {x : Except Error α} {g : α → β} (hx : External x) : External (g <$> x) := by
  rw [map_eq_pure_bind]
  exact hx.bind fun _ _ => .pure _

theorem mapM {g : α → Except Error β} {as : List α} (h : ∀ a ∈ as, External (g a)) :
    External (as.mapM g) := by
  intro e he
  obtain ⟨a, hmem, ha⟩ := error_of_mapM he
  exact h a hmem e ha

end External

end JavaMinus

namespace JavaMinus.Lowering

open JavaMinus.Source (Expr Stmt TypeName)
open JavaMinus.Flat (Ty Operand Code)

/-! ### Names and types -/

section Names

variable {σ : Scope}

theorem typeOf_external (t : TypeName) : External (σ.typeOf t) := by
  unfold Scope.typeOf
  simp only
  split
  · exact .ok _
  · exact .ok _
  · exact .ok _
  · exact .error rfl

theorem objectType_external (cls : String) : External (σ.objectType cls) := by
  unfold Scope.objectType
  split
  · exact .ok _
  · exact .error rfl

theorem slotOperand?_external (name : String) : External (σ.slotOperand? name) := by
  unfold Scope.slotOperand?
  split
  · exact .ok _
  · refine (typeOf_external _).bind fun ty _ => ?_
    split <;> exact .pure _

theorem fieldOperand?_external (name : String) : External (σ.fieldOperand? name) := by
  unfold Scope.fieldOperand?
  split
  · split
    · exact .error rfl
    · exact (typeOf_external _).bind fun ty _ => .pure _
  · exact .ok _

theorem requireSlot_external (kind : String) (op : Operand) : External (requireSlot kind op) := by
  unfold requireSlot
  split
  · exact .ok _
  · exact .ok _
  · exact .error rfl

theorem elementType_external (op : Operand) : External (elementType op) := by
  unfold elementType
  split
  · exact .ok _
  · exact .error rfl

theorem argHint_external (params : List TypeName) : External (argHint σ params) := by
  unfold argHint
  split
  · exact (typeOf_external _).map
  · exact .ok _

end Names

/-! ### Steps -/

/-- A step made of look-ups that fail for external causes only, and of draws. -/
inductive Built (σ : Scope) : {α : Type} → LowerM α → Prop
  | lift {α : Type} {r : Except Error α} : External r → Built σ (liftM r)
  | freshTemp (ty : Ty) : Built σ (freshTemp σ ty)
  | freshLabel : Built σ freshLabel
  | bind {α β : Type} {x : LowerM α} {g : α → LowerM β} : Built σ x → (∀ a, Built σ (g a)) →
      Built σ (x >>= g)

namespace Built

variable {σ : Scope} {α β : Type} {x y : LowerM α}

theorem pure (a : α) : Built σ (pure a : LowerM α) :=
  .lift (.ok a)

theorem throw {e : Error} (h : e.isInternal = false) : Built σ (throw e : LowerM α) :=
  .lift (.error h)

theorem ite {c : Prop} [Decidable c] (hx : Built σ x) (hy : Built σ y) :
    Built σ (if c then x else y) := by
  split
  · exact hx
  · exact hy

theorem map {g : α → β} (hx : Built σ x) : Built σ (g <$> x) := by
  rw [map_eq_pure_bind]
  exact hx.bind fun _ => .pure _

end Built

/-! ### Expressions -/

section Expressions

variable {σ : Scope}

theorem lowerName_built (name : String) : Built σ (lowerName σ name) := by
  refine (Built.lift (slotOperand?_external name)).bind fun slot => ?_
  cases slot with
  | some op => exact .pure _
  | none =>
    refine (Built.lift (fieldOperand?_external name)).bind fun field => ?_
    cases field with
    | some field => exact (Built.freshTemp _).bind fun _ => .pure _
    | none => exact .ite (.pure _) (.throw rfl)

theorem indexOperand_built (idx : Lowered) : Built σ (indexOperand σ idx) :=
  .ite ((Built.freshTemp _).bind fun _ => .pure _) (.pure _)

theorem receiverOf_built {method : String} {e : Expr} {lowered : LowerM Lowered}
    (h : Built σ lowered) : Built σ (receiverOf σ method e lowered) := by
  unfold receiverOf
  extract_lets byValue
  have hvalue : Built σ byValue := by
    refine h.bind fun r => ?_
    split
    · exact .throw rfl
    · exact .throw rfl
    · exact .pure _
  split
  · exact .pure _
  · exact .ite (.pure _) hvalue
  · exact hvalue

theorem callWith_built {method : String} {receiver : LowerM Receiver}
    {args : List TypeName → LowerM (Code × List Operand)} {usage : CallUse}
    (hreceiver : Built σ receiver) (hargs : ∀ params, Built σ (args params)) :
    Built σ (callWith σ method receiver args usage) := by
  refine hreceiver.bind fun r => (hargs _).bind fun ⟨argCode, operands⟩ => ?_
  simp only
  split
  · exact (Built.lift (typeOf_external _)).map.bind fun _ => .pure _
  · exact (Built.pure _).bind fun _ => .pure _

mutual

theorem lowerExpr_built (σ : Scope) :
    ∀ (e : Expr) (hint : Option Ty), Built σ (lowerExpr σ e hint)
  | .intLit .., _ | .boolLit .., _ | .self _, _ => .pure _
  | .ident _ name, _ => by
    rw [lowerExpr]
    exact lowerName_built name
  | .paren _ e, hint => by
    rw [lowerExpr]
    exact lowerExpr_built σ e hint
  | .not _ e, _ => by
    rw [lowerExpr]
    exact (lowerExpr_built σ e _).bind fun _ => (Built.freshTemp _).bind fun _ => .pure _
  | .binary _ op lhs rhs, _ => by
    rw [lowerExpr]
    refine .ite ?_ ?_
    · refine Built.freshLabel.bind fun n => (lowerExpr_built σ lhs _).bind fun l => ?_
      refine (Built.freshTemp _).bind fun dest => ?_
      exact (lowerExpr_built σ rhs _).bind fun r => .pure _
    · refine (lowerExpr_built σ lhs _).bind fun l => ?_
      refine (lowerExpr_built σ rhs _).bind fun r => ?_
      exact (Built.freshTemp _).bind fun _ => .pure _
  | .index _ array index, _ => by
    rw [lowerExpr]
    refine (lowerExpr_built σ array _).bind fun arr => ?_
    refine (Built.lift (requireSlot_external _ _)).bind fun _ => ?_
    refine (Built.lift (elementType_external _)).bind fun elem => ?_
    refine (lowerExpr_built σ index _).bind fun idx => (indexOperand_built idx).bind fun _ => ?_
    exact (Built.freshTemp _).bind fun _ => .pure _
  | .length _ array, _ => by
    rw [lowerExpr]
    exact (lowerExpr_built σ array _).bind fun _ => (Built.freshTemp _).bind fun _ => .pure _
  | .call _ receiver method args, hint => by
    rw [lowerExpr]
    have hcall : Built σ (callWith σ method
        (receiverOf σ method receiver (lowerExpr σ receiver none)) (lowerArgs σ args)
        (.value hint)) :=
      callWith_built (receiverOf_built (lowerExpr_built σ receiver none))
        (lowerArgs_built σ args)
    exact hcall.bind fun _ => .ite (.throw rfl) ((Built.freshTemp _).bind fun _ => .pure _)
  | .newArray _ size, _ => by
    rw [lowerExpr]
    exact (lowerExpr_built σ size _).bind fun _ => (Built.freshTemp _).bind fun _ => .pure _
  | .newObject _ cls, _ => by
    rw [lowerExpr]
    refine (Built.lift (objectType_external cls)).bind fun ty => ?_
    exact (Built.freshTemp _).bind fun _ => .pure _

theorem lowerArgs_built (σ : Scope) :
    ∀ (es : List Expr) (params : List TypeName), Built σ (lowerArgs σ es params)
  | [], _ => .pure _
  | e :: rest, params => by
    rw [lowerArgs]
    refine (Built.lift (argHint_external params)).bind fun hint => ?_
    refine (lowerExpr_built σ e hint).bind fun _ => ?_
    exact (lowerArgs_built σ rest _).bind fun _ => .pure _

end

theorem lowerCall_built (receiver : Expr) (method : String) (args : List Expr)
    (usage : CallUse) : Built σ (lowerCall σ receiver method args usage) :=
  callWith_built (receiverOf_built (lowerExpr_built σ receiver none))
    (lowerArgs_built σ args)

theorem lowerCondition_built (cond : Expr) : Built σ (lowerCondition σ cond) := by
  refine (lowerExpr_built σ cond _).bind fun l => ?_
  split
  · exact .ite (.pure _) (.pure _)
  · exact .pure _

end Expressions

/-! ### Statements -/

section Statements

variable {σ : Scope}

theorem lowerExprStmt_built (e : Expr) : Built σ (lowerExprStmt σ e) := by
  unfold lowerExprStmt
  split
  · exact (lowerCall_built _ _ _ _).bind fun _ => .pure _
  · exact (lowerExpr_built σ _ _).bind fun _ => .pure _

theorem assignToSlot_built (dest : Operand) (value : Expr) :
    Built σ (assignToSlot σ dest value) := by
  unfold assignToSlot
  split
  · exact (Built.lift (objectType_external _)).bind fun _ => .pure _
  · exact (lowerCall_built _ _ _ _).bind fun _ => .pure _
  · refine (lowerExpr_built σ _ _).bind fun v => ?_
    split <;> exact .pure _

theorem lowerAssign_built (target : String) (value : Expr) :
    Built σ (lowerAssign σ target value) := by
  refine (Built.lift (slotOperand?_external target)).bind fun slot => ?_
  cases slot with
  | some dest => exact assignToSlot_built dest value
  | none =>
    refine (Built.lift (fieldOperand?_external target)).bind fun field => ?_
    cases field with
    | some field => exact (lowerExpr_built σ _ _).bind fun _ => .pure _
    | none => exact .throw rfl

theorem lowerStore_built (target : String) (index value : Expr) :
    Built σ (lowerStore σ target index value) := by
  refine (lowerName_built target).bind fun arr => ?_
  refine (Built.lift (requireSlot_external _ _)).bind fun _ => ?_
  refine (Built.lift (elementType_external _)).bind fun elem => ?_
  refine (lowerExpr_built σ index _).bind fun idx => (indexOperand_built idx).bind fun _ => ?_
  exact (lowerExpr_built σ value _).bind fun _ => .pure _

theorem lowerReturn_built (value : Option Expr) : Built σ (lowerReturn σ value) := by
  cases value with
  | none => exact .pure _
  | some e => exact (lowerExpr_built σ e _).bind fun _ => .pure _

mutual

theorem lowerStmt_built (σ : Scope) : ∀ s : Stmt, Built σ (lowerStmt σ s)
  | .block _ body => by
    rw [lowerStmt]
    exact lowerStmts_built σ body
  | .expr _ e => by
    rw [lowerStmt]
    exact lowerExprStmt_built e
  | .assign _ target value => by
    rw [lowerStmt]
    exact lowerAssign_built target value
  | .store _ target index value => by
    rw [lowerStmt]
    exact lowerStore_built target index value
  | .ret _ value => by
    rw [lowerStmt]
    exact lowerReturn_built value
  | .branch _ cond s (some other) => by
    rw [lowerStmt]
    refine Built.freshLabel.bind fun n => (lowerCondition_built cond).bind fun test => ?_
    exact (lowerStmt_built σ other).bind fun _ => (lowerStmt_built σ s).bind fun _ => .pure _
  | .branch _ cond s none => by
    rw [lowerStmt]
    refine Built.freshLabel.bind fun n => (lowerCondition_built cond).bind fun test => ?_
    exact (lowerStmt_built σ s).bind fun _ => .pure _
  | .loop _ cond body => by
    rw [lowerStmt]
    refine Built.freshLabel.bind fun n => (lowerCondition_built cond).bind fun test => ?_
    exact (lowerStmt_built σ body).bind fun _ => .pure _

theorem lowerStmts_built (σ : Scope) : ∀ body : List Stmt, Built σ (lowerStmts σ body)
  | [] => .pure _
  | s :: rest => by
    rw [lowerStmts]
    exact (lowerStmt_built σ s).bind fun _ => (lowerStmts_built σ rest).bind fun _ => .pure _

end

end Statements

end JavaMinus.Lowering
