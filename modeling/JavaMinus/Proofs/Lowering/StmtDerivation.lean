import JavaMinus.Proofs.Lowering.Derivation

/-!
# Derivations of statement lowering

The rules for statements. An assignment and a condition look at how the expression in them was
lowered: if its last instruction binds a temporary, that binding is given another destination or
dropped in favour of a direct test.
-/

namespace JavaMinus.Lowering

open JavaMinus.Source (Expr Stmt)
open JavaMinus.Flat (Ty Operand Instr Code)

/-! ### Bindings -/

/-- A fresh result is bound by the last instruction of the code. -/
theorem computed_of_fresh {σ : Scope} {e : Expr} {hint : Option Ty} {l : Lowered} {f f' : Fresh}
    (h : Lowers σ (.expr e hint l) f f') (hl : l.fresh = true) :
    ∃ code dest rhs, l = .computed code dest rhs := by
  generalize hp : Piece.expr e hint l = p at h
  induction h generalizing e hint with
  | paren _ ih =>
    cases hp
    exact ih rfl
  | name h =>
    cases hp
    cases h with
    | slot => simp [Lowered.value] at hl
    | field => exact ⟨_, _, _, rfl⟩
    | cls => simp [Lowered.value] at hl
  | int | bool | self =>
    cases hp
    simp [Lowered.value] at hl
  | logical | newObject =>
    cases hp
    simp at hl
  | not | binary | index | length | callValue | newArray =>
    cases hp
    exact ⟨_, _, _, rfl⟩
  | selfReceiver | classReceiver | valueReceiver | noArgs | arg | call => cases hp

theorem takeBinding?_computed (code : Code) (dest : Operand) (rhs : Instr) :
    (Lowered.computed code dest rhs).takeBinding? =
      some (.assignTo dest rhs, { result := dest, code }) := by
  simp [Lowered.computed, Lowered.takeBinding?, Instr.assignTo]

theorem takeBinding?_of_not_fresh {l : Lowered} (hl : l.fresh = false) : l.takeBinding? = none := by
  simp [Lowered.takeBinding?, hl]

/-! ### Rules -/

/-- `LowersCond σ cond test f f'`: the condition becomes code and an instruction to test. -/
inductive LowersCond (σ : Scope) (cond : Expr) : Code × Instr → Fresh → Fresh → Prop
  | direct {code dest rhs f f'} :
      Lowers σ (.expr cond (some .bool) (.computed code dest rhs)) f f' → isTest rhs = true →
      LowersCond σ cond (code, rhs) f f'
  | value {l f f'} : Lowers σ (.expr cond (some .bool) l) f f' →
      LowersCond σ cond (l.code, .single l.result) f f'

/-- `LowersStmt σ s f code f'`: in scope `σ`, the statement is lowered to this code. -/
inductive LowersStmt (σ : Scope) : Stmt → Fresh → Code → Fresh → Prop
  | done {span f} : LowersStmt σ (.block span []) f [] f
  | seq {span s rest c d f f₁ f'} : LowersStmt σ s f c f₁ →
      LowersStmt σ (.block span rest) f₁ d f' → LowersStmt σ (.block span (s :: rest)) f (c ++ d) f'
  | callStmt {span e span' receiver method es code call f f'} :
      e.unparen = .call span' receiver method es →
      Lowers σ (.call receiver method es .statement code call) f f' →
      LowersStmt σ (.expr span e) f (code ++ [.instr call]) f'
  | exprStmt {span e l f f'} : (∀ span receiver method es, e.unparen ≠ .call span receiver method es) →
      Lowers σ (.expr e.unparen none l) f f' → LowersStmt σ (.expr span e) f l.code f'
  | assignNew {span name e dest span' cls ty f} : σ.slotOperand? name = .ok (some dest) →
      e.unparen = .newObject span' cls → σ.objectType cls = .ok ty →
      LowersStmt σ (.assign span name e) f (constructInto dest cls) f
  | assignCall {span name e dest span' receiver method es code call f f'} :
      σ.slotOperand? name = .ok (some dest) → e.unparen = .call span' receiver method es →
      Lowers σ (.call receiver method es (.assigned dest.ty) code call) f f' →
      LowersStmt σ (.assign span name e) f (code ++ [.instr (.assignTo dest call)]) f'
  | retarget {span name e dest code temp rhs f f'} : σ.slotOperand? name = .ok (some dest) →
      Lowers σ (.expr e (some dest.ty) (.computed code temp rhs)) f f' →
      LowersStmt σ (.assign span name e) f (code ++ [.instr (.assignTo dest rhs)]) f'
  | copy {span name e dest l f f'} : σ.slotOperand? name = .ok (some dest) →
      Lowers σ (.expr e (some dest.ty) l) f f' → l.fresh = false →
      LowersStmt σ (.assign span name e) f
        (l.code ++ [.instr (.assignTo dest (.single l.result))]) f'
  | putField {span name e field l f f'} : σ.slotOperand? name = .ok none →
      σ.fieldOperand? name = .ok (some field) → Lowers σ (.expr e (some field.ty) l) f f' →
      LowersStmt σ (.assign span name e) f
        (l.code ++ [.instr (.putField σ.self field l.result)]) f'
  | store {span name index e arr elem idx i l f f₁ f₂ f₃ f'} : LowersName σ name f arr f₁ →
      requireSlot "ArrayAssign" arr.result = .ok () → elementType arr.result = .ok elem →
      Lowers σ (.expr index (some .int) idx) f₁ f₂ → LowersIndex σ idx f₂ i f₃ →
      Lowers σ (.expr e (some elem) l) f₃ f' →
      LowersStmt σ (.store span name index e) f
        (arr.code ++ i.code ++ l.code ++
          [.instr (.assign (.elem arr.result i.result elem) elem (.single l.result))]) f'
  | ret {span f} : LowersStmt σ (.ret span none) f [.instr (.ret none)] f
  | retValue {span e l f f'} : Lowers σ (.expr e (some σ.returnType) l) f f' →
      LowersStmt σ (.ret span (some e)) f (l.code ++ [.instr (.ret (some l.result))]) f'
  | branch {span cond s other test c d f f₁ f₂ f'} : LowersCond σ cond test f.labelled f₁ →
      LowersStmt σ other f₁ d f₂ → LowersStmt σ s f₂ c f' →
      LowersStmt σ (.branch span cond s (some other)) f (branchCode f.labels test c d) f'
  | oneArmed {span cond s test c f f₁ f'} : LowersCond σ cond test f.labelled f₁ →
      LowersStmt σ s f₁ c f' →
      LowersStmt σ (.branch span cond s none) f (branchCode f.labels test c []) f'
  | loop {span cond body test c f f₁ f'} : LowersCond σ cond test f.labelled f₁ →
      LowersStmt σ body f₁ c f' → LowersStmt σ (.loop span cond body) f (loopCode f.labels test c) f'

/-! ### Every success has a derivation -/

theorem lowersCond_of_yields {σ : Scope} {cond : Expr} {test : Code × Instr} {f f' : Fresh}
    (h : Yields (lowerCondition σ cond) f test f') : LowersCond σ cond test f f' := by
  obtain ⟨l, f₁, hl, h⟩ := yields_bind.mp h
  have hlow := lowers_of_yields σ cond _ f l f₁ hl
  cases hfresh : l.fresh with
  | false =>
    rw [takeBinding?_of_not_fresh hfresh] at h
    obtain ⟨rfl, rfl⟩ := yields_pure.mp h
    exact .value hlow
  | true =>
    obtain ⟨code, dest, rhs, rfl⟩ := computed_of_fresh hlow hfresh
    rw [takeBinding?_computed] at h
    rcases yields_ite.mp h with ⟨htest, h⟩ | ⟨_, h⟩
    · obtain ⟨rfl, rfl⟩ := yields_pure.mp h
      exact .direct hlow htest
    · obtain ⟨rfl, rfl⟩ := yields_pure.mp h
      exact .value hlow

theorem lowersCall_of_lowerCall {σ : Scope} {e : Expr} {method : String} {es : List Expr}
    {usage : CallUse} {f f' : Fresh} {code : Code} {call : Instr}
    (h : Yields (lowerCall σ e method es usage) f (code, call) f') :
    Lowers σ (.call e method es usage code call) f f' :=
  lowersCall_of_yields (lowers_of_yields σ e none)
    (fun params f code operands f' => lowersArgs_of_yields σ es params f code operands f') h

theorem lowersExprStmt_of_yields {σ : Scope} {span : Source.Span} {e : Expr} {f f' : Fresh}
    {code : Code} (h : Yields (lowerExprStmt σ e) f code f') :
    LowersStmt σ (.expr span e) f code f' := by
  unfold lowerExprStmt at h
  cases hu : e.unparen with
  | call span' receiver method es =>
    rw [hu] at h
    simp only [yields_bind, yields_pure] at h
    obtain ⟨⟨c, call⟩, f₁, hcall, rfl, rfl⟩ := h
    exact .callStmt hu (lowersCall_of_lowerCall hcall)
  | intLit | boolLit | ident | self | paren | not | binary | index | length | newArray | newObject =>
    rw [hu] at h
    simp only [yields_bind, yields_pure] at h
    obtain ⟨l, f₁, hl, rfl, rfl⟩ := h
    exact .exprStmt (by simp [hu]) (hu ▸ lowers_of_yields σ _ _ _ l _ hl)

theorem lowersValue_of_yields {σ : Scope} {span : Source.Span} {name : String} {e : Expr}
    {dest : Operand} {f f' : Fresh} {code : Code} (hdest : σ.slotOperand? name = .ok (some dest))
    (h : Yields (do
      let v ← lowerExpr σ e (some dest.ty)
      match v.takeBinding? with
      | some (binding, rest) => return rest.code ++ [.instr ((binding.retarget? dest).getD binding)]
      | none => return v.code ++ [.instr (.assignTo dest (.single v.result))]) f code f') :
    LowersStmt σ (.assign span name e) f code f' := by
  obtain ⟨l, f₁, hl, h⟩ := yields_bind.mp h
  have hlow := lowers_of_yields σ e _ f l f₁ hl
  cases hfresh : l.fresh with
  | false =>
    rw [takeBinding?_of_not_fresh hfresh] at h
    obtain ⟨rfl, rfl⟩ := yields_pure.mp h
    exact .copy hdest hlow hfresh
  | true =>
    obtain ⟨c, temp, rhs, rfl⟩ := computed_of_fresh hlow hfresh
    rw [takeBinding?_computed] at h
    obtain ⟨rfl, rfl⟩ := yields_pure.mp h
    exact .retarget hdest hlow

theorem lowersSlot_of_yields {σ : Scope} {span : Source.Span} {name : String} {e : Expr}
    {dest : Operand} {f f' : Fresh} {code : Code} (hdest : σ.slotOperand? name = .ok (some dest))
    (h : Yields (assignToSlot σ dest e) f code f') : LowersStmt σ (.assign span name e) f code f' := by
  unfold assignToSlot at h
  cases hu : e.unparen with
  | newObject span' cls =>
    rw [hu] at h
    simp only [yields_bind, yields_lift, yields_pure] at h
    obtain ⟨ty, f₁, ⟨hty, rfl⟩, rfl, rfl⟩ := h
    exact .assignNew hdest hu hty
  | call span' receiver method es =>
    rw [hu] at h
    simp only [yields_bind, yields_pure] at h
    obtain ⟨⟨c, call⟩, f₁, hcall, rfl, rfl⟩ := h
    exact .assignCall hdest hu (lowersCall_of_lowerCall hcall)
  | intLit | boolLit | ident | self | paren | not | binary | index | length | newArray =>
    rw [hu] at h
    exact lowersValue_of_yields hdest h

theorem lowersAssign_of_yields {σ : Scope} {span : Source.Span} {name : String} {e : Expr}
    {f f' : Fresh} {code : Code} (h : Yields (lowerAssign σ name e) f code f') :
    LowersStmt σ (.assign span name e) f code f' := by
  simp only [lowerAssign, yields_bind, yields_lift] at h
  obtain ⟨slot, f₁, ⟨hslot, rfl⟩, h⟩ := h
  cases slot with
  | some dest => exact lowersSlot_of_yields hslot h
  | none =>
    simp only [yields_bind, yields_lift] at h
    obtain ⟨field, f₂, ⟨hfield, rfl⟩, h⟩ := h
    cases field with
    | some field =>
      simp only [yields_bind, yields_pure] at h
      obtain ⟨l, f₃, hl, rfl, rfl⟩ := h
      exact .putField hslot hfield (lowers_of_yields σ e _ _ l _ hl)
    | none => exact absurd h yields_throw

theorem lowersStore_of_yields {σ : Scope} {span : Source.Span} {name : String} {index e : Expr}
    {f f' : Fresh} {code : Code} (h : Yields (lowerStore σ name index e) f code f') :
    LowersStmt σ (.store span name index e) f code f' := by
  simp only [lowerStore, yields_bind, yields_lift, yields_pure] at h
  obtain ⟨arr, f₁, harr, ⟨⟩, f₂, ⟨hslot, rfl⟩, elem, f₃, ⟨helem, rfl⟩, idx, f₄, hidx, i, f₅, hi,
    l, f₆, hl, rfl, rfl⟩ := h
  exact .store (lowersName_of_yields harr) hslot helem (lowers_of_yields σ index _ _ idx f₄ hidx)
    (lowersIndex_of_yields hi) (lowers_of_yields σ e _ _ l _ hl)

mutual

theorem lowersStmt_of_yields (σ : Scope) :
    ∀ (s : Stmt) (f : Fresh) (code : Code) (f' : Fresh), Yields (lowerStmt σ s) f code f' →
      LowersStmt σ s f code f'
  | .block span body, f, code, f', h => by
    rw [lowerStmt] at h
    exact lowersStmts_of_yields σ body span f code f' h
  | .expr .., _, _, _, h => by
    rw [lowerStmt] at h
    exact lowersExprStmt_of_yields h
  | .assign .., _, _, _, h => by
    rw [lowerStmt] at h
    exact lowersAssign_of_yields h
  | .store .., _, _, _, h => by
    rw [lowerStmt] at h
    exact lowersStore_of_yields h
  | .ret _ none, _, _, _, h => by
    obtain ⟨rfl, rfl⟩ := yields_pure.mp h
    exact .ret
  | .ret _ (some e), f, _, _, h => by
    simp only [lowerStmt, lowerReturn, yields_bind, yields_pure] at h
    obtain ⟨l, f₁, hl, rfl, rfl⟩ := h
    exact .retValue (lowers_of_yields σ e _ _ l _ hl)
  | .branch _ cond s (some other), f, _, _, h => by
    simp only [lowerStmt, yields_bind, yields_freshLabel, yields_pure] at h
    obtain ⟨n, f₁, ⟨rfl, rfl⟩, test, f₂, htest, d, f₃, hd, c, f₄, hc, rfl, rfl⟩ := h
    exact .branch (lowersCond_of_yields htest) (lowersStmt_of_yields σ other f₂ d f₃ hd)
      (lowersStmt_of_yields σ s f₃ c _ hc)
  | .branch _ cond s none, f, _, _, h => by
    simp only [lowerStmt, yields_bind, yields_freshLabel, yields_pure] at h
    obtain ⟨n, f₁, ⟨rfl, rfl⟩, test, f₂, htest, c, f₃, hc, rfl, rfl⟩ := h
    exact .oneArmed (lowersCond_of_yields htest) (lowersStmt_of_yields σ s f₂ c _ hc)
  | .loop _ cond body, f, _, _, h => by
    simp only [lowerStmt, yields_bind, yields_freshLabel, yields_pure] at h
    obtain ⟨n, f₁, ⟨rfl, rfl⟩, test, f₂, htest, c, f₃, hc, rfl, rfl⟩ := h
    exact .loop (lowersCond_of_yields htest) (lowersStmt_of_yields σ body f₂ c _ hc)

theorem lowersStmts_of_yields (σ : Scope) :
    ∀ (body : List Stmt) (span : Source.Span) (f : Fresh) (code : Code) (f' : Fresh),
      Yields (lowerStmts σ body) f code f' → LowersStmt σ (.block span body) f code f'
  | [], _, _, _, _, h => by
    obtain ⟨rfl, rfl⟩ := yields_pure.mp h
    exact .done
  | s :: rest, span, f, _, _, h => by
    simp only [lowerStmts, yields_bind, yields_pure] at h
    obtain ⟨c, f₁, hc, d, f₂, hd, rfl, rfl⟩ := h
    exact .seq (lowersStmt_of_yields σ s f c f₁ hc) (lowersStmts_of_yields σ rest span f₁ d _ hd)

end

end JavaMinus.Lowering
