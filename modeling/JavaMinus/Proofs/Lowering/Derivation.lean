import JavaMinus.Lowering.Stmt

/-!
# Derivations of lowering

Lowering is a computation that may fail. Here its successful runs are described rule by rule, one rule
for each form of the tree, with the counters before and after. Statements about lowered code are
proved by induction on these rules and need not look at the computation again.
-/

namespace JavaMinus.Lowering

open JavaMinus.Source (Expr BinOp TypeName MethodSymbols)
open JavaMinus.Flat (Ty Operand Instr Code)

/-! ### Successful steps -/

/-- The result of a step and the counters after it. -/
def attempt {α : Type} (x : LowerM α) (f : Fresh) : Except Error α × Fresh :=
  x f

/-- Started with counters `f`, the step gives `a` and leaves the counters `f'`. -/
def Yields {α : Type} (x : LowerM α) (f : Fresh) (a : α) (f' : Fresh) : Prop :=
  attempt x f = (.ok a, f')

section Steps

variable {α β : Type} {f f' : Fresh}

theorem attempt_bind (x : LowerM α) (g : α → LowerM β) (f : Fresh) :
    attempt (x >>= g) f =
      match attempt x f with
      | (.ok a, f₁) => attempt (g a) f₁
      | (.error e, f₁) => (.error e, f₁) := by
  show (match attempt x f with
    | (r, f₁) => (ExceptT.bindCont g r : StateM Fresh (Except Error β)) f₁) = _
  rcases attempt x f with ⟨r, f₁⟩
  cases r <;> rfl

theorem yields_bind {x : LowerM α} {g : α → LowerM β} {b : β} :
    Yields (x >>= g) f b f' ↔ ∃ a f₁, Yields x f a f₁ ∧ Yields (g a) f₁ b f' := by
  unfold Yields
  rw [attempt_bind]
  rcases attempt x f with ⟨r, f₁⟩
  cases r with
  | error e => simp
  | ok a =>
    constructor
    · intro h
      exact ⟨a, f₁, rfl, h⟩
    · rintro ⟨a', f₂, h, hg⟩
      obtain ⟨rfl, rfl⟩ : a = a' ∧ f₁ = f₂ := by simpa using h
      exact hg

theorem yields_pure {a b : α} : Yields (pure a) f b f' ↔ b = a ∧ f' = f := by
  show ((.ok a, f) : Except Error α × Fresh) = (.ok b, f') ↔ _
  rw [Prod.mk.injEq, Except.ok.injEq, eq_comm, eq_comm (a := f)]

theorem yields_throw {e : Error} {b : α} : ¬ Yields (throw e) f b f' := by
  intro h
  have h' : ((.error e, f) : Except Error α × Fresh) = (.ok b, f') := h
  simp at h'

theorem yields_lift {x : Except Error α} {b : α} :
    Yields (liftM x) f b f' ↔ x = .ok b ∧ f' = f := by
  show ((x, f) : Except Error α × Fresh) = (.ok b, f') ↔ _
  rw [Prod.mk.injEq, eq_comm (a := f)]

theorem yields_ite {c : Prop} [Decidable c] {x y : LowerM α} {b : α} :
    Yields (if c then x else y) f b f' ↔ c ∧ Yields x f b f' ∨ ¬ c ∧ Yields y f b f' := by
  by_cases h : c <;> simp [h]

end Steps

def Scope.temp (σ : Scope) (f : Fresh) (ty : Ty) : Operand :=
  .var (tempName (σ.nextTemp f)) ty

def Scope.drawn (σ : Scope) (f : Fresh) : Fresh :=
  { f with temps := σ.nextTemp f }

def Fresh.labelled (f : Fresh) : Fresh :=
  { f with labels := f.labels + 1 }

theorem yields_freshTemp {σ : Scope} {ty : Ty} {f f' : Fresh} {op : Operand} :
    Yields (freshTemp σ ty) f op f' ↔ op = σ.temp f ty ∧ f' = σ.drawn f := by
  show ((.ok (σ.temp f ty), σ.drawn f) : Except Error Operand × Fresh) = (.ok op, f') ↔ _
  rw [Prod.mk.injEq, Except.ok.injEq, eq_comm, eq_comm (a := σ.drawn f)]

theorem yields_freshLabel {f f' : Fresh} {n : Nat} :
    Yields freshLabel f n f' ↔ n = f.labels ∧ f' = f.labelled := by
  show ((.ok f.labels, f.labelled) : Except Error Nat × Fresh) = (.ok n, f') ↔ _
  rw [Prod.mk.injEq, Except.ok.injEq, eq_comm, eq_comm (a := f.labelled)]

theorem computed_inj {c d : Code} {dest dest' : Operand} {rhs rhs' : Instr}
    (h : Lowered.computed c dest rhs = .computed d dest' rhs') :
    c = d ∧ dest = dest' ∧ rhs = rhs' := by
  simp only [Lowered.computed, Lowered.mk.injEq, Instr.assignTo] at h
  obtain ⟨hdest, hcode, _⟩ := h
  obtain ⟨hc, hlast⟩ := List.append_inj' hcode rfl
  simp only [List.cons.injEq, Flat.Item.instr.injEq, Instr.assign.injEq, and_true] at hlast
  exact ⟨hc, hdest, hlast.2.2⟩

/-! ### Expressions -/

/-- `LowersName σ name f l f'`: in scope `σ`, the name is lowered to `l`. -/
inductive LowersName (σ : Scope) (name : String) (f : Fresh) : Lowered → Fresh → Prop
  | slot {op} : σ.slotOperand? name = .ok (some op) → LowersName σ name f (.value op) f
  | field {field} : σ.slotOperand? name = .ok none → σ.fieldOperand? name = .ok (some field) →
      LowersName σ name f (.computed [] (σ.temp f field.ty) (.getField σ.self field)) (σ.drawn f)
  | cls : σ.slotOperand? name = .ok none → σ.fieldOperand? name = .ok none →
      σ.symbols.isKnownClass name = true → LowersName σ name f (.value (.classRef name)) f

/-- `LowersIndex σ idx f l f'`: the lowered index `idx` is used as `l`. -/
inductive LowersIndex (σ : Scope) (idx : Lowered) (f : Fresh) : Lowered → Fresh → Prop
  | literal : idx.result.isLiteral = true →
      LowersIndex σ idx f (.computed idx.code (σ.temp f .int) (.single idx.result)) (σ.drawn f)
  | other : idx.result.isLiteral = false → LowersIndex σ idx f idx f

/-- The code of `&&` or `||` around the code of its operands. -/
def logicalCode (op : BinOp) (n : Nat) (dest : Operand) (l r : Lowered) : Code :=
  l.code ++
    [.instr (.assignTo dest (.single l.result)),
      .instr (.branch (skipTest op dest) (skipLabel op n))] ++
    r.code ++
    [.instr (.assignTo dest (.single r.result)), .label (skipLabel op n)]

/-- The declared parameter types of a called method, as far as they can be seen. -/
def declaredParams : Option MethodSymbols → List TypeName
  | some d => d.parameters.map (·.type)
  | none => []

def declaredResult (σ : Scope) : Option MethodSymbols → Except Error (Option Ty)
  | some d => some <$> σ.typeOf d.returnType
  | none => .ok none

/-- What expression lowering turns a part of the tree into. -/
inductive Piece where
  | expr (e : Expr) (hint : Option Ty) (l : Lowered)
  /-- The receiver of a call of this method. -/
  | receiver (method : String) (e : Expr) (r : Receiver)
  | args (es : List Expr) (params : List TypeName) (code : Code) (operands : List Operand)
  | call (e : Expr) (method : String) (es : List Expr) (usage : CallUse) (code : Code) (call : Instr)

/-- `Lowers σ piece f f'`: in scope `σ` and with counters `f`, lowering succeeds with this piece and
leaves the counters `f'`. -/
inductive Lowers (σ : Scope) : Piece → Fresh → Fresh → Prop
  | int {span v hint f} : Lowers σ (.expr (.intLit span v) hint (.value (.int v))) f f
  | bool {span v hint f} : Lowers σ (.expr (.boolLit span v) hint (.value (.bool v))) f f
  | self {span hint f} : Lowers σ (.expr (.self span) hint (.value σ.self)) f f
  | name {span name hint l f f'} : LowersName σ name f l f' →
      Lowers σ (.expr (.ident span name) hint l) f f'
  | paren {span e hint l f f'} : Lowers σ (.expr e hint l) f f' →
      Lowers σ (.expr (.paren span e) hint l) f f'
  | not {span e hint l f f'} : Lowers σ (.expr e (some .bool) l) f f' →
      Lowers σ (.expr (.not span e) hint (.computed l.code (σ.temp f' .bool) (.not l.result)))
        f (σ.drawn f')
  | logical {span op lhs rhs hint l r f f₁ f'} : op.isLogical = true →
      Lowers σ (.expr lhs (some .bool) l) f.labelled f₁ →
      Lowers σ (.expr rhs (some .bool) r) (σ.drawn f₁) f' →
      Lowers σ (.expr (.binary span op lhs rhs) hint
        { result := σ.temp f₁ .bool, code := logicalCode op f.labels (σ.temp f₁ .bool) l r }) f f'
  | binary {span op lhs rhs hint l r f f₁ f'} : op.isLogical = false →
      Lowers σ (.expr lhs (some .int) l) f f₁ → Lowers σ (.expr rhs (some .int) r) f₁ f' →
      Lowers σ (.expr (.binary span op lhs rhs) hint
        (.computed (l.code ++ r.code) (σ.temp f' (Instr.binaryType op))
          (.binary op l.result r.result))) f (σ.drawn f')
  | index {span array index hint arr elem idx l f f₁ f₂ f'} :
      Lowers σ (.expr array (some .intArray) arr) f f₁ → requireSlot "Index" arr.result = .ok () →
      elementType arr.result = .ok elem → Lowers σ (.expr index (some .int) idx) f₁ f₂ →
      LowersIndex σ idx f₂ l f' →
      Lowers σ (.expr (.index span array index) hint
        (.computed (arr.code ++ l.code) (σ.temp f' elem) (.single (.elem arr.result l.result elem))))
        f (σ.drawn f')
  | length {span array hint arr f f'} : Lowers σ (.expr array (some .intArray) arr) f f' →
      Lowers σ (.expr (.length span array) hint
        (.computed arr.code (σ.temp f' .int) (.call .arrayLength arr.result none [] .int)))
        f (σ.drawn f')
  | callValue {span receiver method es hint code call f f'} :
      Lowers σ (.call receiver method es (.value hint) code call) f f' → call.resultType ≠ .void →
      Lowers σ (.expr (.call span receiver method es) hint
        (.computed code (σ.temp f' call.resultType) call)) f (σ.drawn f')
  | newArray {span size hint l f f'} : Lowers σ (.expr size (some .int) l) f f' →
      Lowers σ (.expr (.newArray span size) hint
        (.computed l.code (σ.temp f' .intArray)
          (.call .new (.classRef "array") none [l.result] .intArray))) f (σ.drawn f')
  | newObject {span cls hint ty f} : σ.objectType cls = .ok ty →
      Lowers σ (.expr (.newObject span cls) hint
        { result := σ.temp f ty, code := constructInto (σ.temp f ty) cls }) f (σ.drawn f)
  | selfReceiver {method e span f} : e.unparen = .self span →
      Lowers σ (.receiver method e { invocation := .virtual, target := σ.self }) f f
  | classReceiver {method e span name f} : e.unparen = .ident span name →
      σ.symbols.isDeclared σ.method name = false → σ.symbols.isKnownClass name = true →
      Lowers σ (.receiver method e { invocation := .static, target := .classRef name }) f f
  | valueReceiver {method e l f f'} : (∀ span, e.unparen ≠ .self span) →
      (∀ span name, e.unparen = .ident span name → σ.symbols.isDeclared σ.method name = true) →
      Lowers σ (.expr e none l) f f' → l.result.isLiteral = false →
      (∀ array index ty, l.result ≠ .elem array index ty) →
      Lowers σ (.receiver method e { code := l.code, invocation := .virtual, target := l.result })
        f f'
  | noArgs {params f} : Lowers σ (.args [] params [] []) f f
  | arg {e rest params hint l code operands f f₁ f'} : argHint σ params = .ok hint →
      Lowers σ (.expr e hint l) f f₁ → Lowers σ (.args rest params.tail code operands) f₁ f' →
      Lowers σ (.args (e :: rest) params (l.code ++ code) (l.result :: operands)) f f'
  | call {e method es usage r code operands result f f₁ f'} :
      Lowers σ (.receiver method e r) f f₁ →
      Lowers σ (.args es (declaredParams (declaration? σ r.target method)) code operands) f₁ f' →
      declaredResult σ (declaration? σ r.target method) = .ok result →
      Lowers σ (.call e method es usage (r.code ++ code)
        (.call r.invocation r.target (some method) operands (callType result usage))) f f'

/-- What is lowered for a call ends in a call instruction. -/
theorem Lowers.exists_call {σ : Scope} {e : Expr} {method : String} {es : List Expr} {usage : CallUse}
    {code : Code} {call : Instr} {f f' : Fresh}
    (h : Lowers σ (.call e method es usage code call) f f') :
    ∃ invocation target operands ty, call = .call invocation target (some method) operands ty := by
  cases h with
  | call => exact ⟨_, _, _, _, rfl⟩

/-! ### Every success has a derivation -/

theorem lowersName_of_yields {σ : Scope} {name : String} {f f' : Fresh} {l : Lowered}
    (h : Yields (lowerName σ name) f l f') : LowersName σ name f l f' := by
  simp only [lowerName, yields_bind, yields_lift] at h
  obtain ⟨slot, f₁, ⟨hslot, rfl⟩, h⟩ := h
  cases slot with
  | some op =>
    obtain ⟨rfl, rfl⟩ := yields_pure.mp h
    exact .slot hslot
  | none =>
    simp only [yields_bind, yields_lift] at h
    obtain ⟨field, f₂, ⟨hfield, rfl⟩, h⟩ := h
    cases field with
    | some field =>
      simp only [yields_bind, yields_freshTemp, yields_pure] at h
      obtain ⟨dest, f₃, ⟨rfl, rfl⟩, rfl, rfl⟩ := h
      exact .field hslot hfield
    | none =>
      rcases yields_ite.mp h with ⟨hknown, h⟩ | ⟨_, h⟩
      · obtain ⟨rfl, rfl⟩ := yields_pure.mp h
        exact .cls hslot hfield hknown
      · exact absurd h yields_throw

theorem lowersIndex_of_yields {σ : Scope} {idx l : Lowered} {f f' : Fresh}
    (h : Yields (indexOperand σ idx) f l f') : LowersIndex σ idx f l f' := by
  rcases yields_ite.mp h with ⟨hlit, h⟩ | ⟨hlit, h⟩
  · simp only [yields_bind, yields_freshTemp, yields_pure] at h
    obtain ⟨dest, f₁, ⟨rfl, rfl⟩, rfl, rfl⟩ := h
    exact .literal hlit
  · obtain ⟨rfl, rfl⟩ := yields_pure.mp h
    exact .other (by simpa using hlit)

theorem lowerExpr_unparen (σ : Scope) :
    ∀ (e : Expr) (hint : Option Ty), lowerExpr σ e.unparen hint = lowerExpr σ e hint
  | .paren _ e, hint => by
    rw [Expr.unparen, lowerExpr]
    exact lowerExpr_unparen σ e hint
  | .intLit .., _ | .boolLit .., _ | .ident .., _ | .self .., _ | .not .., _ | .binary .., _
  | .index .., _ | .length .., _ | .call .., _ | .newArray .., _ | .newObject .., _ => rfl

theorem isDeclared_of_lowersName {σ : Scope} {name : String} {f f' : Fresh} {l : Lowered}
    (h : LowersName σ name f l f') (hcls : σ.symbols.isKnownClass name = false) :
    σ.symbols.isDeclared σ.method name = true := by
  unfold Source.SymbolTable.isDeclared
  cases h with
  | slot hslot =>
    cases hr : σ.symbols.resolve? σ.method name with
    | none => simp [Scope.slotOperand?, hr] at hslot
    | some b => rfl
  | field _ hfield =>
    cases hr : σ.symbols.resolve? σ.method name with
    | none => simp [Scope.fieldOperand?, hr] at hfield
    | some b => rfl
  | cls _ _ hknown => simp [hcls] at hknown

theorem valueReceiver_of_yields {σ : Scope} {kind method : String} {e : Expr} {f f' : Fresh}
    {r : Receiver}
    (h : Yields (do
      let r ← lowerExpr σ e none
      match r.result with
      | .lit .. | .elem .. =>
        throw (.unsupportedNode (.badReceiver kind method r.result))
      | target => return { code := r.code, invocation := .virtual, target : Receiver }) f r f') :
    ∃ l, Yields (lowerExpr σ e none) f l f' ∧ l.result.isLiteral = false ∧
      (∀ array index ty, l.result ≠ .elem array index ty) ∧
      r = { code := l.code, invocation := .virtual, target := l.result } := by
  obtain ⟨l, f₁, hl, h⟩ := yields_bind.mp h
  refine ⟨l, ?_⟩
  cases hres : l.result with
  | lit v ty =>
    rw [hres] at h
    exact absurd h yields_throw
  | elem array index ty =>
    rw [hres] at h
    exact absurd h yields_throw
  | var name ty | param index name ty | self cls | classRef name =>
    rw [hres] at h
    obtain ⟨rfl, rfl⟩ := yields_pure.mp h
    exact ⟨hl, rfl, by simp, rfl⟩

theorem lowersReceiver_of_yields {σ : Scope} {method : String} {e : Expr} {f f' : Fresh}
    {r : Receiver}
    (he : ∀ f l f', Yields (lowerExpr σ e none) f l f' → Lowers σ (.expr e none l) f f')
    (h : Yields (receiverOf σ method e (lowerExpr σ e none)) f r f') :
    Lowers σ (.receiver method e r) f f' := by
  unfold receiverOf at h
  cases hu : e.unparen with
  | self span =>
    rw [hu] at h
    obtain ⟨rfl, rfl⟩ := yields_pure.mp h
    exact .selfReceiver hu
  | ident span name =>
    rw [hu] at h
    rcases yields_ite.mp h with ⟨hc, h⟩ | ⟨hc, h⟩
    · obtain ⟨rfl, rfl⟩ := yields_pure.mp h
      simp only [Bool.and_eq_true, Bool.not_eq_true'] at hc
      exact .classReceiver hu hc.1 hc.2
    · obtain ⟨l, hl, hlit, helem, rfl⟩ := valueReceiver_of_yields h
      refine .valueReceiver (by simp [hu]) ?_ (he _ _ _ hl) hlit helem
      intro span' name' hident
      obtain ⟨rfl, rfl⟩ : span = span' ∧ name = name' := by simpa [hu] using hident
      -- the name was lowered, so it is declared unless it is a class, and then it is no value
      rw [← lowerExpr_unparen, hu, lowerExpr] at hl
      have hname := lowersName_of_yields hl
      cases hk : σ.symbols.isKnownClass name with
      | false => exact isDeclared_of_lowersName hname hk
      | true => simpa [hk] using hc
  | intLit | boolLit | paren | not | binary | index | length | call | newArray | newObject =>
    rw [hu] at h
    obtain ⟨l, hl, hlit, helem, rfl⟩ := valueReceiver_of_yields h
    exact .valueReceiver (by simp [hu]) (by simp [hu]) (he _ _ _ hl) hlit helem

theorem lowersCall_of_yields {σ : Scope} {e : Expr} {method : String} {es : List Expr}
    {usage : CallUse} {f f' : Fresh} {code : Code} {call : Instr}
    (he : ∀ f l f', Yields (lowerExpr σ e none) f l f' → Lowers σ (.expr e none l) f f')
    (hes : ∀ params f code operands f', Yields (lowerArgs σ es params) f (code, operands) f' →
      Lowers σ (.args es params code operands) f f')
    (h : Yields (lowerCall σ e method es usage) f (code, call) f') :
    Lowers σ (.call e method es usage code call) f f' := by
  simp only [lowerCall, callWith, yields_bind] at h
  obtain ⟨r, f₁, hr, ⟨argCode, operands⟩, f₂, hargs, h⟩ := h
  have hargs' := hes (declaredParams (declaration? σ r.target method)) f₁ argCode operands f₂ (by
    cases hd : declaration? σ r.target method <;> (rw [hd] at hargs; exact hargs))
  have hr' := lowersReceiver_of_yields he hr
  cases hd : declaration? σ r.target method with
  | none =>
    rw [hd] at h
    simp only [yields_bind, yields_pure, Prod.mk.injEq] at h
    obtain ⟨result, f₃, ⟨rfl, rfl⟩, ⟨rfl, rfl⟩, rfl⟩ := h
    exact .call hr' hargs' (by rw [hd]; rfl)
  | some d =>
    rw [hd] at h
    simp only [map_eq_pure_bind, yields_bind, yields_lift, yields_pure, Prod.mk.injEq] at h
    obtain ⟨result, f₃, ⟨ty, f₄, ⟨hty, rfl⟩, rfl, rfl⟩, ⟨rfl, rfl⟩, rfl⟩ := h
    exact .call hr' hargs' (by rw [hd, declaredResult, hty]; rfl)

mutual

theorem lowers_of_yields (σ : Scope) :
    ∀ (e : Expr) (hint : Option Ty) (f : Fresh) (l : Lowered) (f' : Fresh),
      Yields (lowerExpr σ e hint) f l f' → Lowers σ (.expr e hint l) f f'
  | .intLit .., _, _, _, _, h => by
    obtain ⟨rfl, rfl⟩ := yields_pure.mp h
    exact .int
  | .boolLit .., _, _, _, _, h => by
    obtain ⟨rfl, rfl⟩ := yields_pure.mp h
    exact .bool
  | .self _, _, _, _, _, h => by
    obtain ⟨rfl, rfl⟩ := yields_pure.mp h
    exact .self
  | .ident .., _, _, _, _, h => by
    rw [lowerExpr] at h
    exact .name (lowersName_of_yields h)
  | .paren _ e, hint, f, l, f', h => by
    rw [lowerExpr] at h
    exact .paren (lowers_of_yields σ e hint f l f' h)
  | .not _ e, _, f, _, _, h => by
    simp only [lowerExpr, yields_bind, yields_freshTemp, yields_pure] at h
    obtain ⟨l, f₁, hl, dest, f₂, ⟨rfl, rfl⟩, rfl, rfl⟩ := h
    exact .not (lowers_of_yields σ e _ f l f₁ hl)
  | .binary _ op lhs rhs, _, f, _, _, h => by
    rw [lowerExpr] at h
    rcases yields_ite.mp h with ⟨hop, h⟩ | ⟨hop, h⟩
    · simp only [yields_bind, yields_freshLabel, yields_freshTemp, yields_pure] at h
      obtain ⟨n, f₁, ⟨rfl, rfl⟩, l, f₂, hl, dest, f₃, ⟨rfl, rfl⟩, r, f₄, hr, rfl, rfl⟩ := h
      exact .logical hop (lowers_of_yields σ lhs _ _ l f₂ hl) (lowers_of_yields σ rhs _ _ r _ hr)
    · simp only [yields_bind, yields_freshTemp, yields_pure] at h
      obtain ⟨l, f₁, hl, r, f₂, hr, dest, f₃, ⟨rfl, rfl⟩, rfl, rfl⟩ := h
      exact .binary (by simpa using hop) (lowers_of_yields σ lhs _ f l f₁ hl)
        (lowers_of_yields σ rhs _ f₁ r f₂ hr)
  | .index _ array index, _, f, _, _, h => by
    simp only [lowerExpr, yields_bind, yields_lift, yields_freshTemp, yields_pure] at h
    obtain ⟨arr, f₁, harr, ⟨⟩, f₂, ⟨hslot, rfl⟩, elem, f₃, ⟨helem, rfl⟩, idx, f₄, hidx, l, f₅, hl,
      dest, f₆, ⟨rfl, rfl⟩, rfl, rfl⟩ := h
    exact .index (lowers_of_yields σ array _ f arr _ harr) hslot helem
      (lowers_of_yields σ index _ _ idx f₄ hidx) (lowersIndex_of_yields hl)
  | .length _ array, _, f, _, _, h => by
    simp only [lowerExpr, yields_bind, yields_freshTemp, yields_pure] at h
    obtain ⟨arr, f₁, harr, dest, f₂, ⟨rfl, rfl⟩, rfl, rfl⟩ := h
    exact .length (lowers_of_yields σ array _ f arr f₁ harr)
  | .call _ receiver method es, hint, f, _, _, h => by
    simp only [lowerExpr, yields_bind] at h
    obtain ⟨⟨code, call⟩, f₁, hcall, h⟩ := h
    rcases yields_ite.mp h with ⟨_, h⟩ | ⟨hvoid, h⟩
    · exact absurd h yields_throw
    · simp only [yields_bind, yields_freshTemp, yields_pure] at h
      obtain ⟨dest, f₂, ⟨rfl, rfl⟩, rfl, rfl⟩ := h
      exact .callValue (lowersCall_of_yields (lowers_of_yields σ receiver none)
        (fun params f code operands f' => lowersArgs_of_yields σ es params f code operands f') hcall)
        hvoid
  | .newArray _ size, _, f, _, _, h => by
    simp only [lowerExpr, yields_bind, yields_freshTemp, yields_pure] at h
    obtain ⟨n, f₁, hn, dest, f₂, ⟨rfl, rfl⟩, rfl, rfl⟩ := h
    exact .newArray (lowers_of_yields σ size _ f n f₁ hn)
  | .newObject _ cls, _, f, _, _, h => by
    simp only [lowerExpr, yields_bind, yields_lift, yields_freshTemp, yields_pure] at h
    obtain ⟨ty, f₁, ⟨hty, rfl⟩, dest, f₂, ⟨rfl, rfl⟩, rfl, rfl⟩ := h
    exact .newObject hty

theorem lowersArgs_of_yields (σ : Scope) :
    ∀ (es : List Expr) (params : List TypeName) (f : Fresh) (code : Code)
      (operands : List Operand) (f' : Fresh), Yields (lowerArgs σ es params) f (code, operands) f' →
      Lowers σ (.args es params code operands) f f'
  | [], _, _, _, _, _, h => by
    obtain ⟨hpair, rfl⟩ := yields_pure.mp h
    obtain ⟨rfl, rfl⟩ := Prod.mk.inj hpair
    exact .noArgs
  | e :: rest, params, f, _, _, _, h => by
    simp only [lowerArgs, yields_bind, yields_lift, yields_pure, Prod.mk.injEq] at h
    obtain ⟨hint, f₁, ⟨hhint, rfl⟩, l, f₂, hl, ⟨code, operands⟩, f₃, hrest, ⟨rfl, rfl⟩, rfl⟩ := h
    exact .arg hhint (lowers_of_yields σ e hint _ l f₂ hl)
      (lowersArgs_of_yields σ rest params.tail f₂ code operands _ hrest)

end

end JavaMinus.Lowering
