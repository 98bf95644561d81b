import JavaMinus.Proofs.Flat.Renaming
import JavaMinus.Proofs.Lowering.ClassDerivation
import JavaMinus.Proofs.Lowering.ControlFlow
import JavaMinus.Proofs.Lowering.Types
import Mathlib.Logic.Equiv.Set

/-!
# Lowering from other counters

A piece of the tree that can be lowered can be lowered whatever the counters are. Two runs with
different counters take the same way through the tree and draw their temporaries and labels in step, so
the code of one is that of the other with new numbers.
-/

namespace JavaMinus.Lowering

open JavaMinus.Source (Expr Stmt BinOp TypeName)
open JavaMinus.Flat (Ty Operand Instr Item Code Renaming renameCode)

/-! ### New numbers -/

/-- New numbers for temporaries and for labels. -/
structure Renumbering where
  temp : Equiv.Perm Nat
  label : Equiv.Perm Nat

theorem tempName_injective : Function.Injective tempName :=
  fun _ _ => tempName_inj

/-- A place of a construct, with a number. -/
def numberedPlace (q : {p // p ∈ places} × Nat) : String :=
  placeLabel q.1.1 q.2

theorem numberedPlace_injective : Function.Injective numberedPlace := by
  rintro ⟨⟨p, hp⟩, m⟩ ⟨⟨q, hq⟩, n⟩ h
  obtain ⟨rfl, rfl⟩ := placeLabel_inj h
  rfl

open Classical in
/-- The names with the new numbers. All other names stay. -/
noncomputable def Renumbering.names (ν : Renumbering) : Renaming where
  name := ν.temp.extendDomain (Equiv.ofInjective tempName tempName_injective)
  label := Equiv.Perm.extendDomain (Equiv.prodCongrRight fun _ => ν.label)
    (Equiv.ofInjective numberedPlace numberedPlace_injective)

namespace Renumbering

variable (ν : Renumbering)

theorem name_tempName (n : Nat) : ν.names.name (tempName n) = tempName (ν.temp n) := by
  classical
  exact ν.temp.extendDomain_apply_image (Equiv.ofInjective tempName tempName_injective) n

theorem name_other {x : String} (h : ∀ n, x ≠ tempName n) : ν.names.name x = x := by
  classical
  apply Equiv.Perm.extendDomain_apply_not_subtype
  rintro ⟨n, hn⟩
  exact h n hn.symm

theorem label_placeLabel {p : String} (hp : p ∈ places) (n : Nat) :
    ν.names.label (placeLabel p n) = placeLabel p (ν.label n) := by
  classical
  exact Equiv.Perm.extendDomain_apply_image (Equiv.prodCongrRight fun _ => ν.label)
    (Equiv.ofInjective numberedPlace numberedPlace_injective) (⟨p, hp⟩, n)

theorem label_other {x : String} (h : ∀ p ∈ places, ∀ n, x ≠ placeLabel p n) :
    ν.names.label x = x := by
  classical
  apply Equiv.Perm.extendDomain_apply_not_subtype
  rintro ⟨⟨p, n⟩, hn⟩
  exact h p.1 p.2 n hn.symm

/-- Names that the program declares in the method keep their meaning. -/
def Spares (σ : Scope) : Prop :=
  ∀ n, σ.symbols.isDeclared σ.method (tempName n) = true → ν.temp n = n

theorem Spares.name {σ : Scope} {ν : Renumbering} (h : ν.Spares σ) {x : String}
    (hx : σ.symbols.isDeclared σ.method x = true) : ν.names.name x = x := by
  by_cases htemp : ∃ n, x = tempName n
  · obtain ⟨n, rfl⟩ := htemp
    rw [name_tempName, h n hx]
  · exact ν.name_other fun n hn => htemp ⟨n, hn⟩

end Renumbering

/-! ### Runs in step -/

/-- The number of the temporary that will be drawn after `k` others. -/
def Scope.later (σ : Scope) : Fresh → Nat → Nat
  | f, 0 => σ.nextTemp f
  | f, k + 1 => σ.later (σ.drawn f) k

/-- The numbers that one run will draw until its counters are `hi` become those that the other run
will draw. -/
structure Follows (σ : Scope) (ν : Renumbering) (hi f g : Fresh) : Prop where
  temps : ∀ k, σ.later f k ≤ hi.temps → ν.temp (σ.later f k) = σ.later g k
  labels : ∀ j, f.labels + j < hi.labels → ν.label (f.labels + j) = g.labels + j

/-- Whatever the first computation gives, the second one gives its image from all counters whose
numbers follow. -/
def Tracks (σ : Scope) (ν : Renumbering) {α β : Type} (image : α → β) (x : LowerM α)
    (y : LowerM β) : Prop :=
  ∀ f a f', Yields x f a f' → f.Upto f' ∧ ∀ hi g, f'.Upto hi → Follows σ ν hi f g →
    ∃ g', Yields y g (image a) g' ∧ Follows σ ν hi f' g'

section Rules

variable {σ : Scope} {ν : Renumbering} {α β γ δ : Type} {image : α → β} {image' : γ → δ}

theorem Tracks.pure {a : α} {b : β} (h : image a = b) : Tracks σ ν image (pure a) (pure b) := by
  intro f _ _ hx
  obtain ⟨rfl, rfl⟩ := yields_pure.mp hx
  exact ⟨.refl _, fun hi g _ hfollow => ⟨g, yields_pure.mpr ⟨h, rfl⟩, hfollow⟩⟩

theorem Tracks.throw {e : Error} {y : LowerM β} : Tracks σ ν image (throw e) y :=
  fun _ _ _ hx => absurd hx yields_throw

theorem Tracks.bind {x : LowerM α} {y : LowerM β} {k : α → LowerM γ} {l : β → LowerM δ}
    (h : Tracks σ ν image x y) (hk : ∀ a, Tracks σ ν image' (k a) (l (image a))) :
    Tracks σ ν image' (x >>= k) (y >>= l) := by
  intro f c f' hx
  obtain ⟨a, f₁, hx, hrest⟩ := yields_bind.mp hx
  obtain ⟨hupto, hfirst⟩ := h f a f₁ hx
  obtain ⟨hupto', hsecond⟩ := hk a f₁ c f' hrest
  refine ⟨hupto.trans hupto', fun hi g hhi hfollow => ?_⟩
  obtain ⟨g₁, hy, hfollow⟩ := hfirst hi g (hupto'.trans hhi) hfollow
  obtain ⟨g', hy', hfollow⟩ := hsecond hi g₁ hhi hfollow
  exact ⟨g', yields_bind.mpr ⟨_, g₁, hy, hy'⟩, hfollow⟩

/-- A step without counters that gives the same on both sides. -/
theorem Tracks.check {x y : Except Error γ} {k : γ → LowerM α} {l : γ → LowerM β}
    (hy : ∀ c, x = .ok c → y = .ok c) (h : ∀ c, x = .ok c → Tracks σ ν image (k c) (l c)) :
    Tracks σ ν image (liftM x >>= k) (liftM y >>= l) := by
  intro f a f' hx
  obtain ⟨c, f₁, hc, hrest⟩ := yields_bind.mp hx
  obtain ⟨hok, rfl⟩ := yields_lift.mp hc
  obtain ⟨hupto, htrack⟩ := h c hok f₁ a f' hrest
  refine ⟨hupto, fun hi g hhi hfollow => ?_⟩
  obtain ⟨g', hg', hfollow⟩ := htrack hi g hhi hfollow
  exact ⟨g', yields_bind.mpr ⟨c, g, yields_lift.mpr ⟨hy c hok, rfl⟩, hg'⟩, hfollow⟩

theorem Tracks.lift {x : Except Error γ} {k : γ → LowerM α} {l : γ → LowerM β}
    (h : ∀ c, x = .ok c → Tracks σ ν image (k c) (l c)) :
    Tracks σ ν image (liftM x >>= k) (liftM x >>= l) :=
  .check (fun _ hc => hc) h

theorem Tracks.last {x : Except Error α} {y : Except Error β}
    (h : ∀ a, x = .ok a → y = .ok (image a)) : Tracks σ ν image (liftM x) (liftM y) := by
  intro f a _ hx
  obtain ⟨hok, rfl⟩ := yields_lift.mp hx
  exact ⟨.refl _, fun hi g _ hfollow => ⟨g, yields_lift.mpr ⟨h a hok, rfl⟩, hfollow⟩⟩

theorem Tracks.thrown {e : Error} {k : γ → LowerM α} {y : LowerM β} :
    Tracks σ ν image (MonadExcept.throw e >>= k) y := by
  intro f a f' hx
  obtain ⟨_, _, hthrow, _⟩ := yields_bind.mp hx
  exact absurd hthrow yields_throw

theorem Tracks.ite {p : Prop} [Decidable p] {x x' : LowerM α} {y y' : LowerM β}
    (h : Tracks σ ν image x y) (h' : Tracks σ ν image x' y') :
    Tracks σ ν image (if p then x else x') (if p then y else y') := by
  split
  · exact h
  · exact h'

theorem Follows.drawn {hi f g : Fresh} (h : Follows σ ν hi f g) :
    Follows σ ν hi (σ.drawn f) (σ.drawn g) :=
  ⟨fun k => h.temps (k + 1), h.labels⟩

theorem later_labelled (σ : Scope) (f : Fresh) (k : Nat) : σ.later f.labelled k = σ.later f k := by
  induction k generalizing f with
  | zero => rfl
  | succ k ih => exact ih (σ.drawn f)

theorem Follows.labelled {hi f g : Fresh} (h : Follows σ ν hi f g) :
    Follows σ ν hi f.labelled g.labelled := by
  refine ⟨fun k => ?_, fun j => ?_⟩
  · rw [later_labelled, later_labelled]
    exact h.temps k
  · rw [Fresh.labelled, Fresh.labelled, Nat.add_assoc, Nat.add_assoc]
    exact h.labels (1 + j)

theorem tracks_freshTemp (ty : Ty) :
    Tracks σ ν (Operand.rename ν.names) (freshTemp σ ty) (freshTemp σ ty) := by
  intro f op f' hx
  obtain ⟨rfl, rfl⟩ := yields_freshTemp.mp hx
  refine ⟨.drawn σ f, fun hi g hhi hfollow => ?_⟩
  refine ⟨σ.drawn g, yields_freshTemp.mpr ⟨?_, rfl⟩, hfollow.drawn⟩
  have hname := hfollow.temps 0 hhi.temps
  rw [Scope.temp, Operand.rename, Renumbering.name_tempName]
  rw [show ν.temp (σ.nextTemp f) = σ.nextTemp g from hname]
  rfl

theorem tracks_freshLabel : Tracks σ ν ν.label freshLabel freshLabel := by
  intro f n f' hx
  obtain ⟨rfl, rfl⟩ := yields_freshLabel.mp hx
  refine ⟨.labelled f, fun hi g hhi hfollow => ?_⟩
  refine ⟨g.labelled, yields_freshLabel.mpr ⟨?_, rfl⟩, hfollow.labelled⟩
  exact hfollow.labels 0 hhi.labels

end Rules

/-! ### Lowered pieces -/

def Lowered.rename (ρ : Renaming) (l : Lowered) : Lowered where
  result := l.result.rename ρ
  code := renameCode ρ l.code
  fresh := l.fresh

def Receiver.rename (ρ : Renaming) (r : Receiver) : Receiver where
  code := renameCode ρ r.code
  invocation := r.invocation
  target := r.target.rename ρ

/-- Code with an instruction, or with the operands of a call. -/
def renamePair (ρ : Renaming) (p : Code × Instr) : Code × Instr :=
  (renameCode ρ p.1, p.2.rename ρ)

def renameArgs (ρ : Renaming) (p : Code × List Operand) : Code × List Operand :=
  (renameCode ρ p.1, p.2.map (Operand.rename ρ))

section Pieces

variable (ρ : Renaming)

theorem Lowered.rename_computed (code : Code) (dest : Operand) (rhs : Instr) :
    (Lowered.computed code dest rhs).rename ρ =
      .computed (renameCode ρ code) (dest.rename ρ) (rhs.rename ρ) := by
  simp [Lowered.computed, Lowered.rename]

theorem rename_constructInto (dest : Operand) (cls : String) :
    renameCode ρ (constructInto dest cls) = constructInto (dest.rename ρ) cls := by
  simp [constructInto, Instr.rename, Operand.rename]

theorem rename_skipTest (op : BinOp) (left : Operand) :
    (skipTest op left).rename ρ = skipTest op (left.rename ρ) := by
  unfold skipTest
  split <;> rfl

theorem requireSlot_rename (kind : String) (op : Operand) (c : Unit)
    (h : requireSlot kind op = .ok c) : requireSlot kind (op.rename ρ) = .ok c := by
  cases op with
  | var | param => rfl
  | lit | elem | self | classRef => cases h

theorem elementType_rename (op : Operand) : elementType (op.rename ρ) = elementType op := by
  simp [elementType]

theorem isOwnClass_rename (σ : Scope) (op : Operand) :
    isOwnClass σ (op.rename ρ) = isOwnClass σ op := by
  cases op <;> rfl

theorem declaration?_rename (σ : Scope) (target : Operand) (method : String) :
    declaration? σ (target.rename ρ) method = declaration? σ target method := by
  rw [declaration?, declaration?, isOwnClass_rename]

theorem isTest_rename (i : Instr) : isTest (i.rename ρ) = isTest i := by
  cases i <;> rfl

/-- The binding that is taken off a renamed piece is the renamed binding. -/
theorem takeBinding?_rename (l : Lowered) :
    (l.rename ρ).takeBinding? = l.takeBinding?.map fun p => (p.1.rename ρ, p.2.rename ρ) := by
  unfold Lowered.takeBinding?
  cases hfresh : l.fresh with
  | false => simp [Lowered.rename, hfresh]
  | true =>
    cases hlast : l.code.getLast? with
    | none => simp [Lowered.rename, hfresh, renameCode, hlast]
    | some item =>
      cases item with
      | label name => simp [Lowered.rename, hfresh, renameCode, hlast, Item.rename]
      | instr i =>
        cases i <;>
          simp [Lowered.rename, hfresh, renameCode, hlast, Item.rename, Instr.rename]

end Pieces

/-! ### Expressions -/

section Names

variable {σ : Scope} {ν : Renumbering}

theorem rename_slot (hspare : ν.Spares σ) {name : String} {op : Operand}
    (h : σ.slotOperand? name = .ok (some op)) : op.rename ν.names = op := by
  have hname : ν.names.name name = name := by
    obtain ⟨b, hb, _⟩ := slotOperand?_type h
    exact hspare.name (by simp [Source.SymbolTable.isDeclared, hb])
  rcases slotOperand?_cases h with ⟨_, _, _, rfl⟩ | ⟨_, _, _, _, rfl⟩
  · rw [Operand.rename, hname]
  · rw [Operand.rename, hname]

theorem lowerName_tracks (hspare : ν.Spares σ) (name : String) :
    Tracks σ ν (Lowered.rename ν.names) (lowerName σ name) (lowerName σ name) := by
  unfold lowerName
  refine .lift fun slot hslot => ?_
  cases slot with
  | some op =>
    refine .pure ?_
    simp [Lowered.rename, Lowered.value, rename_slot hspare hslot]
  | none =>
    refine .lift fun field _ => ?_
    cases field with
    | some field =>
      refine (tracks_freshTemp field.ty).bind fun dest => .pure ?_
      exact Lowered.rename_computed ν.names [] dest (.getField σ.self field)
    | none => exact .ite (.pure rfl) .throw

theorem indexOperand_tracks (idx : Lowered) :
    Tracks σ ν (Lowered.rename ν.names) (indexOperand σ idx)
      (indexOperand σ (idx.rename ν.names)) := by
  unfold indexOperand
  rw [show (idx.rename ν.names).result.isLiteral = idx.result.isLiteral from
    Operand.isLiteral_rename ν.names idx.result]
  refine .ite ?_ (.pure rfl)
  refine (tracks_freshTemp .int).bind fun dest => .pure ?_
  exact Lowered.rename_computed ν.names idx.code dest (.single idx.result)

/-- The value that a receiver is taken from. -/
theorem byValue_tracks {lowered : LowerM Lowered} {kind method : String}
    (h : Tracks σ ν (Lowered.rename ν.names) lowered lowered) :
    Tracks σ ν (Receiver.rename ν.names)
      (do
        let r ← lowered
        match r.result with
        | .lit .. | .elem .. => throw (.unsupportedNode (.badReceiver kind method r.result))
        | target => return { code := r.code, invocation := .virtual, target })
      (do
        let r ← lowered
        match r.result with
        | .lit .. | .elem .. => throw (.unsupportedNode (.badReceiver kind method r.result))
        | target => return { code := r.code, invocation := .virtual, target }) := by
  refine h.bind fun r => ?_
  rw [show (r.rename ν.names).result = r.result.rename ν.names from rfl]
  cases hresult : r.result with
  | lit | elem => exact .throw
  | var | param | self | classRef =>
    refine .pure ?_
    simp [Receiver.rename, Lowered.rename, Operand.rename]

theorem receiverOf_tracks {e : Expr} (method : String)
    (h : Tracks σ ν (Lowered.rename ν.names) (lowerExpr σ e none) (lowerExpr σ e none)) :
    Tracks σ ν (Receiver.rename ν.names) (receiverOf σ method e (lowerExpr σ e none))
      (receiverOf σ method e (lowerExpr σ e none)) := by
  unfold receiverOf
  cases hu : e.unparen with
  | self => exact .pure rfl
  | ident span name => exact .ite (.pure rfl) (byValue_tracks h)
  | intLit | boolLit | paren | not | binary | index | length | call | newArray
  | newObject => exact byValue_tracks h

theorem callWith_tracks {method : String} {receiver : LowerM Receiver}
    {args : List TypeName → LowerM (Code × List Operand)} {usage : CallUse}
    (hreceiver : Tracks σ ν (Receiver.rename ν.names) receiver receiver)
    (hargs : ∀ params, Tracks σ ν (renameArgs ν.names) (args params) (args params)) :
    Tracks σ ν (renamePair ν.names) (callWith σ method receiver args usage)
      (callWith σ method receiver args usage) := by
  unfold callWith
  refine hreceiver.bind fun r => ?_
  rw [show (r.rename ν.names).target = r.target.rename ν.names from rfl, declaration?_rename]
  refine (hargs _).bind fun p => ?_
  cases declaration? σ r.target method with
  | none =>
    refine .pure ?_
    simp [renamePair, Receiver.rename, Instr.rename]
  | some d =>
    simp only [map_eq_pure_bind, bind_assoc, pure_bind]
    refine .lift fun result _ => .pure ?_
    simp [renamePair, renameArgs, Receiver.rename, Instr.rename]

end Names

section Expressions

variable {σ : Scope} {ν : Renumbering}

theorem rename_logical (op : BinOp) (n : Nat) (dest : Operand) (l r : Lowered) :
    renameCode ν.names (l.code ++
      [.instr (.assignTo dest (.single l.result)),
        .instr (.branch (skipTest op dest) (skipLabel op n))] ++
      r.code ++
      [.instr (.assignTo dest (.single r.result)), .label (skipLabel op n)]) =
    (l.rename ν.names).code ++
      [.instr (.assignTo (dest.rename ν.names) (.single (l.rename ν.names).result)),
        .instr (.branch (skipTest op (dest.rename ν.names)) (skipLabel op (ν.label n)))] ++
      (r.rename ν.names).code ++
      [.instr (.assignTo (dest.rename ν.names) (.single (r.rename ν.names).result)),
        .label (skipLabel op (ν.label n))] := by
  have hlabel : ν.names.label (skipLabel op n) = skipLabel op (ν.label n) := by
    rw [skipLabel_eq, skipLabel_eq]
    apply ν.label_placeLabel
    split <;> decide
  simp [Lowered.rename, Instr.rename, rename_skipTest, hlabel]

mutual

theorem lowerExpr_tracks (hspare : ν.Spares σ) : ∀ (e : Expr) (hint : Option Ty),
    Tracks σ ν (Lowered.rename ν.names) (lowerExpr σ e hint) (lowerExpr σ e hint)
  | .intLit .., _ => by
    rw [lowerExpr]
    exact .pure rfl
  | .boolLit .., _ => by
    rw [lowerExpr]
    exact .pure rfl
  | .self _, _ => by
    rw [lowerExpr]
    exact .pure rfl
  | .ident _ name, _ => by
    rw [lowerExpr]
    exact lowerName_tracks hspare name
  | .paren _ e, hint => by
    rw [lowerExpr]
    exact lowerExpr_tracks hspare e hint
  | .not _ e, _ => by
    rw [lowerExpr]
    refine (lowerExpr_tracks hspare e _).bind fun l => ?_
    refine (tracks_freshTemp .bool).bind fun dest => .pure ?_
    exact Lowered.rename_computed ν.names l.code dest (.not l.result)
  | .binary _ op lhs rhs, _ => by
    rw [lowerExpr]
    refine .ite ?_ ?_
    · refine tracks_freshLabel.bind fun n => ?_
      refine (lowerExpr_tracks hspare lhs _).bind fun l => ?_
      refine (tracks_freshTemp .bool).bind fun dest => ?_
      refine (lowerExpr_tracks hspare rhs _).bind fun r => .pure ?_
      rw [Lowered.rename, rename_logical]
    · refine (lowerExpr_tracks hspare lhs _).bind fun l => ?_
      refine (lowerExpr_tracks hspare rhs _).bind fun r => ?_
      refine (tracks_freshTemp _).bind fun dest => .pure ?_
      rw [Lowered.rename_computed, Flat.renameCode_append]
      rfl
  | .index _ array index, _ => by
    rw [lowerExpr]
    refine (lowerExpr_tracks hspare array _).bind fun arr => ?_
    refine .check (requireSlot_rename ν.names "Index" arr.result) fun _ _ => ?_
    refine .check (fun c hc => (elementType_rename ν.names arr.result).trans hc) fun elem _ => ?_
    refine (lowerExpr_tracks hspare index _).bind fun i => ?_
    refine (indexOperand_tracks i).bind fun idx => ?_
    refine (tracks_freshTemp elem).bind fun dest => .pure ?_
    rw [Lowered.rename_computed, Flat.renameCode_append]
    rfl
  | .length _ array, _ => by
    rw [lowerExpr]
    refine (lowerExpr_tracks hspare array _).bind fun arr => ?_
    refine (tracks_freshTemp .int).bind fun dest => .pure ?_
    exact Lowered.rename_computed ν.names arr.code dest (.call .arrayLength arr.result none [] .int)
  | .call _ receiver method args, hint => by
    rw [lowerExpr]
    refine (callWith_tracks (receiverOf_tracks method (lowerExpr_tracks hspare receiver none))
      (lowerArgs_tracks hspare args)).bind fun p => ?_
    obtain ⟨code, call⟩ := p
    simp only [renamePair, Instr.resultType_rename]
    refine .ite .throw ?_
    refine (tracks_freshTemp call.resultType).bind fun dest => .pure ?_
    exact Lowered.rename_computed ν.names code dest call
  | .newArray _ size, _ => by
    rw [lowerExpr]
    refine (lowerExpr_tracks hspare size _).bind fun n => ?_
    refine (tracks_freshTemp .intArray).bind fun dest => .pure ?_
    exact Lowered.rename_computed ν.names n.code dest
      (.call .new (.classRef "array") none [n.result] .intArray)
  | .newObject _ cls, _ => by
    rw [lowerExpr]
    refine .lift fun ty _ => ?_
    refine (tracks_freshTemp ty).bind fun dest => .pure ?_
    rw [Lowered.rename, rename_constructInto]

theorem lowerArgs_tracks (hspare : ν.Spares σ) : ∀ (es : List Expr) (params : List TypeName),
    Tracks σ ν (renameArgs ν.names) (lowerArgs σ es params) (lowerArgs σ es params)
  | [], _ => by
    rw [lowerArgs]
    exact .pure rfl
  | e :: rest, params => by
    rw [lowerArgs]
    refine .lift fun hint _ => ?_
    refine (lowerExpr_tracks hspare e hint).bind fun l => ?_
    refine (lowerArgs_tracks hspare rest params.tail).bind fun p => .pure ?_
    simp [renameArgs, Lowered.rename]

end

theorem lowerCall_tracks (hspare : ν.Spares σ) (receiver : Expr) (method : String) (args : List Expr)
    (usage : CallUse) :
    Tracks σ ν (renamePair ν.names) (lowerCall σ receiver method args usage)
      (lowerCall σ receiver method args usage) :=
  callWith_tracks (receiverOf_tracks method (lowerExpr_tracks hspare receiver none))
    (lowerArgs_tracks hspare args)

theorem lowerCondition_tracks (hspare : ν.Spares σ) (cond : Expr) :
    Tracks σ ν (renamePair ν.names) (lowerCondition σ cond) (lowerCondition σ cond) := by
  unfold lowerCondition
  refine (lowerExpr_tracks hspare cond _).bind fun l => ?_
  have hwhole : Tracks σ ν (renamePair ν.names) (pure (l.code, .single l.result))
      (pure ((l.rename ν.names).code, .single (l.rename ν.names).result)) := .pure rfl
  rw [takeBinding?_rename]
  cases l.takeBinding? with
  | none => exact hwhole
  | some p =>
    obtain ⟨binding, rest⟩ := p
    cases binding with
    | assign dest ty rhs =>
      simp only [Option.map_some, Instr.rename, isTest_rename]
      exact .ite (.pure rfl) hwhole
    | binary | not | call | ret | goto | branch | getField | putField | single | nop => exact hwhole

end Expressions

/-! ### Statements -/

section Statements

variable {σ : Scope} {ν : Renumbering}

theorem lowerExprStmt_tracks (hspare : ν.Spares σ) (e : Expr) :
    Tracks σ ν (renameCode ν.names) (lowerExprStmt σ e) (lowerExprStmt σ e) := by
  have hvalue (e : Expr) : Tracks σ ν (renameCode ν.names)
      (do return (← lowerExpr σ e none).code) (do return (← lowerExpr σ e none).code) :=
    (lowerExpr_tracks hspare e none).bind fun _ => .pure rfl
  unfold lowerExprStmt
  cases e.unparen with
  | call span receiver method args =>
    refine (lowerCall_tracks hspare receiver method args .statement).bind fun p => .pure ?_
    simp
  | intLit | boolLit | paren | self | ident | not | binary | index | length | newArray
  | newObject => exact hvalue _

/-- A value that goes into a slot, either through the instruction that binds it or by a copy. -/
theorem valueInto_tracks (hspare : ν.Spares σ) {dest : Operand} (hdest : dest.rename ν.names = dest)
    (value : Expr) {k : Lowered → LowerM Code}
    (hcopy : ∀ v, v.takeBinding? = none →
      k v = pure (v.code ++ [.instr (.assignTo dest (.single v.result))]))
    (hbind : ∀ v binding rest, v.takeBinding? = some (binding, rest) →
      k v = pure (rest.code ++ [.instr ((binding.retarget? dest).getD binding)])) :
    Tracks σ ν (renameCode ν.names) (lowerExpr σ value (some dest.ty) >>= k)
      (lowerExpr σ value (some dest.ty) >>= k) := by
  refine (lowerExpr_tracks hspare value _).bind fun v => ?_
  have hrenamed := takeBinding?_rename ν.names v
  cases hv : v.takeBinding? with
  | none =>
    rw [hv] at hrenamed
    rw [hcopy v hv, hcopy (v.rename ν.names) hrenamed]
    refine .pure ?_
    simp [hdest, Lowered.rename, Instr.rename]
  | some p =>
    obtain ⟨binding, rest⟩ := p
    rw [hv] at hrenamed
    rw [hbind v binding rest hv, hbind _ _ _ hrenamed]
    refine .pure ?_
    cases binding <;> simp [hdest, Lowered.rename, Instr.rename, Instr.retarget?]

theorem assignToSlot_tracks (hspare : ν.Spares σ) {dest : Operand} (hdest : dest.rename ν.names = dest)
    (value : Expr) :
    Tracks σ ν (renameCode ν.names) (assignToSlot σ dest value) (assignToSlot σ dest value) := by
  unfold assignToSlot
  cases value.unparen with
  | newObject span cls =>
    refine .lift fun _ _ => .pure ?_
    rw [rename_constructInto, hdest]
  | call span receiver method args =>
    refine (lowerCall_tracks hspare receiver method args _).bind fun p => .pure ?_
    simp [hdest]
  | intLit | boolLit | paren | self | ident | not | binary | index | length | newArray =>
    refine valueInto_tracks hspare hdest value (fun v hv => ?_) fun v binding rest hv => ?_
    · rw [hv]
    · rw [hv]

theorem lowerAssign_tracks (hspare : ν.Spares σ) (target : String) (value : Expr) :
    Tracks σ ν (renameCode ν.names) (lowerAssign σ target value) (lowerAssign σ target value) := by
  unfold lowerAssign
  refine .lift fun slot hslot => ?_
  cases slot with
  | some dest => exact assignToSlot_tracks hspare (rename_slot hspare hslot) value
  | none =>
    refine .lift fun field _ => ?_
    cases field with
    | some field =>
      refine (lowerExpr_tracks hspare value _).bind fun v => .pure ?_
      simp [Lowered.rename, Instr.rename, Scope.self, Operand.rename]
    | none => exact .throw

theorem lowerStore_tracks (hspare : ν.Spares σ) (target : String) (index value : Expr) :
    Tracks σ ν (renameCode ν.names) (lowerStore σ target index value)
      (lowerStore σ target index value) := by
  unfold lowerStore
  refine (lowerName_tracks hspare target).bind fun arr => ?_
  refine .check (requireSlot_rename ν.names "ArrayAssign" arr.result) fun _ _ => ?_
  refine .check (fun c hc => (elementType_rename ν.names arr.result).trans hc) fun elem _ => ?_
  refine (lowerExpr_tracks hspare index _).bind fun i => ?_
  refine (indexOperand_tracks i).bind fun idx => ?_
  refine (lowerExpr_tracks hspare value _).bind fun v => .pure ?_
  simp [Lowered.rename, Instr.rename, Operand.rename]

theorem lowerReturn_tracks (hspare : ν.Spares σ) (value : Option Expr) :
    Tracks σ ν (renameCode ν.names) (lowerReturn σ value) (lowerReturn σ value) := by
  unfold lowerReturn
  cases value with
  | none => exact .pure rfl
  | some e =>
    refine (lowerExpr_tracks hspare e _).bind fun v => .pure ?_
    simp [Lowered.rename, Instr.rename]

theorem rename_branchCode (n : Nat) (test : Code × Instr) (thenCode elseCode : Code) :
    renameCode ν.names (branchCode n test thenCode elseCode) =
      branchCode (ν.label n) (renamePair ν.names test) (renameCode ν.names thenCode)
        (renameCode ν.names elseCode) := by
  have hlabel (p : String) (hp : p ∈ places) := ν.label_placeLabel hp n
  simp [branchCode, renamePair, Instr.rename, hlabel "then" (by decide), hlabel "endif" (by decide)]

theorem rename_loopCode (n : Nat) (test : Code × Instr) (body : Code) :
    renameCode ν.names (loopCode n test body) =
      loopCode (ν.label n) (renamePair ν.names test) (renameCode ν.names body) := by
  have hlabel (p : String) (hp : p ∈ places) := ν.label_placeLabel hp n
  simp [loopCode, renamePair, Instr.rename, hlabel "whilecond" (by decide),
    hlabel "whilebody" (by decide), hlabel "whileend" (by decide)]

mutual

theorem lowerStmt_tracks (hspare : ν.Spares σ) :
    ∀ s : Stmt, Tracks σ ν (renameCode ν.names) (lowerStmt σ s) (lowerStmt σ s)
  | .block _ body => by
    rw [lowerStmt]
    exact lowerStmts_tracks hspare body
  | .expr _ e => by
    rw [lowerStmt]
    exact lowerExprStmt_tracks hspare e
  | .assign _ target value => by
    rw [lowerStmt]
    exact lowerAssign_tracks hspare target value
  | .store _ target index value => by
    rw [lowerStmt]
    exact lowerStore_tracks hspare target index value
  | .ret _ value => by
    rw [lowerStmt]
    exact lowerReturn_tracks hspare value
  | .branch _ cond thenBody (some elseBody) => by
    rw [lowerStmt]
    refine tracks_freshLabel.bind fun n => ?_
    refine (lowerCondition_tracks hspare cond).bind fun test => ?_
    refine (lowerStmt_tracks hspare elseBody).bind fun elseCode => ?_
    refine (lowerStmt_tracks hspare thenBody).bind fun thenCode => .pure ?_
    exact rename_branchCode n test thenCode elseCode
  | .branch _ cond thenBody none => by
    rw [lowerStmt]
    refine tracks_freshLabel.bind fun n => ?_
    refine (lowerCondition_tracks hspare cond).bind fun test => ?_
    refine (lowerStmt_tracks hspare thenBody).bind fun thenCode => .pure ?_
    exact rename_branchCode n test thenCode []
  | .loop _ cond body => by
    rw [lowerStmt]
    refine tracks_freshLabel.bind fun n => ?_
    refine (lowerCondition_tracks hspare cond).bind fun test => ?_
    refine (lowerStmt_tracks hspare body).bind fun bodyCode => .pure ?_
    exact rename_loopCode n test bodyCode

theorem lowerStmts_tracks (hspare : ν.Spares σ) :
    ∀ body : List Stmt, Tracks σ ν (renameCode ν.names) (lowerStmts σ body) (lowerStmts σ body)
  | [] => by
    rw [lowerStmts]
    exact .pure rfl
  | s :: rest => by
    rw [lowerStmts]
    refine (lowerStmt_tracks hspare s).bind fun code => ?_
    refine (lowerStmts_tracks hspare rest).bind fun code' => .pure ?_
    exact Flat.renameCode_append ν.names code code'

end

end Statements

/-! ### Methods -/

section Methods

variable {σ : Scope} {ν : Renumbering} {decl : Source.Method}

theorem endsInReturn_rename (ρ : Renaming) (code : Code) :
    endsInReturn (renameCode ρ code) = endsInReturn code := by
  unfold endsInReturn renameCode
  rw [List.getLast?_map]
  cases code.getLast? with
  | none => rfl
  | some item =>
    cases item with
    | label name => rfl
    | instr i => exact Instr.isReturn_rename ρ i

theorem rename_closeBody (ρ : Renaming) (result : Ty) (code : Code) :
    renameCode ρ (closeBody result code) = closeBody result (renameCode ρ code) := by
  unfold closeBody
  rw [endsInReturn_rename]
  split
  · rw [Flat.renameCode_append]
    rfl
  · rfl

theorem rename_superInit (ρ : Renaming) (σ : Scope) : (superInit σ).rename ρ = superInit σ := by
  simp [superInit, Item.rename, Instr.rename, Scope.self, Operand.rename]

theorem lowerMethod_tracks {result : Ty} (hresult : methodResult σ decl = .ok result)
    (hspare : ν.Spares (methodScope σ decl result)) :
    Tracks (methodScope σ decl result) ν (Flat.Method.rename ν.names) (lowerMethod σ decl)
      (lowerMethod σ decl) := by
  unfold lowerMethod
  refine .ite .thrown ?_
  refine .lift fun result' hresult' => ?_
  obtain rfl := Except.ok.inj (hresult.symm.trans hresult')
  refine .lift fun params _ => ?_
  refine (lowerStmts_tracks hspare decl.body).bind fun body => .last fun m hm => ?_
  have hassembled := Flat.Method.assemble_rename ν.names hm
  rw [rename_closeBody, Flat.renameCode_append] at hassembled
  have hstart : renameCode ν.names (if decl.isConstructor then [superInit (methodScope σ decl result)]
      else []) = if decl.isConstructor then [superInit (methodScope σ decl result)] else [] := by
    split
    · exact congrArg (fun item => [item]) (rename_superInit ν.names _)
    · rfl
  rw [hstart] at hassembled
  exact hassembled

end Methods

/-! ### All counters -/

theorem lt_later (σ : Scope) (f : Fresh) (k : Nat) : σ.later f k < σ.later f (k + 1) := by
  induction k generalizing f with
  | zero => exact lt_nextTemp σ (σ.drawn f)
  | succ k ih => exact ih (σ.drawn f)

theorem le_later (σ : Scope) (f : Fresh) (k : Nat) : k ≤ σ.later f k := by
  induction k with
  | zero => exact Nat.zero_le _
  | succ k ih =>
    have hlt := lt_later σ f k
    omega

theorem later_injective (σ : Scope) (f : Fresh) : Function.Injective (σ.later f) :=
  (strictMono_nat_of_lt_succ (lt_later σ f)).injective

theorem isDeclared_later (σ : Scope) (f : Fresh) (k : Nat) :
    σ.symbols.isDeclared σ.method (tempName (σ.later f k)) = false := by
  induction k generalizing f with
  | zero => exact isDeclared_nextTemp σ f
  | succ k ih => exact ih (σ.drawn f)

/-- Finitely many numbers can be given any new ones, and numbers that play no part stay. -/
theorem exists_perm {a b : Nat → Nat} (ha : Function.Injective a) (hb : Function.Injective b)
    (n : Nat) : ∃ π : Equiv.Perm Nat, (∀ k < n, π (a k) = b k) ∧
      ∀ x, (∀ k, x ≠ a k) → (∀ k, x ≠ b k) → π x = x := by
  induction n with
  | zero => exact ⟨Equiv.refl Nat, by simp, by simp⟩
  | succ n ih =>
    obtain ⟨π, hmap, hfix⟩ := ih
    -- one more number is put right by a swap, which leaves those before it alone
    refine ⟨π.trans (Equiv.swap (π (a n)) (b n)), ?_, ?_⟩
    · intro k hk
      rw [Equiv.trans_apply]
      by_cases hkn : k = n
      · rw [hkn, Equiv.swap_apply_left]
      · have hmapped := hmap k (by omega)
        have hleft : b k ≠ π (a n) := by
          rw [← hmapped]
          exact fun h => hkn (ha (π.injective h))
        rw [hmapped, Equiv.swap_apply_of_ne_of_ne hleft fun h => hkn (hb h)]
    · intro x hxa hxb
      have hx := hfix x hxa hxb
      have hleft : x ≠ π (a n) := by
        intro h
        rw [← hx] at h
        exact hxa n (π.injective h)
      rw [Equiv.trans_apply, hx, Equiv.swap_apply_of_ne_of_ne hleft (hxb n)]

theorem exists_renumbering (σ : Scope) (hi f g : Fresh) :
    ∃ ν : Renumbering, ν.Spares σ ∧ Follows σ ν hi f g := by
  obtain ⟨temp, htemp, hspare⟩ :=
    exists_perm (later_injective σ f) (later_injective σ g) (hi.temps + 1)
  have hshift (n : Nat) : Function.Injective fun j => n + j := fun _ _ h => Nat.add_left_cancel h
  obtain ⟨label, hlabel, _⟩ := exists_perm (hshift f.labels) (hshift g.labels) hi.labels
  refine ⟨⟨temp, label⟩, ?_, ?_, ?_⟩
  · intro n hn
    have hne (f : Fresh) (k : Nat) : n ≠ σ.later f k := by
      rintro rfl
      rw [isDeclared_later] at hn
      cases hn
    exact hspare n (hne f) (hne g)
  · intro k hk
    have hle := le_later σ f k
    exact htemp k (by omega)
  · intro j hj
    exact hlabel j (by omega)

/-- A method that can be lowered can be lowered with all counters, and the result differs in the
numbers of temporaries and labels only. -/
theorem lowerMethod_renumbered {σ : Scope} {decl : Source.Method} {m : Flat.Method} {f f' : Fresh}
    (h : Yields (lowerMethod σ decl) f m f') (g : Fresh) :
    ∃ (ν : Renumbering) (g' : Fresh), (∀ result, ν.Spares (methodScope σ decl result)) ∧
      Yields (lowerMethod σ decl) g (m.rename ν.names) g' := by
  cases lowersMethod_of_yields h with
  | @method result params body _ _ _ hresult _ _ _ =>
    obtain ⟨ν, hspare, hfollow⟩ := exists_renumbering (methodScope σ decl result) f' f g
    obtain ⟨_, htrack⟩ := lowerMethod_tracks hresult hspare f m f' h
    obtain ⟨g', hg', _⟩ := htrack f' g (.refl f') hfollow
    exact ⟨ν, g', fun _ => hspare, hg'⟩

end JavaMinus.Lowering
