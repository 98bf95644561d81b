import JavaMinus.Proofs.Lowering.ClassDerivation
import JavaMinus.Proofs.Lowering.Shapes
import JavaMinus.Proofs.Lowering.Types

/-!
# Operands of lowered code

Where the operands of lowered code come from: from a variable that the program declares, from a
temporary, or from the current object. A temporary is drawn once and with one type, so a name has the
same type wherever it stands in a method. The current object is an operand only if the tree names it or
reads or writes a field.
-/

namespace JavaMinus.Source

/-! ### Uses of the current object -/

mutual

/-- The current object is named in the expression. -/
def Expr.usesSelf : Expr → Bool
  | .self _ => true
  | .intLit .. | .boolLit .. | .ident .. | .newObject .. => false
  | .paren _ e | .not _ e | .length _ e | .newArray _ e => e.usesSelf
  | .binary _ _ e e' | .index _ e e' => e.usesSelf || e'.usesSelf
  | .call _ e _ es => e.usesSelf || anyUsesSelf es
termination_by structural e => e

def anyUsesSelf : List Expr → Bool
  | [] => false
  | e :: es => e.usesSelf || anyUsesSelf es
termination_by structural es => es

end

theorem Expr.usesSelf_unparen (e : Expr) : e.unparen.usesSelf = e.usesSelf := by
  cases e with
  | paren _ e =>
    rw [Expr.unparen, Expr.usesSelf]
    exact usesSelf_unparen e
  | intLit | boolLit | ident | self | not | binary | index | length | call | newArray
  | newObject => rfl

mutual

def Stmt.usesSelf : Stmt → Bool
  | .block _ body => bodyUsesSelf body
  | .branch _ cond s none => cond.usesSelf || s.usesSelf
  | .branch _ cond s (some other) => cond.usesSelf || s.usesSelf || other.usesSelf
  | .loop _ cond s => cond.usesSelf || s.usesSelf
  | .expr _ e | .assign _ _ e | .ret _ (some e) => e.usesSelf
  | .store _ _ index e => index.usesSelf || e.usesSelf
  | .ret _ none => false
termination_by structural s => s

def bodyUsesSelf : List Stmt → Bool
  | [] => false
  | s :: rest => s.usesSelf || bodyUsesSelf rest
termination_by structural body => body

end

end JavaMinus.Source

namespace JavaMinus.Flat

/-! ### Operands of code -/

def Item.operands : Item → List Operand
  | .label _ => []
  | .instr i => i.operands

def operandsOf (code : Code) : List Operand :=
  code.flatMap Item.operands

@[simp] theorem operandsOf_nil : operandsOf [] = [] := rfl

@[simp] theorem operandsOf_append (c d : Code) : operandsOf (c ++ d) = operandsOf c ++ operandsOf d :=
  List.flatMap_append

@[simp] theorem operandsOf_label (name : String) (rest : Code) :
    operandsOf (.label name :: rest) = operandsOf rest := rfl

@[simp] theorem operandsOf_instr (i : Instr) (rest : Code) :
    operandsOf (.instr i :: rest) = i.operands ++ operandsOf rest := rfl

end JavaMinus.Flat

namespace JavaMinus.Lowering

open JavaMinus.Flat (Ty Operand Instr Item Code operandsOf)
open JavaMinus.Source (anyUsesSelf bodyUsesSelf)

/-! ### Origins -/

/-- Where an operand comes from. Temporaries have numbers above `lo` and up to `hi`, and `types` says
with which type each was drawn. The current object needs the permission `own`. -/
inductive Known (σ : Scope) (own : Prop) (types : Nat → Ty) (lo hi : Nat) : Operand → Prop
  | lit (value : Int32) (ty : Ty) : Known σ own types lo hi (.lit value ty)
  | cls (name : String) : Known σ own types lo hi (.classRef name)
  | elem (array index : Operand) (ty : Ty) : Known σ own types lo hi (.elem array index ty)
  | self (h : own) : Known σ own types lo hi σ.self
  | slot {name : String} {op : Operand} (h : σ.slotOperand? name = .ok (some op)) :
      Known σ own types lo hi op
  | temp {k : Nat} (hlo : lo < k) (hhi : k ≤ hi)
      (h : σ.symbols.isDeclared σ.method (tempName k) = false) :
      Known σ own types lo hi (.var (tempName k) (types k))

def Explained (σ : Scope) (own : Prop) (lo hi : Nat) (ops : List Operand) : Prop :=
  ∃ types, ∀ op ∈ ops, Known σ own types lo hi op

theorem Known.widen {σ : Scope} {own : Prop} {types types' : Nat → Ty} {lo hi lo' hi' : Nat}
    {op : Operand} (h : Known σ own types lo hi op) (hlo : lo' ≤ lo) (hhi : hi ≤ hi')
    (htypes : ∀ k, lo < k → k ≤ hi → types' k = types k) : Known σ own types' lo' hi' op := by
  cases h with
  | lit v ty => exact .lit v ty
  | cls name => exact .cls name
  | elem a i ty => exact .elem a i ty
  | self h => exact .self h
  | slot h => exact .slot h
  | temp hk hk' h =>
    rw [← htypes _ hk hk']
    exact .temp (by omega) (by omega) h

namespace Explained

variable {σ : Scope} {own : Prop} {lo mid hi : Nat} {ops ops' : List Operand} {f : Fresh}

theorem of_known {op : Operand} (h : ∀ types, Known σ own types lo hi op) :
    Explained σ own lo hi [op] := by
  refine ⟨fun _ => .void, fun p hp => ?_⟩
  obtain rfl := List.mem_singleton.mp hp
  exact h _

/-- An operand that is known without a look at the temporaries comes for free. -/
theorem cons {op : Operand} (h : Explained σ own lo hi ops)
    (hop : ∀ types, Known σ own types lo hi op) : Explained σ own lo hi (op :: ops) := by
  obtain ⟨types, hknown⟩ := h
  refine ⟨types, fun p hp => ?_⟩
  rcases List.mem_cons.mp hp with rfl | hp
  · exact hop types
  · exact hknown p hp

theorem nil : Explained σ own lo hi [] :=
  ⟨fun _ => .void, fun _ h => absurd h List.not_mem_nil⟩

theorem subset (h : Explained σ own lo hi ops) (hsub : ∀ op ∈ ops', op ∈ ops) :
    Explained σ own lo hi ops' := by
  obtain ⟨types, hknown⟩ := h
  exact ⟨types, fun op hop => hknown op (hsub op hop)⟩

/-- Temporaries drawn one after the other have different numbers, so both typings can be kept. -/
theorem append (h : Explained σ own lo mid ops) (h' : Explained σ own mid hi ops') (hlo : lo ≤ mid)
    (hhi : mid ≤ hi) : Explained σ own lo hi (ops ++ ops') := by
  obtain ⟨types, hknown⟩ := h
  obtain ⟨types', hknown'⟩ := h'
  refine ⟨fun k => if k ≤ mid then types k else types' k, fun op hop => ?_⟩
  rcases List.mem_append.mp hop with hop | hop
  · refine (hknown op hop).widen (Nat.le_refl _) hhi ?_
    intro k _ hk
    exact if_pos hk
  · refine (hknown' op hop).widen hlo (Nat.le_refl _) ?_
    intro k hk _
    exact if_neg (by omega)

theorem slot {name : String} {op : Operand} (h : σ.slotOperand? name = .ok (some op)) :
    Explained σ own lo hi op.parts := by
  have hparts : op.parts = [op] := by
    rcases slotOperand?_cases h with ⟨_, _, _, rfl⟩ | ⟨_, _, _, _, rfl⟩ <;> rfl
  rw [hparts]
  exact of_known fun _ => .slot h

theorem temp (f : Fresh) (ty : Ty) :
    Explained σ own f.temps (σ.drawn f).temps (σ.temp f ty).parts := by
  refine ⟨fun _ => ty, fun op hop => ?_⟩
  obtain rfl := List.mem_singleton.mp hop
  exact .temp (lt_nextTemp σ f) (Nat.le_refl _) (isDeclared_nextTemp σ f)

end Explained

theorem isStatic_of_fieldOperand? {σ : Scope} {name : String} {op : Operand}
    (h : σ.fieldOperand? name = .ok (some op)) : σ.isStatic = false := by
  unfold Scope.fieldOperand? at h
  split at h
  · cases hs : σ.isStatic with
    | false => rfl
    | true => simp [hs] at h
  · cases h

/-! ### Expressions -/

def Lowered.operands (l : Lowered) : List Operand :=
  operandsOf l.code ++ l.result.parts

def Piece.operands : Piece → List Operand
  | .expr _ _ l => l.operands
  | .receiver _ _ r => operandsOf r.code ++ r.target.parts
  | .args _ _ code ops => operandsOf code ++ ops.flatMap Operand.parts
  | .call _ _ _ _ code instr => operandsOf code ++ instr.operands

def Piece.usesSelf : Piece → Bool
  | .expr e _ _ | .receiver _ e _ => e.usesSelf
  | .args es _ _ _ => anyUsesSelf es
  | .call e _ es _ _ _ => e.usesSelf || anyUsesSelf es

section Expressions

variable {σ : Scope} {own : Prop} {f f' : Fresh} {lo : Nat}

theorem Explained.computed {code : Code} {rhs : Instr} (ty : Ty)
    (h : Explained σ own lo f.temps (operandsOf code ++ rhs.operands)) (hlo : lo ≤ f.temps) :
    Explained σ own lo (σ.drawn f).temps (Lowered.computed code (σ.temp f ty) rhs).operands := by
  refine (h.append (.temp f ty) hlo (Fresh.Upto.drawn σ f).temps).subset ?_
  intro op hop
  simp only [Lowered.operands, Lowered.computed, Instr.assignTo, Flat.operandsOf_append,
    Flat.operandsOf_instr, Flat.operandsOf_nil, Instr.operands, List.append_nil,
    List.mem_append] at hop ⊢
  tauto

theorem Explained.getField {name : String} {field : Operand} {hi : Nat}
    (h : σ.fieldOperand? name = .ok (some field)) (hown : σ.isStatic = false → own) :
    Explained σ own lo hi (operandsOf [] ++ (Instr.getField σ.self field).operands) :=
  .of_known fun _ => .self (hown (isStatic_of_fieldOperand? h))

theorem LowersName.explained {name : String} {l : Lowered} (h : LowersName σ name f l f')
    (hown : σ.isStatic = false → own) : Explained σ own f.temps f'.temps l.operands := by
  cases h with
  | slot hslot => exact .slot hslot
  | cls => exact .of_known fun _ => .cls name
  | field _ hfield => exact (Explained.getField hfield hown).computed _ (Nat.le_refl _)

theorem LowersIndex.explained {idx l : Lowered} (h : LowersIndex σ idx f l f') (hlo : lo ≤ f.temps)
    (hidx : Explained σ own lo f.temps idx.operands) : Explained σ own lo f'.temps l.operands := by
  cases h with
  | literal => exact hidx.computed _ hlo
  | other => exact hidx

theorem Explained.binary {l r : Lowered} {mid hi : Nat} (op : Source.BinOp)
    (hl : Explained σ own lo mid l.operands) (hr : Explained σ own mid hi r.operands)
    (hlo : lo ≤ mid) (hhi : mid ≤ hi) :
    Explained σ own lo hi
      (operandsOf (l.code ++ r.code) ++ (Instr.binary op l.result r.result).operands) := by
  refine (hl.append hr hlo hhi).subset ?_
  intro p hp
  simp only [Flat.operandsOf_append, Instr.operands, List.mem_append] at hp
  simp only [Lowered.operands, List.mem_append]
  grind

theorem Explained.elemValue {arr idx : Lowered} {mid hi : Nat} (elem : Ty)
    (harr : Explained σ own lo mid arr.operands) (hidx : Explained σ own mid hi idx.operands)
    (hlo : lo ≤ mid) (hhi : mid ≤ hi) :
    Explained σ own lo hi (operandsOf (arr.code ++ idx.code) ++
      (Instr.single (.elem arr.result idx.result elem)).operands) := by
  refine ((harr.append hidx hlo hhi).cons fun _ => .elem arr.result idx.result elem).subset ?_
  intro op hop
  simp only [Flat.operandsOf_append, Instr.operands, Operand.parts, List.mem_append,
    List.mem_cons] at hop
  simp only [Lowered.operands, List.mem_append, List.mem_cons]
  grind

theorem Explained.length {arr : Lowered} {hi : Nat} (h : Explained σ own lo hi arr.operands) :
    Explained σ own lo hi
      (operandsOf arr.code ++ (Instr.call .arrayLength arr.result none [] .int).operands) := by
  refine h.subset ?_
  intro op hop
  simpa [Instr.operands, Lowered.operands] using hop

theorem Explained.newArray {n : Lowered} {hi : Nat} (h : Explained σ own lo hi n.operands) :
    Explained σ own lo hi (operandsOf n.code ++
      (Instr.call .new (.classRef "array") none [n.result] .intArray).operands) := by
  refine (h.cons fun _ => .cls "array").subset ?_
  intro op hop
  simp only [Instr.operands, Operand.parts, List.flatMap_cons, List.flatMap_nil,
    List.append_nil, List.mem_append, List.mem_singleton] at hop
  simp only [Lowered.operands, List.mem_append, List.mem_cons]
  grind

theorem of_or {a b : Bool} (h : (a || b) = true → own) : (a = true → own) ∧ (b = true → own) :=
  ⟨fun ha => h (by simp [ha]), fun hb => h (by simp [hb])⟩

theorem Explained.construct {dest : Operand} {hi : Nat} (h : Explained σ own lo hi dest.parts)
    (cls : String) :
    Explained σ own lo hi (operandsOf (constructInto dest cls) ++ dest.parts) := by
  refine (h.cons fun _ => .cls cls).subset ?_
  intro op hop
  simp only [constructInto, Instr.assignTo, Flat.operandsOf_instr, Flat.operandsOf_nil,
    Instr.operands, Operand.parts, List.flatMap_nil, List.append_nil,
    List.mem_append, List.mem_singleton] at hop
  grind

theorem Explained.logical {op : Source.BinOp} {n hi : Nat} {dest : Operand} {l r : Lowered}
    (h : Explained σ own lo hi (l.operands ++ dest.parts ++ r.operands)) :
    Explained σ own lo hi (operandsOf (logicalCode op n dest l r) ++ dest.parts) := by
  have hskip : (skipTest op dest).operands = dest.parts := by
    unfold skipTest
    split <;> rfl
  refine h.subset ?_
  intro p hp
  simp only [logicalCode, Instr.assignTo, Flat.operandsOf_append, Flat.operandsOf_instr,
    Flat.operandsOf_label, Flat.operandsOf_nil, Instr.operands, hskip,
    List.append_nil, List.mem_append] at hp
  simp only [Lowered.operands, List.mem_append]
  grind

theorem Lowers.explained {p : Piece} (h : Lowers σ p f f') (hown : σ.isStatic = false → own)
    (hself : p.usesSelf = true → own) : Explained σ own f.temps f'.temps p.operands := by
  induction h with
  | int | bool => exact .of_known fun _ => .lit _ _
  | self => exact .of_known fun _ => .self (hself rfl)
  | selfReceiver hu =>
    refine .of_known fun _ => .self (hself ?_)
    rw [Piece.usesSelf, ← Source.Expr.usesSelf_unparen, hu]
    rfl
  | name h => exact h.explained hown
  | paren _ ih => exact ih hself
  | not h ih => exact (ih hself).computed _ h.upto.temps
  | @logical _ _ _ _ _ _ _ _ f₁ _ _ hl hr ihl ihr =>
    obtain ⟨hselfl, hselfr⟩ := of_or hself
    have hleft := (ihl hselfl).append (.temp f₁ .bool) hl.upto.temps (Fresh.Upto.drawn σ f₁).temps
    exact (hleft.append (ihr hselfr)
      (Nat.le_trans hl.upto.temps (Fresh.Upto.drawn σ f₁).temps) hr.upto.temps).logical
  | @binary _ op _ _ _ _ _ _ _ _ _ hl hr ihl ihr =>
    obtain ⟨hselfl, hselfr⟩ := of_or hself
    exact ((ihl hselfl).binary op (ihr hselfr) hl.upto.temps hr.upto.temps).computed _
      (hl.upto.trans hr.upto).temps
  | @index _ _ _ _ _ elem _ _ _ _ _ _ ha _ _ hi hidx iha ihi =>
    obtain ⟨hselfa, hselfi⟩ := of_or hself
    have hindex := hidx.explained hi.upto.temps (ihi hselfi)
    have hrest := hi.upto.trans hidx.upto
    exact ((iha hselfa).elemValue elem hindex ha.upto.temps hrest.temps).computed _
      (ha.upto.trans hrest).temps
  | length h ih => exact (ih hself).length.computed _ h.upto.temps
  | callValue h _ ih => exact (ih hself).computed _ h.upto.temps
  | newArray h ih => exact (ih hself).newArray.computed _ h.upto.temps
  | newObject => exact (Explained.temp _ _).construct _
  | classReceiver => exact .of_known fun _ => .cls _
  | valueReceiver _ _ _ _ _ ih => exact ih hself
  | noArgs => exact .nil
  | arg _ he hrest ihe ihrest =>
    obtain ⟨hselfe, hselfrest⟩ := of_or hself
    refine ((ihe hselfe).append (ihrest hselfrest) he.upto.temps hrest.upto.temps).subset ?_
    intro op hop
    simp only [Piece.operands, Flat.operandsOf_append, List.flatMap_cons, List.mem_append] at hop
    simp only [Piece.operands, Lowered.operands, List.mem_append]
    grind
  | call hr hargs _ ihr ihargs =>
    obtain ⟨hselfr, hselfargs⟩ := of_or hself
    refine ((ihr hselfr).append (ihargs hselfargs) hr.upto.temps hargs.upto.temps).subset ?_
    intro op hop
    simp only [Piece.operands, Flat.operandsOf_append, Instr.operands,
      List.mem_append] at hop
    simp only [Piece.operands, List.mem_append]
    grind

end Expressions

/-! ### Statements -/

section Statements

variable {σ : Scope} {own : Prop} {f f' : Fresh} {lo mid hi n : Nat} {test : Code × Instr}
  {c d : Code}

/-- What is left when the binding of a fresh result is taken off. -/
theorem Explained.binding {dest : Operand} {rhs : Instr}
    (h : Explained σ own lo hi (Lowered.computed c dest rhs).operands) :
    Explained σ own lo hi (operandsOf c ++ rhs.operands) := by
  refine h.subset ?_
  intro op hop
  simp only [Lowered.operands, Lowered.computed, Instr.assignTo, Flat.operandsOf_append,
    Flat.operandsOf_instr, Flat.operandsOf_nil, Instr.operands, List.append_nil, List.mem_append]
  rcases List.mem_append.mp hop with hop | hop
  · exact .inl (.inl hop)
  · exact .inl (.inr (.inr hop))

theorem LowersCond.explained {cond : Source.Expr} (h : LowersCond σ cond test f f')
    (hown : σ.isStatic = false → own) (hself : cond.usesSelf = true → own) :
    Explained σ own f.temps f'.temps (operandsOf test.1 ++ test.2.operands) := by
  cases h with
  | value h => exact h.explained hown hself
  | direct h _ => exact Explained.binding (h.explained hown hself)

/-- An assignment to a declared variable behind code. -/
theorem Explained.assign {name : String} {dest : Operand} {rhs : Instr}
    (hdest : σ.slotOperand? name = .ok (some dest))
    (h : Explained σ own lo hi (operandsOf c ++ rhs.operands)) (hlo : lo ≤ hi) :
    Explained σ own lo hi (operandsOf (c ++ [.instr (.assignTo dest rhs)])) := by
  refine (h.append (.slot hdest) hlo (Nat.le_refl hi)).subset ?_
  intro op hop
  simp only [Flat.operandsOf_append, Flat.operandsOf_instr, Flat.operandsOf_nil, Instr.assignTo,
    Instr.operands, List.append_nil, List.mem_append] at hop
  simp only [List.mem_append]
  grind

theorem Explained.branch (htest : Explained σ own lo mid (operandsOf test.1 ++ test.2.operands))
    (h : Explained σ own mid hi (operandsOf d ++ operandsOf c)) (hlo : lo ≤ mid) (hhi : mid ≤ hi) :
    Explained σ own lo hi (operandsOf (branchCode n test c d)) := by
  refine (htest.append h hlo hhi).subset ?_
  intro op hop
  simp only [branchCode, Flat.operandsOf_append, Flat.operandsOf_instr, Flat.operandsOf_label,
    Flat.operandsOf_nil, Instr.operands, List.append_nil, List.mem_append] at hop
  simp only [List.mem_append]
  grind

theorem Explained.loop (htest : Explained σ own lo mid (operandsOf test.1 ++ test.2.operands))
    (h : Explained σ own mid hi (operandsOf c)) (hlo : lo ≤ mid) (hhi : mid ≤ hi) :
    Explained σ own lo hi (operandsOf (loopCode n test c)) := by
  refine (htest.append h hlo hhi).subset ?_
  intro op hop
  simp only [loopCode, Flat.operandsOf_append, Flat.operandsOf_instr, Flat.operandsOf_label,
    Flat.operandsOf_nil, Instr.operands, List.append_nil, List.mem_append] at hop
  simp only [List.mem_append]
  grind

theorem LowersStmt.explained {s : Source.Stmt} {code : Code} (h : LowersStmt σ s f code f')
    (hown : σ.isStatic = false → own) (hself : s.usesSelf = true → own) :
    Explained σ own f.temps f'.temps (operandsOf code) := by
  induction h with
  | done | ret => exact .nil
  | seq hs hrest ihs ihrest =>
    obtain ⟨hselfs, hselfrest⟩ := of_or hself
    rw [Flat.operandsOf_append]
    exact (ihs hselfs).append (ihrest hselfrest) hs.upto.temps hrest.upto.temps
  | @callStmt _ e _ _ _ _ _ _ _ _ hu h =>
    refine (h.explained hown ?_).subset ?_
    · intro huses
      apply hself
      rw [Source.Stmt.usesSelf, ← Source.Expr.usesSelf_unparen, hu]
      exact huses
    · intro op hop
      simpa [Piece.operands] using hop
  | exprStmt _ h =>
    refine (h.explained hown ?_).subset ?_
    · intro huses
      apply hself
      rw [Source.Stmt.usesSelf, ← Source.Expr.usesSelf_unparen]
      exact huses
    · intro op hop
      exact List.mem_append_left _ hop
  | @assignNew _ _ _ _ _ cls _ _ hdest =>
    refine (Explained.construct (.slot hdest) cls).subset ?_
    intro op hop
    exact List.mem_append_left _ hop
  | assignCall hdest hu h =>
    refine .assign hdest (h.explained hown ?_) h.upto.temps
    intro huses
    apply hself
    rw [Source.Stmt.usesSelf, ← Source.Expr.usesSelf_unparen, hu]
    exact huses
  | retarget hdest h =>
    exact .assign hdest (Explained.binding (h.explained hown hself)) h.upto.temps
  | copy hdest h _ => exact .assign hdest (h.explained hown hself) h.upto.temps
  | putField _ hfield h =>
    have hobject := isStatic_of_fieldOperand? hfield
    refine ((h.explained hown hself).cons fun _ => .self (hown hobject)).subset ?_
    intro op hop
    simp only [Flat.operandsOf_append, Flat.operandsOf_instr, Flat.operandsOf_nil, Instr.operands,
      Scope.self, Operand.parts, List.append_nil, List.mem_append, List.mem_singleton] at hop
    simp only [Piece.operands, Lowered.operands, Scope.self, List.mem_append, List.mem_cons]
    grind
  | @store _ _ _ _ arr elem _ i _ _ _ _ _ _ harr _ _ hi hidx hv =>
    obtain ⟨hselfi, hselfv⟩ := of_or hself
    have hindex := hidx.explained hi.upto.temps (hi.explained hown hselfi)
    have hplace := (harr.explained hown).append hindex harr.upto.temps
      (hi.upto.trans hidx.upto).temps
    have hall := hplace.append (hv.explained hown hselfv)
      (harr.upto.trans (hi.upto.trans hidx.upto)).temps hv.upto.temps
    refine (hall.cons fun _ => .elem arr.result i.result elem).subset ?_
    intro op hop
    simp only [Flat.operandsOf_append, Flat.operandsOf_instr, Flat.operandsOf_nil, Instr.operands,
      Operand.parts, List.append_nil, List.mem_append, List.mem_cons] at hop
    simp only [Piece.operands, Lowered.operands, List.mem_append, List.mem_cons]
    grind
  | retValue h =>
    refine (h.explained hown hself).subset ?_
    intro op hop
    simpa [Piece.operands, Lowered.operands, Instr.operands] using hop
  | branch hcond hd hc ihd ihc =>
    obtain ⟨hself, hselfd⟩ := of_or hself
    obtain ⟨hselfcond, hselfc⟩ := of_or hself
    exact .branch (hcond.explained hown hselfcond)
      ((ihd hselfd).append (ihc hselfc) hd.upto.temps hc.upto.temps) hcond.upto.temps
      (hd.upto.trans hc.upto).temps
  | oneArmed hcond hc ihc =>
    obtain ⟨hselfcond, hselfc⟩ := of_or hself
    exact .branch (hcond.explained hown hselfcond) (ihc hselfc) hcond.upto.temps hc.upto.temps
  | loop hcond hc ihc =>
    obtain ⟨hselfcond, hselfc⟩ := of_or hself
    exact .loop (hcond.explained hown hselfcond) (ihc hselfc) hcond.upto.temps hc.upto.temps

end Statements

/-! ### Methods -/

section Methods

variable {σ : Scope} {own : Prop} {decl : Source.Method} {result : Ty} {m : Flat.Method}
  {f f' : Fresh} {lo hi : Nat}

theorem Explained.methodCode {body : Code}
    (h : Explained (methodScope σ decl result) own lo hi (operandsOf body))
    (hown : decl.isEntry = false → own) :
    Explained (methodScope σ decl result) own lo hi
      (operandsOf (methodCode σ decl result body)) := by
  have hclose (code : Code) : operandsOf (closeBody result code) = operandsOf code := by
    unfold closeBody
    split
    · simp [Instr.operands]
    · rfl
  unfold Lowering.methodCode
  rw [hclose]
  split
  · next hctor =>
    refine (h.cons fun _ => .self (hown ?_)).subset ?_
    · simp [Source.Method.isEntry, hctor]
    · intro op hop
      simpa [superInit, Instr.operands, Scope.self, Operand.parts] using hop
  · exact h

theorem mem_operandsOf_of_step {header : Flat.Header} {code : Code}
    (hm : Flat.Method.assemble header code = .ok m) {s : Flat.Step} (hs : s ∈ m.steps)
    {op : Operand} (hop : op ∈ s.instr.operands) : op ∈ operandsOf code := by
  rcases instr_of_assemble hm hs with hmem | hnop
  · exact List.mem_flatMap.mpr ⟨_, hmem, hop⟩
  · rw [hnop] at hop
    cases hop

/-- The operands of a method are explained in one scope, with one type for each temporary. -/
theorem LowersMethod.explained (h : LowersMethod σ decl f m f')
    (hown : decl.isEntry = false → own) (hself : bodyUsesSelf decl.body = true → own) :
    ∃ result types, ∀ s ∈ m.steps, ∀ op ∈ s.instr.operands,
      Known (methodScope σ decl result) own types f.temps f'.temps op := by
  cases h with
  | @method result params body _ _ _ _ _ hbody hm =>
    obtain ⟨types, hknown⟩ := (hbody.explained hown hself).methodCode hown
    exact ⟨result, types, fun s hs op hop => hknown op (mem_operandsOf_of_step hm hs hop)⟩

theorem defaultConstructor_explained (h : defaultConstructor σ = .ok m) {s : Flat.Step}
    (hs : s ∈ m.steps) : ∀ op ∈ s.instr.operands, op = σ.self := by
  intro op hop
  have hmem := mem_operandsOf_of_step h hs hop
  simpa [superInit, Instr.operands, Scope.self, Operand.parts] using hmem

end Methods

/-! ### Types -/

section Types

variable {σ : Scope} {own : Prop} {types : Nat → Ty} {lo hi : Nat} {op op' : Operand} {name : String}

/-- In this scope the name is declared with the type of the operand, or it is that of a temporary which
was drawn with this type. -/
def Typed (σ : Scope) (types : Nat → Ty) (name : String) (op : Operand) : Prop :=
  (∃ b, σ.symbols.resolve? σ.method name = some b ∧ σ.typeOf b.symbol.type = .ok op.ty) ∨
    (σ.symbols.isDeclared σ.method name = false ∧ ∃ k, name = tempName k ∧ op.ty = types k)

theorem Known.typed (h : Known σ own types lo hi op) (hname : op.name? = some name) :
    Typed σ types name op := by
  cases h with
  | lit | cls | elem | self => simp [Operand.name?, Scope.self] at hname
  | slot hslot =>
    obtain rfl := Option.some.inj ((name?_of_slot hslot).symm.trans hname)
    obtain ⟨b, hb, _, hty⟩ := slotOperand?_type hslot
    exact .inl ⟨b, hb, hty⟩
  | @temp k _ _ hfree =>
    obtain rfl : tempName k = name := Option.some.inj hname
    exact .inr ⟨hfree, k, rfl, rfl⟩

/-- A name stands for one variable with one type. -/
theorem Typed.ty_eq (h : Typed σ types name op) (h' : Typed σ types name op') : op.ty = op'.ty := by
  rcases h with ⟨b, hb, hty⟩ | ⟨hfree, k, rfl, hty⟩
  · rcases h' with ⟨b', hb', hty'⟩ | ⟨hfree, _⟩
    · obtain rfl : b = b' := Option.some.inj (hb.symm.trans hb')
      exact Except.ok.inj (hty.symm.trans hty')
    · simp [Source.SymbolTable.isDeclared, hb] at hfree
  · rcases h' with ⟨b', hb', _⟩ | ⟨_, k', hk, hty'⟩
    · simp [Source.SymbolTable.isDeclared, hb'] at hfree
    · obtain rfl := tempName_inj hk
      rw [hty, hty']

end Types

end JavaMinus.Lowering
