import JavaMinus.Proofs.Compilation
import JavaMinus.Proofs.Lowering.FieldOperands
import JavaMinus.Proofs.Lowering.Instructions

/-!
# Three-address form

What is composed in the tree is taken apart in lowered code: the operands of an instruction are names,
literals and the like, and an array element is only ever moved to or from a variable, by an assignment
of its own. The result of an expression is never an array element, so no place that an expression can
stand in brings one into another instruction.
-/

namespace JavaMinus.Flat

def Operand.isElem : Operand → Bool
  | .elem .. => true
  | _ => false

def Operand.isVariable : Operand → Bool
  | .var .. | .param .. => true
  | _ => false

/-- What can stand on the right of an assignment. -/
def Instr.isComputation : Instr → Bool
  | .single _ | .binary .. | .not _ | .call .. | .getField .. => true
  | _ => false

/-- What a branch can test. -/
def Instr.isCondition : Instr → Bool
  | .binary op _ _ => op.isComparison
  | .not _ | .single _ => true
  | _ => false

/-- An array element whose array is a variable and whose index is neither a literal nor an element. -/
structure SimpleElem (array index : Operand) (ty : Ty) : Prop where
  held : array.isVariable = true
  type : array.ty = .array ty
  named : index.isLiteral = false ∧ index.isElem = false

/-- Three-address form of an instruction. -/
structure ThreeAddress (i : Instr) : Prop where
  /-- An array element is the destination of an assignment or all of its right side. -/
  place : ∀ array index ty, .elem array index ty ∈ i.mentions →
    (∃ ty' rhs, i = .assign (.elem array index ty) ty' rhs) ∨
      ∃ dest ty', i = .assign dest ty' (.single (.elem array index ty))
  once : i.mentions.countP Operand.isElem ≤ 1
  elem : ∀ array index ty, .elem array index ty ∈ i.mentions → SimpleElem array index ty
  assign : ∀ dest ty rhs, i = .assign dest ty rhs → ty = dest.ty ∧ rhs.isComputation = true
  test : ∀ cond label, i = .branch cond label → cond.isCondition = true

/-! ### Operands that are no elements -/

/-- No array element among the operands. -/
def Plain (ops : List Operand) : Prop :=
  ∀ op ∈ ops, op.isElem = false

namespace Plain

variable {ops ops' : List Operand} {op : Operand}

theorem append (h : Plain ops) (h' : Plain ops') : Plain (ops ++ ops') :=
  List.forall_mem_append.mpr ⟨h, h'⟩

theorem not_elem (h : Plain ops) {array index : Operand} {ty : Ty} :
    .elem array index ty ∉ ops := by
  intro hmem
  cases h _ hmem

theorem countP (h : Plain ops) : ops.countP Operand.isElem = 0 :=
  List.countP_eq_zero.mpr fun op hop => by simp [h op hop]

end Plain

theorem Operand.parts_of_not_elem {op : Operand} (h : op.isElem = false) : op.parts = [op] := by
  cases op with
  | elem => cases h
  | lit | var | param | self | classRef => rfl

theorem Plain.parts {op : Operand} (h : op.isElem = false) : Plain op.parts := by
  rw [Operand.parts_of_not_elem h]
  simpa [Plain] using h

theorem Plain.flatMap_parts {ops : List Operand} (h : Plain ops) :
    Plain (ops.flatMap Operand.parts) := by
  intro p hp
  obtain ⟨op, hop, hp⟩ := List.mem_flatMap.mp hp
  exact Plain.parts (h op hop) p hp

section Elements

variable {array index a b : Operand} {ty t : Ty}

theorem SimpleElem.inner (h : SimpleElem array index ty) : Plain (array.parts ++ index.parts) := by
  have hheld := h.held
  cases array with
  | var | param => exact (Plain.parts rfl).append (Plain.parts h.named.2)
  | lit | elem | self | classRef => cases hheld

theorem SimpleElem.countP_parts (h : SimpleElem array index ty) :
    (Operand.elem array index ty).parts.countP Operand.isElem = 1 := by
  rw [Operand.parts, List.countP_cons_of_pos rfl, h.inner.countP]

theorem SimpleElem.mem_parts (h : SimpleElem array index ty)
    (hmem : .elem a b t ∈ (Operand.elem array index ty).parts) :
    Operand.elem a b t = .elem array index ty := by
  rcases List.mem_cons.mp hmem with heq | hinner
  · exact heq
  · exact absurd hinner h.inner.not_elem

end Elements

/-! ### Forms of instructions -/

@[simp] theorem Instr.mentions_assignTo (dest : Operand) (rhs : Instr) :
    (Instr.assignTo dest rhs).mentions = dest.parts ++ rhs.mentions := by
  simp [assignTo, mentions, operands, fields]

@[simp] theorem Instr.mentions_branch (cond : Instr) (label : String) :
    (Instr.branch cond label).mentions = cond.mentions := rfl

@[simp] theorem Instr.mentions_single (op : Operand) : (Instr.single op).mentions = op.parts :=
  List.append_nil _

section Mentions

variable {op lhs rhs target : Operand} {args : List Operand}

theorem Plain.single (h : op.isElem = false) : Plain (Instr.single op).mentions := by
  rw [Instr.mentions_single]
  exact .parts h

theorem Plain.not (h : op.isElem = false) : Plain (Instr.not op).mentions :=
  (Plain.parts h).append (List.forall_mem_nil _)

theorem Plain.binary (hlhs : lhs.isElem = false) (hrhs : rhs.isElem = false) (op : Source.BinOp) :
    Plain (Instr.binary op lhs rhs).mentions :=
  ((Plain.parts hlhs).append (.parts hrhs)).append (List.forall_mem_nil _)

theorem Plain.call (htarget : target.isElem = false) (hargs : Plain args) (invocation : Invocation)
    (method : Option String) (ret : Ty) :
    Plain (Instr.call invocation target method args ret).mentions :=
  ((Plain.parts htarget).append hargs.flatMap_parts).append (List.forall_mem_nil _)

end Mentions

namespace ThreeAddress

variable {i rhs cond : Instr} {dest temp array index value : Operand} {ty : Ty} {label : String}

/-- Neither an assignment nor a branch, and no array element in it. -/
theorem of_plain (hplain : Plain i.mentions) (hassign : ∀ dest ty rhs, i ≠ .assign dest ty rhs)
    (hbranch : ∀ cond label, i ≠ .branch cond label) : ThreeAddress i where
  place _ _ _ hmem := absurd hmem hplain.not_elem
  once := by
    rw [hplain.countP]
    exact Nat.zero_le 1
  elem _ _ _ hmem := absurd hmem hplain.not_elem
  assign dest ty rhs h := absurd h (hassign dest ty rhs)
  test cond label h := absurd h (hbranch cond label)

theorem goto (label : String) : ThreeAddress (.goto label) :=
  of_plain (List.forall_mem_nil _) (by simp) (by simp)

theorem ret_none : ThreeAddress (.ret none) :=
  of_plain (List.forall_mem_nil _) (by simp) (by simp)

theorem nop : ThreeAddress .nop :=
  of_plain (List.forall_mem_nil _) (by simp) (by simp)

theorem init (h : dest.isElem = false) :
    ThreeAddress (.call .special dest (some "<init>") [] .void) :=
  of_plain (.call h (List.forall_mem_nil _) _ _ _) (by simp) (by simp)

theorem branch (hplain : Plain cond.mentions) (hcond : cond.isCondition = true) :
    ThreeAddress (.branch cond label) where
  place _ _ _ hmem := absurd hmem hplain.not_elem
  once := by
    rw [Instr.mentions_branch, hplain.countP]
    exact Nat.zero_le 1
  elem _ _ _ hmem := absurd hmem hplain.not_elem
  assign _ _ _ h := by cases h
  test cond' label' h := by
    obtain ⟨rfl, rfl⟩ := Instr.branch.inj h
    exact hcond

theorem of_assign (hrhs : rhs.isComputation = true)
    (helem : ∀ array index ty, .elem array index ty ∈ dest.parts ++ rhs.mentions →
      SimpleElem array index ty ∧ (dest = .elem array index ty ∨ rhs = .single (.elem array index ty)))
    (honce : (dest.parts ++ rhs.mentions).countP Operand.isElem ≤ 1) :
    ThreeAddress (.assignTo dest rhs) where
  place array index ty hmem := by
    rw [Instr.mentions_assignTo] at hmem
    rcases (helem array index ty hmem).2 with rfl | rfl
    · exact .inl ⟨_, _, rfl⟩
    · exact .inr ⟨_, _, rfl⟩
  once := by
    rw [Instr.mentions_assignTo]
    exact honce
  elem array index ty hmem := by
    rw [Instr.mentions_assignTo] at hmem
    exact (helem array index ty hmem).1
  assign _ _ _ h := by
    obtain ⟨rfl, rfl, rfl⟩ := Instr.assign.inj h
    exact ⟨rfl, hrhs⟩
  test _ _ h := by cases h

theorem compute (hdest : dest.isElem = false) (hrhs : rhs.isComputation = true)
    (hplain : Plain rhs.mentions) : ThreeAddress (.assignTo dest rhs) := by
  have hall := (Plain.parts hdest).append hplain
  refine of_assign hrhs (fun _ _ _ hmem => absurd hmem hall.not_elem) ?_
  rw [hall.countP]
  exact Nat.zero_le 1

theorem load (hdest : dest.isElem = false) (h : SimpleElem array index ty) :
    ThreeAddress (.assignTo dest (.single (.elem array index ty))) := by
  refine of_assign rfl ?_ ?_
  · intro a b t hmem
    rw [Instr.mentions_single] at hmem
    rcases List.mem_append.mp hmem with hmem | hmem
    · exact absurd hmem (Plain.parts hdest).not_elem
    · cases h.mem_parts hmem
      exact ⟨h, .inr rfl⟩
  · refine Nat.le_of_eq ?_
    rw [Instr.mentions_single, List.countP_append, (Plain.parts hdest).countP, h.countP_parts]

theorem store (h : SimpleElem array index ty) (hvalue : value.isElem = false) :
    ThreeAddress (.assignTo (.elem array index ty) (.single value)) := by
  refine of_assign rfl ?_ ?_
  · intro a b t hmem
    rw [Instr.mentions_single] at hmem
    rcases List.mem_append.mp hmem with hmem | hmem
    · cases h.mem_parts hmem
      exact ⟨h, .inl rfl⟩
    · exact absurd hmem (Plain.parts hvalue).not_elem
  · refine Nat.le_of_eq ?_
    rw [Instr.mentions_single, List.countP_append, (Plain.parts hvalue).countP, h.countP_parts]

/-- An element on the right of an assignment to a variable is all that is there. -/
theorem rhs_elem (h : ThreeAddress (.assignTo temp rhs)) (htemp : temp.isElem = false)
    (hmem : .elem array index ty ∈ rhs.mentions) :
    SimpleElem array index ty ∧ rhs = .single (.elem array index ty) := by
  have hmentions : .elem array index ty ∈ (Instr.assignTo temp rhs).mentions := by
    rw [Instr.mentions_assignTo]
    exact List.mem_append_right _ hmem
  refine ⟨h.elem _ _ _ hmentions, ?_⟩
  rcases h.place _ _ _ hmentions with ⟨_, _, heq⟩ | ⟨_, _, heq⟩
  · cases heq
    cases htemp
  · exact (Instr.assign.inj heq).2.2

/-- Another variable may take the value. -/
theorem retarget (h : ThreeAddress (.assignTo temp rhs)) (htemp : temp.isElem = false)
    (hdest : dest.isElem = false) : ThreeAddress (.assignTo dest rhs) := by
  refine of_assign (h.assign _ _ _ rfl).2 ?_ ?_
  · intro array index ty hmem
    rcases List.mem_append.mp hmem with hmem | hmem
    · exact absurd hmem (Plain.parts hdest).not_elem
    · obtain ⟨hsimple, hrhs⟩ := h.rhs_elem htemp hmem
      exact ⟨hsimple, .inr hrhs⟩
  · have honce := h.once
    rw [Instr.mentions_assignTo, List.countP_append, (Plain.parts htemp).countP] at honce
    rw [List.countP_append, (Plain.parts hdest).countP]
    exact honce

/-- A comparison or negation may be tested where it is computed. -/
theorem tested (h : ThreeAddress (.assignTo temp rhs)) (htemp : temp.isElem = false)
    (hcond : rhs.isCondition = true) (hsingle : ∀ op, rhs ≠ .single op) :
    ThreeAddress (.branch rhs label) := by
  refine branch (fun op hop => ?_) hcond
  cases op with
  | elem => exact absurd (h.rhs_elem htemp hop).2 (hsingle _)
  | lit | var | param | self | classRef => rfl

end ThreeAddress

end JavaMinus.Flat

namespace JavaMinus.Lowering

open JavaMinus.Flat (Ty Operand Instr Code Plain SimpleElem ThreeAddress)
open JavaMinus.Source (CompilationUnit)

/-! ### Code -/

def Flattened (code : Code) : Prop :=
  Every ThreeAddress code

namespace Flattened

variable {c d : Code} {dest : Operand} {n : Nat} {test : Code × Instr}

theorem construct (hdest : dest.isElem = false) (cls : String) :
    Flattened (constructInto dest cls) := by
  have hnew : ThreeAddress (.assignTo dest (.call .new (.classRef cls) none [] dest.ty)) :=
    .compute hdest rfl (.call rfl (List.forall_mem_nil _) _ _ _)
  exact Every.construct hnew (.init hdest)

theorem logical {op : Source.BinOp} {l r : Lowered} (hdest : dest.isElem = false)
    (hl : Flattened l.code) (hlres : l.result.isElem = false) (hr : Flattened r.code)
    (hrres : r.result.isElem = false) : Flattened (logicalCode op n dest l r) := by
  have hcopy {src : Operand} (hsrc : src.isElem = false) :
      ThreeAddress (.assignTo dest (.single src)) :=
    .compute hdest rfl (.single hsrc)
  have hskip : ThreeAddress (.branch (skipTest op dest) (skipLabel op n)) := by
    unfold skipTest
    split
    · exact .branch (.not hdest) rfl
    · exact .branch (.single hdest) rfl
  exact Every.logical hl hr (hcopy hlres) hskip (hcopy hrres)

end Flattened

/-- The code is flat, and what the piece hands on to the place around it holds no array element. -/
def Piece.Flattened : Piece → Prop
  | .expr _ _ l => Lowering.Flattened l.code ∧ l.result.isElem = false
  | .receiver _ _ r => Lowering.Flattened r.code ∧ r.target.isElem = false
  | .args _ _ code ops => Lowering.Flattened code ∧ Plain ops
  | .call _ _ _ _ code instr =>
    Lowering.Flattened code ∧ instr.isComputation = true ∧ Plain instr.mentions

section Rules

variable {σ : Scope} {f f' : Fresh}

theorem isElem_slot {name : String} {op : Operand} (h : σ.slotOperand? name = .ok (some op)) :
    op.isElem = false := by
  rcases slotOperand?_cases h with ⟨_, _, _, rfl⟩ | ⟨_, _, _, _, rfl⟩ <;> rfl

theorem Flattened.computed {code : Code} {rhs : Instr} (ty : Ty) (hc : Flattened code)
    (hrhs : ThreeAddress (.assignTo (σ.temp f ty) rhs)) :
    Flattened (Lowered.computed code (σ.temp f ty) rhs).code ∧
      (Lowered.computed code (σ.temp f ty) rhs).result.isElem = false :=
  ⟨hc.snoc hrhs, rfl⟩

theorem LowersName.flattened {name : String} {l : Lowered} (h : LowersName σ name f l f') :
    Flattened l.code ∧ l.result.isElem = false := by
  cases h with
  | slot hslot => exact ⟨.nil, isElem_slot hslot⟩
  | cls => exact ⟨.nil, rfl⟩
  | field _ hfield =>
    obtain ⟨_, ty, _, rfl⟩ := fieldOperand?_cases hfield
    have hplain : Plain [σ.self, .var name ty] := by simp [Plain, Operand.isElem, Scope.self]
    exact Flattened.computed _ .nil (.compute rfl rfl hplain)

theorem LowersIndex.flattened {idx l : Lowered} (h : LowersIndex σ idx f l f')
    (hidx : Flattened idx.code ∧ idx.result.isElem = false) :
    Flattened l.code ∧ l.result.isLiteral = false ∧ l.result.isElem = false := by
  cases h with
  | literal =>
    exact ⟨hidx.1.snoc (.compute rfl rfl (.single hidx.2)), rfl, rfl⟩
  | other hlit => exact ⟨hidx.1, hlit, hidx.2⟩

theorem simpleElem_of_slot {kind : String} {array index : Operand} {ty : Ty}
    (hslot : requireSlot kind array = .ok ()) (htype : elementType array = .ok ty)
    (hindex : index.isLiteral = false ∧ index.isElem = false) : SimpleElem array index ty := by
  refine ⟨?_, ?_, hindex⟩
  · cases array with
    | var | param => rfl
    | lit | elem | self | classRef => cases hslot
  · unfold elementType at htype
    split at htype
    · next hty =>
      cases htype
      exact hty
    · cases htype

theorem Lowers.flattened {p : Piece} (h : Lowers σ p f f') : p.Flattened := by
  induction h with
  | int | bool | self => exact ⟨.nil, rfl⟩
  | name h => exact h.flattened
  | paren _ ih => exact ih
  | not _ ih => exact ih.1.computed _ (.compute rfl rfl (.not ih.2))
  | logical _ _ _ ihl ihr => exact ⟨.logical rfl ihl.1 ihl.2 ihr.1 ihr.2, rfl⟩
  | binary _ _ _ ihl ihr =>
    exact Flattened.computed _ (ihl.1.append ihr.1) (.compute rfl rfl (.binary ihl.2 ihr.2 _))
  | index _ hslot htype _ hidx iha ihi =>
    obtain ⟨hcode, hindex⟩ := hidx.flattened ihi
    have hload := simpleElem_of_slot hslot htype hindex
    exact Flattened.computed _ (iha.1.append hcode) (.load rfl hload)
  | length _ ih =>
    exact ih.1.computed _ (.compute rfl rfl (.call ih.2 (List.forall_mem_nil _) _ _ _))
  | callValue _ _ ih => exact ih.1.computed _ (.compute rfl ih.2.1 ih.2.2)
  | newArray _ ih =>
    exact ih.1.computed _ (.compute rfl rfl (.call rfl (List.forall_mem_singleton.mpr ih.2) _ _ _))
  | newObject => exact ⟨.construct rfl _, rfl⟩
  | selfReceiver | classReceiver => exact ⟨.nil, rfl⟩
  | valueReceiver _ _ _ _ _ ih => exact ih
  | noArgs => exact ⟨.nil, List.forall_mem_nil _⟩
  | arg _ _ _ ihe ihrest =>
    exact ⟨ihe.1.append ihrest.1, List.forall_mem_cons.mpr ⟨ihe.2, ihrest.2⟩⟩
  | call _ _ _ ihr ihargs =>
    exact ⟨ihr.1.append ihargs.1, rfl, .call ihr.2 ihargs.2 _ _ _⟩

/-! ### Statements -/

/-- The destination of a fresh result is a temporary. -/
theorem Lowers.binding {e : Source.Expr} {hint : Option Ty} {code : Code} {temp : Operand}
    {rhs : Instr} (h : Lowers σ (.expr e hint (.computed code temp rhs)) f f') :
    Flattened code ∧ ThreeAddress (.assignTo temp rhs) ∧ temp.isElem = false := by
  obtain ⟨hcode, htemp⟩ := h.flattened
  obtain ⟨hcode, hlast⟩ := hcode.init
  exact ⟨hcode, hlast, htemp⟩

theorem isCondition_of_isTest {i : Instr} (h : isTest i = true) :
    i.isCondition = true ∧ ∀ op, i ≠ .single op := by
  cases i with
  | binary | not => exact ⟨h, by simp⟩
  | assign | call | ret | goto | branch | getField | putField | single | nop => cases h

theorem LowersCond.flattened {cond : Source.Expr} {test : Code × Instr}
    (h : LowersCond σ cond test f f') :
    Flattened test.1 ∧ ∀ label, ThreeAddress (.branch test.2 label) := by
  cases h with
  | direct h htest =>
    obtain ⟨hcode, hlast, htemp⟩ := h.binding
    obtain ⟨hcond, hsingle⟩ := isCondition_of_isTest htest
    exact ⟨hcode, fun _ => hlast.tested htemp hcond hsingle⟩
  | value h =>
    obtain ⟨hcode, hresult⟩ := h.flattened
    exact ⟨hcode, fun _ => .branch (.single hresult) rfl⟩

theorem LowersStmt.flattened {s : Source.Stmt} {code : Code} (h : LowersStmt σ s f code f') :
    Flattened code := by
  induction h with
  | done => exact .nil
  | seq _ _ ihs ihrest => exact ihs.append ihrest
  | callStmt _ h =>
    obtain ⟨hcode, hkind, hplain⟩ := h.flattened
    refine hcode.snoc (.of_plain hplain ?_ ?_)
    · rintro _ _ _ rfl
      cases hkind
    · rintro _ _ rfl
      cases hkind
  | exprStmt _ h => exact h.flattened.1
  | assignNew hdest => exact .construct (isElem_slot hdest) _
  | assignCall hdest _ h =>
    obtain ⟨hcode, hkind, hplain⟩ := h.flattened
    exact hcode.snoc (.compute (isElem_slot hdest) hkind hplain)
  | retarget hdest h =>
    obtain ⟨hcode, hlast, htemp⟩ := h.binding
    exact hcode.snoc (hlast.retarget htemp (isElem_slot hdest))
  | copy hdest h _ =>
    obtain ⟨hcode, hresult⟩ := h.flattened
    exact hcode.snoc (.compute (isElem_slot hdest) rfl (.single hresult))
  | putField _ hfield h =>
    obtain ⟨hcode, hresult⟩ := h.flattened
    obtain ⟨_, ty, _, rfl⟩ := fieldOperand?_cases hfield
    have hself : Plain σ.self.parts := .parts rfl
    refine hcode.snoc (.of_plain ((hself.append (.parts hresult)).append ?_) (by simp) (by simp))
    exact List.forall_mem_singleton.mpr rfl
  | store harr hslot htype hi hidx hv =>
    obtain ⟨hcode, hindex⟩ := hidx.flattened hi.flattened
    obtain ⟨hvcode, hvalue⟩ := hv.flattened
    have hall := (harr.flattened.1.append hcode).append hvcode
    exact hall.snoc (.store (simpleElem_of_slot hslot htype hindex) hvalue)
  | ret => exact Every.nil.instr .ret_none
  | retValue h =>
    obtain ⟨hcode, hresult⟩ := h.flattened
    have hplain := (Plain.parts hresult).append (List.forall_mem_nil _)
    exact hcode.snoc (.of_plain hplain (by simp) (by simp))
  | branch hcond _ _ ihd ihc =>
    obtain ⟨htest, hbranch⟩ := hcond.flattened
    exact .branch htest ihc ihd hbranch .goto
  | oneArmed hcond _ ihc =>
    obtain ⟨htest, hbranch⟩ := hcond.flattened
    exact .branch htest ihc .nil hbranch .goto
  | loop hcond _ ihc =>
    obtain ⟨htest, hbranch⟩ := hcond.flattened
    exact .loop htest ihc hbranch .goto

end Rules

/-- Lowered code is in three-address form. -/
theorem lowerUnit_three_address (u : CompilationUnit) (cls : Flat.Class)
    (h : lowerUnit u = .ok cls) : ∀ m ∈ cls.methods, ∀ s ∈ m.steps, ThreeAddress s.instr := by
  intro m hm
  rcases (lowersClass_of_lowerUnit h).method_cases hm with hctor | ⟨decl, _, f, f', hlow⟩
  · exact (Every.nil.instr (.init rfl)).steps .nop hctor
  · cases hlow with
    | method _ _ _ hbody hm =>
      exact (hbody.flattened.methodCode (.init rfl) .ret_none).steps .nop hm

/-- `void wrap(int[] a) { a[0] = a[a.length - 1]; }` -/
def wrapUnit : CompilationUnit where
  program.cls.name := "Ring"
  program.cls.methods := [
    { name := "wrap", access := .pub
      body := [.store {} "a" (.intLit {} 0) (.index {} (.ident {} "a")
        (.binary {} .sub (.length {} (.ident {} "a")) (.intLit {} 1)))] }]
  symbols.className := "Ring"
  symbols.methods := [
    { name := "wrap", returnType := { name := "void" }
      parameters := [{ name := "a", type := { name := "int", isArray := true } }] }]

/-- One element is moved to another through a temporary. -/
theorem lowerUnit_three_address_wrap :
    ∃ cls m, lowerUnit wrapUnit = .ok cls ∧ m ∈ cls.methods ∧
      (∃ s ∈ m.steps, s.instr = .assignTo (.var "t4" .int)
        (.single (.elem (.param 1 "a" .intArray) (.var "t3" .int) .int)) ∧ ThreeAddress s.instr) ∧
      ∃ s ∈ m.steps, s.instr = .assignTo (.elem (.param 1 "a" .intArray) (.var "t1" .int) .int)
        (.single (.var "t4" .int)) ∧ ThreeAddress s.instr := by
  have hlowered : (lowerUnit wrapUnit).toOption.any (fun cls => cls.methods.any fun m =>
      (m.steps.any fun s => s.instr = .assignTo (.var "t4" .int)
        (.single (.elem (.param 1 "a" .intArray) (.var "t3" .int) .int))) &&
      m.steps.any fun s => s.instr = .assignTo (.elem (.param 1 "a" .intArray) (.var "t1" .int) .int)
        (.single (.var "t4" .int))) = true := by
    decide +kernel
  cases hcls : lowerUnit wrapUnit with
  | error e => simp [hcls, Except.toOption] at hlowered
  | ok cls =>
    simp only [hcls, Except.toOption, Option.any_some, List.any_eq_true, Bool.and_eq_true,
      decide_eq_true_eq] at hlowered
    obtain ⟨m, hm, ⟨s, hs, hload⟩, s', hs', hstore⟩ := hlowered
    have hform := lowerUnit_three_address wrapUnit cls hcls m hm
    exact ⟨cls, m, rfl, hm, ⟨s, hs, hload, hform s hs⟩, s', hs', hstore, hform s' hs'⟩

end JavaMinus.Lowering
