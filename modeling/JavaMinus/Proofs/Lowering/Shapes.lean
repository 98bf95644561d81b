import JavaMinus.Proofs.Assembly.Outcomes
import JavaMinus.Proofs.Lowering.Cells
import JavaMinus.Proofs.Lowering.Instructions
import JavaMinus.Proofs.Slots.Storage

/-!
# Shapes of lowered code

Lowering builds no instruction that assembly has no form for: values are values, destinations can be
assigned to, calls have a name and a target of the right kind, and fields are named by variables. The
parameters that lowered code mentions are parameters of its method.
-/

namespace JavaMinus.Lowering

open JavaMinus.Flat (Ty Operand Instr Item Code Param attachLabels)

/-- The parameters among the operands belong to the method at hand. -/
def ParamsOf (σ : Scope) (ops : List Operand) : Prop :=
  ∀ op ∈ ops, ∀ name ∈ op.paramName?, HasParam σ.symbols σ.method name

namespace ParamsOf

variable {σ : Scope} {ops ops' : List Operand}

theorem nil : ParamsOf σ [] :=
  fun _ hop => absurd hop List.not_mem_nil

theorem append (h : ParamsOf σ ops) (h' : ParamsOf σ ops') : ParamsOf σ (ops ++ ops') := by
  intro op hop
  rcases List.mem_append.mp hop with hop | hop
  · exact h op hop
  · exact h' op hop

theorem right (h : ParamsOf σ (ops ++ ops')) : ParamsOf σ ops' :=
  fun op hop => h op (List.mem_append_right _ hop)

/-- One operand that is no parameter. -/
theorem single {op : Operand} (h : op.paramName? = none) : ParamsOf σ [op] := by
  intro p hp name hname
  obtain rfl := List.mem_singleton.mp hp
  rw [h] at hname
  cases hname

theorem temp (f : Fresh) (ty : Ty) : ParamsOf σ (σ.temp f ty).parts :=
  single rfl

theorem self : ParamsOf σ σ.self.parts :=
  single rfl

theorem elem {array index : Operand} (ty : Ty) (harray : ParamsOf σ array.parts)
    (hindex : ParamsOf σ index.parts) : ParamsOf σ (Operand.elem array index ty).parts := by
  have hself : ParamsOf σ [Operand.elem array index ty] := single rfl
  exact hself.append (harray.append hindex)

/-- Local variables and parameters are found in the declarations of the method. -/
theorem slot {name : String} {op : Operand} (h : σ.slotOperand? name = .ok (some op)) :
    ParamsOf σ op.parts := by
  rcases slotOperand?_cases h with ⟨_, _, _, rfl⟩ | ⟨k, sym, ty, hr, rfl⟩
  · exact single rfl
  · intro p hp name' hname
    obtain rfl := List.mem_singleton.mp hp
    obtain rfl : name = name' := by simpa [Operand.paramName?] using hname
    exact resolve?_declared hr

end ParamsOf

/-- Every instruction has a form in assembly and mentions parameters of the method only. -/
def WellShaped (σ : Scope) (code : Code) : Prop :=
  ∀ i, .instr i ∈ code → i.isShaped = true ∧ ParamsOf σ i.operands

theorem isShaped_of_isValue {i : Instr} (h : i.isValue = true) : i.isShaped = true := by
  cases i with
  | assign | ret | goto | branch | putField | nop => simp [Instr.isValue] at h
  | single | binary | not | getField | call => exact h

namespace WellShaped

variable {σ : Scope} {c d : Code} {i rhs : Instr} {dest : Operand} {n : Nat} {test : Code × Instr}

theorem nil : WellShaped σ [] :=
  Every.nil

theorem append (hc : WellShaped σ c) (hd : WellShaped σ d) : WellShaped σ (c ++ d) :=
  Every.append hc hd

theorem instr (hshape : i.isShaped = true) (hops : ParamsOf σ i.operands)
    (hc : WellShaped σ c) : WellShaped σ (.instr i :: c) :=
  Every.instr hc ⟨hshape, hops⟩

theorem snoc (hc : WellShaped σ c) (hshape : i.isShaped = true) (hops : ParamsOf σ i.operands) :
    WellShaped σ (c ++ [.instr i]) :=
  Every.snoc hc ⟨hshape, hops⟩

theorem assigned (hdest : dest.isAssignable = true) (hparts : ParamsOf σ dest.parts)
    (hrhs : rhs.isValue = true) (hops : ParamsOf σ rhs.operands) :
    (Instr.assignTo dest rhs).isShaped = true ∧ ParamsOf σ (Instr.assignTo dest rhs).operands := by
  refine ⟨?_, hparts.append hops⟩
  simp only [Instr.assignTo, Instr.isShaped, hdest, hrhs, Bool.and_self]

theorem assign (rhs : Instr) (hc : WellShaped σ c) (hdest : dest.isAssignable = true)
    (hparts : ParamsOf σ dest.parts) (hrhs : rhs.isValue = true) (hops : ParamsOf σ rhs.operands) :
    WellShaped σ (c ++ [.instr (.assignTo dest rhs)]) :=
  Every.snoc hc (assigned hdest hparts hrhs hops)

/-- The right side of the assignment that ends the code. -/
theorem last (h : WellShaped σ (c ++ [.instr (.assignTo dest rhs)])) :
    WellShaped σ c ∧ rhs.isValue = true ∧ ParamsOf σ rhs.operands := by
  obtain ⟨hc, hshape, hops⟩ := Every.init h
  simp only [Instr.assignTo, Instr.isShaped, Bool.and_eq_true] at hshape
  exact ⟨hc, hshape.2, hops.right⟩

theorem construct {cls : String} (hdest : dest.isAssignable = true)
    (hparts : ParamsOf σ dest.parts) : WellShaped σ (constructInto dest cls) := by
  have hcls : ParamsOf σ [Operand.classRef cls] := .single rfl
  exact Every.construct (assigned hdest hparts rfl (hcls.append .nil)) ⟨rfl, hparts.append .nil⟩

theorem logical {op : Source.BinOp} {l r : Lowered} (hl : WellShaped σ l.code)
    (hr : WellShaped σ r.code) (hlres : ParamsOf σ l.result.parts)
    (hrres : ParamsOf σ r.result.parts) (hdest : dest.isAssignable = true)
    (hparts : ParamsOf σ dest.parts) : WellShaped σ (logicalCode op n dest l r) := by
  refine Every.logical hl hr (assigned hdest hparts rfl hlres) ?_ (assigned hdest hparts rfl hrres)
  unfold skipTest
  split <;> exact ⟨rfl, hparts⟩

theorem branch (hc : WellShaped σ c) (hd : WellShaped σ d) (htest : WellShaped σ test.1)
    (hvalue : test.2.isValue = true) (hops : ParamsOf σ test.2.operands) :
    WellShaped σ (branchCode n test c d) :=
  Every.branch htest hc hd (fun _ => ⟨hvalue, hops⟩) fun _ => ⟨rfl, .nil⟩

theorem loop (hc : WellShaped σ c) (htest : WellShaped σ test.1)
    (hvalue : test.2.isValue = true) (hops : ParamsOf σ test.2.operands) :
    WellShaped σ (loopCode n test c) :=
  Every.loop htest hc (fun _ => ⟨hvalue, hops⟩) fun _ => ⟨rfl, .nil⟩

end WellShaped

/-! ### Expressions -/

/-- The code is well shaped, and so is what the piece hands on to the place around it. -/
def Piece.Shaped (σ : Scope) : Piece → Prop
  | .expr _ _ l => WellShaped σ l.code ∧ ParamsOf σ l.result.parts
  | .receiver _ _ r => WellShaped σ r.code ∧ ParamsOf σ r.target.parts ∧
      ∀ method, Instr.isCall r.invocation r.target (some method) = true
  | .args _ _ code ops => WellShaped σ code ∧ ParamsOf σ (ops.flatMap Operand.parts)
  | .call _ _ _ _ code instr =>
    WellShaped σ code ∧ instr.isValue = true ∧ ParamsOf σ instr.operands

section Expressions

variable {σ : Scope} {f f' : Fresh}

theorem WellShaped.computed {code : Code} {rhs : Instr} {ty : Ty} (hc : WellShaped σ code)
    (hrhs : rhs.isValue = true) (hops : ParamsOf σ rhs.operands) :
    WellShaped σ (Lowered.computed code (σ.temp f ty) rhs).code ∧
      ParamsOf σ (Lowered.computed code (σ.temp f ty) rhs).result.parts :=
  ⟨hc.assign rhs rfl (.temp f ty) hrhs hops, .temp f ty⟩

theorem LowersName.shaped {name : String} {l : Lowered} (h : LowersName σ name f l f') :
    WellShaped σ l.code ∧ ParamsOf σ l.result.parts := by
  cases h with
  | slot hslot => exact ⟨.nil, .slot hslot⟩
  | cls => exact ⟨.nil, .single rfl⟩
  | field _ hfield =>
    obtain ⟨sym, ty, _, rfl⟩ := fieldOperand?_cases hfield
    exact WellShaped.nil.computed rfl .self

theorem LowersIndex.shaped {idx l : Lowered} (h : LowersIndex σ idx f l f')
    (hidx : WellShaped σ idx.code ∧ ParamsOf σ idx.result.parts) :
    WellShaped σ l.code ∧ ParamsOf σ l.result.parts := by
  cases h with
  | literal => exact hidx.1.computed rfl hidx.2
  | other => exact hidx

theorem Lowers.shaped {p : Piece} (h : Lowers σ p f f') : p.Shaped σ := by
  induction h with
  | int | bool => exact ⟨.nil, .single rfl⟩
  | self => exact ⟨.nil, .self⟩
  | name h => exact h.shaped
  | paren _ ih => exact ih
  | not _ ih => exact ih.1.computed rfl ih.2
  | logical _ _ _ ihl ihr =>
    exact ⟨.logical ihl.1 ihr.1 ihl.2 ihr.2 rfl (.temp _ _), .temp _ _⟩
  | binary _ _ _ ihl ihr => exact (ihl.1.append ihr.1).computed rfl (ihl.2.append ihr.2)
  | index _ _ _ _ hidx iha ihi =>
    obtain ⟨hcode, hresult⟩ := hidx.shaped ihi
    exact (iha.1.append hcode).computed rfl (iha.2.elem _ hresult)
  | length _ ih => exact ih.1.computed rfl (ih.2.append .nil)
  | callValue _ _ ih => exact ih.1.computed ih.2.1 ih.2.2
  | @newArray _ _ _ l _ _ _ ih =>
    have hcls : ParamsOf σ [Operand.classRef "array"] := .single rfl
    refine ih.1.computed rfl (hcls.append ?_)
    simpa using ih.2
  | newObject => exact ⟨.construct rfl (.temp _ _), .temp _ _⟩
  | selfReceiver => exact ⟨.nil, .self, fun _ => rfl⟩
  | classReceiver => exact ⟨.nil, .single rfl, fun _ => rfl⟩
  | valueReceiver _ _ _ _ _ ih => exact ⟨ih.1, ih.2, fun _ => rfl⟩
  | noArgs => exact ⟨.nil, .nil⟩
  | arg _ _ _ ihe ihrest => exact ⟨ihe.1.append ihrest.1, ihe.2.append ihrest.2⟩
  | @call _ method _ _ _ _ _ _ _ _ _ _ _ _ ihr ihargs =>
    exact ⟨ihr.1.append ihargs.1, ihr.2.2 method, ihr.2.1.append ihargs.2⟩

/-! ### Statements -/

theorem LowersCond.shaped {cond : Source.Expr} {test : Code × Instr}
    (h : LowersCond σ cond test f f') :
    WellShaped σ test.1 ∧ test.2.isValue = true ∧ ParamsOf σ test.2.operands := by
  cases h with
  | direct h _ => exact h.shaped.1.last
  | value h => exact ⟨h.shaped.1, rfl, h.shaped.2⟩

theorem isAssignable_slot {name : String} {op : Operand}
    (h : σ.slotOperand? name = .ok (some op)) : op.isAssignable = true := by
  rcases slotOperand?_cases h with ⟨_, _, _, rfl⟩ | ⟨_, _, _, _, rfl⟩ <;> rfl

theorem LowersStmt.shaped {s : Source.Stmt} {code : Code} (h : LowersStmt σ s f code f') :
    WellShaped σ code := by
  induction h with
  | done => exact .nil
  | seq _ _ ihs ihrest => exact ihs.append ihrest
  | callStmt _ h =>
    obtain ⟨hcode, hvalue, hops⟩ := h.shaped
    exact hcode.snoc (isShaped_of_isValue hvalue) hops
  | exprStmt _ h => exact h.shaped.1
  | assignNew hdest => exact .construct (isAssignable_slot hdest) (.slot hdest)
  | assignCall hdest _ h =>
    obtain ⟨hcode, hvalue, hops⟩ := h.shaped
    exact hcode.assign _ (isAssignable_slot hdest) (.slot hdest) hvalue hops
  | retarget hdest h =>
    obtain ⟨hcode, hvalue, hops⟩ := h.shaped.1.last
    exact hcode.assign _ (isAssignable_slot hdest) (.slot hdest) hvalue hops
  | copy hdest h _ =>
    exact h.shaped.1.assign _ (isAssignable_slot hdest) (.slot hdest) rfl h.shaped.2
  | putField _ hfield h =>
    obtain ⟨sym, ty, _, rfl⟩ := fieldOperand?_cases hfield
    exact h.shaped.1.snoc rfl (ParamsOf.self.append h.shaped.2)
  | store harr _ _ hi hidx hv =>
    obtain ⟨hcode, hresult⟩ := hidx.shaped hi.shaped
    refine ((harr.shaped.1.append hcode).append hv.shaped.1).snoc rfl ?_
    exact (harr.shaped.2.elem _ hresult).append hv.shaped.2
  | ret => exact WellShaped.nil.instr rfl .nil
  | retValue h => exact h.shaped.1.snoc rfl h.shaped.2
  | branch hcond _ _ ihd ihc =>
    obtain ⟨htest, hvalue, hops⟩ := hcond.shaped
    exact .branch ihc ihd htest hvalue hops
  | oneArmed hcond _ ihc =>
    obtain ⟨htest, hvalue, hops⟩ := hcond.shaped
    exact .branch ihc .nil htest hvalue hops
  | loop hcond _ ihc =>
    obtain ⟨htest, hvalue, hops⟩ := hcond.shaped
    exact .loop ihc htest hvalue hops

end Expressions

/-! ### Methods -/

section Methods

variable {σ : Scope} {decl : Source.Method} {result : Ty} {m : Flat.Method} {header : Flat.Header}
  {code : Code} {f f' : Fresh}

theorem WellShaped.superInit (inner : Scope) : WellShaped inner [superInit inner] :=
  WellShaped.nil.instr rfl (ParamsOf.self.append .nil)

theorem WellShaped.methodCode {body : Code} (h : WellShaped (methodScope σ decl result) body) :
    WellShaped (methodScope σ decl result) (methodCode σ decl result body) :=
  Every.methodCode h ⟨rfl, ParamsOf.self.append .nil⟩ ⟨rfl, .nil⟩

theorem WellShaped.steps (h : WellShaped σ code) (hm : Flat.Method.assemble header code = .ok m)
    {s : Flat.Step} (hs : s ∈ m.steps) :
    s.instr.isShaped = true ∧ ParamsOf σ s.instr.operands :=
  Every.steps h ⟨rfl, .nil⟩ hm s hs

theorem methodParams_names {params : List Param} (h : methodParams σ decl = .ok params)
    (name : String) : name ∈ params.map (·.name) ↔ HasParam σ.symbols decl.name name := by
  cases hd : σ.symbols.method? decl.name with
  | none =>
    unfold methodParams at h
    rw [hd] at h
    obtain rfl := Except.ok.inj h
    simp [HasParam, hd]
  | some d =>
    rw [← methodParams_map_name hd h]
    simp [HasParam, hd]

/-- The steps of a lowered method can be emitted, and its parameter operands are its parameters. -/
theorem LowersMethod.shaped (h : LowersMethod σ decl f m f') :
    (∀ s ∈ m.steps, s.instr.isShaped = true) ∧ ParamsNamed m := by
  cases h with
  | @method result params body _ _ _ _ hparams hbody hm =>
    have hcode : WellShaped (methodScope σ decl result) (Lowering.methodCode σ decl result body) :=
      hbody.shaped.methodCode
    refine ⟨fun s hs => (hcode.steps hm hs).1, ?_⟩
    intro s hs op hop name hname
    rw [(Flat.Method.steps_of_assemble hm).1]
    exact (methodParams_names hparams name).mpr ((hcode.steps hm hs).2 op hop name hname)

theorem LowersMethods.shaped {decls : List Source.Method} {ms : List Flat.Method}
    (h : LowersMethods σ decls f ms f') (hm : m ∈ ms) :
    (∀ s ∈ m.steps, s.instr.isShaped = true) ∧ ParamsNamed m := by
  induction h with
  | nil => cases hm
  | cons hlow _ ih =>
    rcases List.mem_cons.mp hm with rfl | hm
    · exact hlow.shaped
    · exact ih hm

theorem defaultConstructor_shaped (h : defaultConstructor σ = .ok m) :
    (∀ s ∈ m.steps, s.instr.isShaped = true) ∧ ParamsNamed m := by
  have hcode : WellShaped σ [superInit σ] := .superInit σ
  refine ⟨fun s hs => (hcode.steps h hs).1, ?_⟩
  have hsteps : ∀ s ∈ m.steps, s.instr.operands = [σ.self] := by
    intro s hs
    have hentry : (s.labels, s.instr) ∈ attachLabels [superInit σ] [] := by
      rw [← Flat.Method.steps_eq_attachLabels h]
      exact List.mem_map_of_mem hs
    have heq := List.mem_singleton.mp hentry
    rw [show s.instr = _ from congrArg Prod.snd heq]
    rfl
  intro s hs op hop name hname
  rw [hsteps s hs, List.mem_singleton] at hop
  rw [hop] at hname
  cases hname

/-- Every method of a lowered class can be emitted as far as its shape goes. -/
theorem LowersClass.shaped {program : Source.Program} {symbols : Source.SymbolTable}
    {cls : Flat.Class} (h : LowersClass program symbols cls) (hm : m ∈ cls.methods) :
    (∀ s ∈ m.steps, s.instr.isShaped = true) ∧ ParamsNamed m := by
  obtain ⟨extra, ms, f', hmethods, hextra, hms⟩ := h.methods
  rw [hmethods, List.mem_append] at hm
  rcases hm with hm | hm
  · unfold AddsConstructor at hextra
    split at hextra
    · rw [hextra] at hm
      cases hm
    · obtain ⟨c, hc, rfl⟩ := hextra
      obtain rfl := List.mem_singleton.mp hm
      exact defaultConstructor_shaped hc
  · exact hms.shaped hm

end Methods

end JavaMinus.Lowering
