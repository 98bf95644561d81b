import JavaMinus.Proofs.Lowering.Operands

/-!
# Field operands of lowered code

An operand that names a field stands in a read or a write of that field and nowhere else, and it is the
operand that the scope gives for the name.
-/

namespace JavaMinus.Flat

/-- The operands that name fields. -/
def Instr.fields : Instr → List Operand
  | .assign _ _ rhs => rhs.fields
  | .branch cond _ => cond.fields
  | .getField _ field | .putField _ field _ => [field]
  | _ => []

/-- Every operand of the instruction with those inside array elements, field operands included. -/
def Instr.mentions (i : Instr) : List Operand :=
  i.operands ++ i.fields

end JavaMinus.Flat

namespace JavaMinus.Lowering

open JavaMinus.Flat (Ty Operand Instr Item Code)

def FieldsNamed (σ : Scope) (i : Instr) : Prop :=
  ∀ op ∈ i.fields, ∃ name, σ.fieldOperand? name = .ok (some op)

def CodeFieldsNamed (σ : Scope) (code : Code) : Prop :=
  ∀ i, .instr i ∈ code → FieldsNamed σ i

theorem FieldsNamed.of_none {σ : Scope} {i : Instr} (h : i.fields = []) : FieldsNamed σ i := by
  intro op hop
  rw [h] at hop
  cases hop

theorem FieldsNamed.of_field {σ : Scope} {i : Instr} {name : String} {op : Operand}
    (hop : σ.fieldOperand? name = .ok (some op)) (h : i.fields = [op]) : FieldsNamed σ i := by
  intro p hp
  rw [h, List.mem_singleton] at hp
  exact ⟨name, hp ▸ hop⟩

namespace CodeFieldsNamed

variable {σ : Scope} {c d : Code} {i : Instr} {n : Nat} {test : Code × Instr}

theorem nil : CodeFieldsNamed σ [] :=
  Every.nil

theorem append (hc : CodeFieldsNamed σ c) (hd : CodeFieldsNamed σ d) : CodeFieldsNamed σ (c ++ d) :=
  Every.append hc hd

theorem instr (hc : CodeFieldsNamed σ c) (h : FieldsNamed σ i) : CodeFieldsNamed σ (.instr i :: c) :=
  Every.instr hc h

theorem plain (hc : CodeFieldsNamed σ c) (h : i.fields = []) : CodeFieldsNamed σ (.instr i :: c) :=
  hc.instr (.of_none h)

theorem snoc (hc : CodeFieldsNamed σ c) (h : FieldsNamed σ i) : CodeFieldsNamed σ (c ++ [.instr i]) :=
  Every.snoc hc h

theorem construct (dest : Operand) (cls : String) : CodeFieldsNamed σ (constructInto dest cls) :=
  Every.construct (.of_none rfl) (.of_none rfl)

theorem binding {dest : Operand} {rhs : Instr}
    (h : CodeFieldsNamed σ (c ++ [.instr (.assignTo dest rhs)])) :
    CodeFieldsNamed σ c ∧ FieldsNamed σ rhs := by
  obtain ⟨hc, hlast⟩ := Every.init h
  exact ⟨hc, hlast⟩

theorem logical {op : Source.BinOp} {dest : Operand} {l r : Lowered} (hl : CodeFieldsNamed σ l.code)
    (hr : CodeFieldsNamed σ r.code) : CodeFieldsNamed σ (logicalCode op n dest l r) := by
  refine Every.logical hl hr (.of_none rfl) (.of_none ?_) (.of_none rfl)
  unfold skipTest
  split <;> rfl

theorem branch (htest : CodeFieldsNamed σ test.1) (hvalue : FieldsNamed σ test.2)
    (hc : CodeFieldsNamed σ c) (hd : CodeFieldsNamed σ d) :
    CodeFieldsNamed σ (branchCode n test c d) :=
  Every.branch htest hc hd (fun _ => hvalue) fun _ => .of_none rfl

theorem loop (htest : CodeFieldsNamed σ test.1) (hvalue : FieldsNamed σ test.2)
    (hc : CodeFieldsNamed σ c) : CodeFieldsNamed σ (loopCode n test c) :=
  Every.loop htest hc (fun _ => hvalue) fun _ => .of_none rfl

theorem methodCode {decl : Source.Method} {result : Ty} {τ : Scope} (hc : CodeFieldsNamed σ c) :
    CodeFieldsNamed σ (methodCode τ decl result c) :=
  Every.methodCode hc (.of_none rfl) (.of_none rfl)

end CodeFieldsNamed

section Rules

variable {σ : Scope} {f f' : Fresh}

theorem LowersName.fieldsNamed {name : String} {l : Lowered} (h : LowersName σ name f l f') :
    CodeFieldsNamed σ l.code := by
  cases h with
  | slot | cls => exact .nil
  | field _ hfield => exact CodeFieldsNamed.nil.instr (.of_field hfield rfl)

theorem LowersIndex.fieldsNamed {idx l : Lowered} (h : LowersIndex σ idx f l f')
    (hidx : CodeFieldsNamed σ idx.code) : CodeFieldsNamed σ l.code := by
  cases h with
  | literal => exact hidx.append (CodeFieldsNamed.nil.plain rfl)
  | other => exact hidx

theorem Lowers.fieldsNamed {p : Piece} (h : Lowers σ p f f') : CodeFieldsNamed σ p.code := by
  induction h with
  | int | bool | self | noArgs | selfReceiver | classReceiver => exact .nil
  | newObject => exact .construct _ _
  | name h => exact h.fieldsNamed
  | paren _ ih => exact ih
  | valueReceiver _ _ _ _ _ ih => exact ih
  | not _ ih | length _ ih | newArray _ ih => exact ih.snoc (.of_none rfl)
  | callValue h _ ih =>
    obtain ⟨_, _, _, _, rfl⟩ := h.exists_call
    exact ih.snoc (.of_none rfl)
  | logical _ _ _ ihl ihr => exact .logical ihl ihr
  | binary _ _ _ ihl ihr => exact (ihl.append ihr).snoc (.of_none rfl)
  | index _ _ _ _ hidx iha ihi => exact (iha.append (hidx.fieldsNamed ihi)).snoc (.of_none rfl)
  | arg _ _ _ ihe ihrest => exact ihe.append ihrest
  | call _ _ _ ihr ihargs => exact ihr.append ihargs

theorem LowersCond.fieldsNamed {cond : Source.Expr} {test : Code × Instr}
    (h : LowersCond σ cond test f f') : CodeFieldsNamed σ test.1 ∧ FieldsNamed σ test.2 := by
  cases h with
  | direct h _ => exact CodeFieldsNamed.binding h.fieldsNamed
  | value h => exact ⟨h.fieldsNamed, .of_none rfl⟩

theorem LowersStmt.fieldsNamed {s : Source.Stmt} {code : Code} (h : LowersStmt σ s f code f') :
    CodeFieldsNamed σ code := by
  induction h with
  | done => exact .nil
  | ret => exact CodeFieldsNamed.nil.plain rfl
  | seq _ _ ihs ihrest => exact ihs.append ihrest
  | assignNew => exact .construct _ _
  | exprStmt _ h => exact h.fieldsNamed
  | callStmt _ h | assignCall _ _ h =>
    have hcode : CodeFieldsNamed σ (Piece.code (.call _ _ _ _ _ _)) := h.fieldsNamed
    obtain ⟨_, _, _, _, rfl⟩ := h.exists_call
    exact hcode.snoc (.of_none rfl)
  | retarget _ h =>
    obtain ⟨hcode, hrhs⟩ := CodeFieldsNamed.binding h.fieldsNamed
    exact hcode.snoc hrhs
  | copy _ h _ | retValue h =>
    have hcode : CodeFieldsNamed σ (Piece.code (.expr _ _ _)) := h.fieldsNamed
    exact hcode.snoc (.of_none rfl)
  | putField _ hfield h =>
    have hcode : CodeFieldsNamed σ (Piece.code (.expr _ _ _)) := h.fieldsNamed
    exact hcode.snoc (.of_field hfield rfl)
  | store harr _ _ hi hidx hv =>
    have hindex := hidx.fieldsNamed hi.fieldsNamed
    have hvalue : CodeFieldsNamed σ (Piece.code (.expr _ _ _)) := hv.fieldsNamed
    exact ((harr.fieldsNamed.append hindex).append hvalue).snoc (.of_none rfl)
  | branch hcond _ _ ihd ihc =>
    obtain ⟨htest, hvalue⟩ := hcond.fieldsNamed
    exact .branch htest hvalue ihc ihd
  | oneArmed hcond _ ihc =>
    obtain ⟨htest, hvalue⟩ := hcond.fieldsNamed
    exact .branch htest hvalue ihc .nil
  | loop hcond _ ihc =>
    obtain ⟨htest, hvalue⟩ := hcond.fieldsNamed
    exact .loop htest hvalue ihc

/-- A field operand of a method is what the scope of the method gives for some name. -/
theorem fieldsNamed_of_assemble {header : Flat.Header} {code : Code} {m : Flat.Method}
    (hm : Flat.Method.assemble header code = .ok m) (hcode : CodeFieldsNamed σ code) {s : Flat.Step}
    (hs : s ∈ m.steps) : FieldsNamed σ s.instr :=
  Every.steps hcode (.of_none rfl) hm s hs

end Rules

end JavaMinus.Lowering
