import JavaMinus.Proofs.Flat.Assembled
import Mathlib.Logic.Equiv.Basic

/-!
# Renaming flat code

Variables and labels of flat code may get other names, different ones for different ones. Names of
fields, methods and classes stay. Everything that is computed from the code of a method commutes with
such a renaming: what instructions read and write, where jumps go, and in which order the variables
appear.
-/

namespace JavaMinus.Flat

structure Renaming where
  name : Equiv.Perm String
  label : Equiv.Perm String

def Operand.rename (ρ : Renaming) : Operand → Operand
  | .var name ty => .var (ρ.name name) ty
  | .param index name ty => .param index (ρ.name name) ty
  | .elem array index ty => .elem (array.rename ρ) (index.rename ρ) ty
  | .lit value ty => .lit value ty
  | .self cls => .self cls
  | .classRef name => .classRef name

def Instr.rename (ρ : Renaming) : Instr → Instr
  | .assign dest ty rhs => .assign (dest.rename ρ) ty (rhs.rename ρ)
  | .binary op lhs rhs => .binary op (lhs.rename ρ) (rhs.rename ρ)
  | .not op => .not (op.rename ρ)
  | .call invocation target method args result =>
    .call invocation (target.rename ρ) method (args.map (Operand.rename ρ)) result
  | .ret value => .ret (value.map (Operand.rename ρ))
  | .goto label => .goto (ρ.label label)
  | .branch cond label => .branch (cond.rename ρ) (ρ.label label)
  | .getField object field => .getField (object.rename ρ) field
  | .putField object field value => .putField (object.rename ρ) field (value.rename ρ)
  | .single op => .single (op.rename ρ)
  | .nop => .nop

def Item.rename (ρ : Renaming) : Item → Item
  | .label name => .label (ρ.label name)
  | .instr i => .instr (i.rename ρ)

def renameCode (ρ : Renaming) (code : Code) : Code :=
  code.map (Item.rename ρ)

def Step.rename (ρ : Renaming) (s : Step) : Step where
  id := s.id
  labels := s.labels.map ρ.label
  instr := s.instr.rename ρ
  succs := s.succs

/-- The header stays: names of parameters are not for renaming. -/
def Method.rename (ρ : Renaming) (m : Method) : Method where
  toHeader := m.toHeader
  steps := m.steps.map (Step.rename ρ)

/-! ### Operands -/

section Operands

variable (ρ : Renaming) (op : Operand)

@[simp] theorem Operand.ty_rename : (op.rename ρ).ty = op.ty := by
  cases op <;> rfl

@[simp] theorem Operand.name?_rename : (op.rename ρ).name? = op.name?.map ρ.name := by
  cases op <;> rfl

@[simp] theorem Operand.isLiteral_rename : (op.rename ρ).isLiteral = op.isLiteral := by
  cases op <;> rfl

theorem Operand.reads_rename : (op.rename ρ).reads = op.reads.map ρ.name := by
  induction op with
  | elem array index ty iha ihi =>
    simp only [Operand.rename, Operand.reads, iha, ihi, List.map_append]
  | lit | var | param | self | classRef => rfl

theorem Operand.parts_rename : (op.rename ρ).parts = op.parts.map (Operand.rename ρ) := by
  induction op with
  | elem array index ty iha ihi =>
    simp only [Operand.rename, Operand.parts, iha, ihi, List.map_append, List.map_cons]
  | lit | var | param | self | classRef => rfl

theorem Operand.flatMap_reads_rename (ops : List Operand) :
    (ops.map (Operand.rename ρ)).flatMap Operand.reads = (ops.flatMap Operand.reads).map ρ.name := by
  induction ops with
  | nil => rfl
  | cons op rest ih =>
    simp only [List.map_cons, List.flatMap_cons, List.map_append, ih, Operand.reads_rename]

theorem Operand.flatMap_parts_rename (ops : List Operand) :
    (ops.map (Operand.rename ρ)).flatMap Operand.parts =
      (ops.flatMap Operand.parts).map (Operand.rename ρ) := by
  induction ops with
  | nil => rfl
  | cons op rest ih =>
    simp only [List.map_cons, List.flatMap_cons, List.map_append, ih, Operand.parts_rename]

end Operands

/-! ### Instructions -/

section Instructions

variable (ρ : Renaming) (i : Instr)

@[simp] theorem Instr.resultType_rename : (i.rename ρ).resultType = i.resultType := by
  cases i with
  | single op => exact Operand.ty_rename ρ op
  | assign | binary | not | call | ret | goto | branch | getField | putField | nop => rfl

@[simp] theorem Instr.isReturn_rename : (i.rename ρ).isReturn = i.isReturn := by
  cases i <;> rfl

@[simp] theorem Instr.rename_assignTo (dest : Operand) (rhs : Instr) :
    (Instr.assignTo dest rhs).rename ρ = .assignTo (dest.rename ρ) (rhs.rename ρ) := by
  simp only [Instr.assignTo, Instr.rename, Operand.ty_rename]

theorem Instr.defines?_rename : (i.rename ρ).defines? = i.defines?.map ρ.name := by
  cases i with
  | assign dest ty rhs => exact Operand.name?_rename ρ dest
  | binary | not | call | ret | goto | branch | getField | putField | single | nop => rfl

theorem Instr.destReads_rename (dest : Operand) :
    Instr.destReads (dest.rename ρ) = (Instr.destReads dest).map ρ.name := by
  cases dest with
  | elem array index ty =>
    simp only [Operand.rename, Instr.destReads, Operand.reads_rename, List.map_append]
  | lit | var | param | self | classRef => rfl

theorem Instr.reads_rename : (i.rename ρ).reads = i.reads.map ρ.name := by
  induction i with
  | assign dest ty rhs ih =>
    simp only [Instr.rename, Instr.reads, Instr.destReads_rename, ih, List.map_append]
  | binary op lhs rhs | putField lhs field rhs =>
    simp only [Instr.rename, Instr.reads, Operand.reads_rename, List.map_append]
  | not op | single op | getField op field => exact Operand.reads_rename ρ op
  | call invocation target method args result =>
    simp only [Instr.rename, Instr.reads, Operand.reads_rename, Operand.flatMap_reads_rename,
      List.map_append]
  | ret value =>
    cases value with
    | none => rfl
    | some op => exact Operand.reads_rename ρ op
  | branch cond label ih => exact ih
  | goto | nop => rfl

theorem Instr.operands_rename : (i.rename ρ).operands = i.operands.map (Operand.rename ρ) := by
  induction i with
  | assign dest ty rhs ih =>
    simp only [Instr.rename, Instr.operands, Operand.parts_rename, ih, List.map_append]
  | binary op lhs rhs | putField lhs field rhs =>
    simp only [Instr.rename, Instr.operands, Operand.parts_rename, List.map_append]
  | not op | single op | getField op field => exact Operand.parts_rename ρ op
  | call invocation target method args result =>
    simp only [Instr.rename, Instr.operands, Operand.parts_rename, Operand.flatMap_parts_rename,
      List.map_append]
  | ret value =>
    cases value with
    | none => rfl
    | some op => exact Operand.parts_rename ρ op
  | branch cond label ih => exact ih
  | goto | nop => rfl

end Instructions

/-! ### Code -/

section Code

variable (ρ : Renaming)

@[simp] theorem renameCode_nil : renameCode ρ [] = [] := rfl

@[simp] theorem renameCode_append (c d : Code) :
    renameCode ρ (c ++ d) = renameCode ρ c ++ renameCode ρ d :=
  List.map_append

@[simp] theorem renameCode_label (name : String) (rest : Code) :
    renameCode ρ (.label name :: rest) = .label (ρ.label name) :: renameCode ρ rest := rfl

@[simp] theorem renameCode_instr (i : Instr) (rest : Code) :
    renameCode ρ (.instr i :: rest) = .instr (i.rename ρ) :: renameCode ρ rest := rfl

/-- A list of labels and an instruction, as it stands in a method. -/
def renameEntry (p : List String × Instr) : List String × Instr :=
  (p.1.map ρ.label, p.2.rename ρ)

theorem attachLabels_rename (code : Code) (pending : List String) :
    attachLabels (renameCode ρ code) (pending.map ρ.label) =
      (attachLabels code pending).map (renameEntry ρ) := by
  induction code generalizing pending with
  | nil =>
    cases pending with
    | nil => rfl
    | cons label rest => rfl
  | cons item rest ih =>
    cases item with
    | label name =>
      have hpending := ih (pending ++ [name])
      rw [List.map_append] at hpending
      exact hpending
    | instr i =>
      have hrest := ih []
      simp only [renameCode_instr, attachLabels, List.map_cons]
      rw [show attachLabels (renameCode ρ rest) [] = _ from hrest]
      rfl

theorem contains_map_label (labels : List String) (label : String) :
    (labels.map ρ.label).contains (ρ.label label) = labels.contains label := by
  rw [Bool.eq_iff_iff, List.contains_iff_mem, List.contains_iff_mem,
    List.mem_map_of_injective ρ.label.injective]

theorem labelId?_rename (body : List (List String × Instr)) (label : String) :
    labelId? (body.map (renameEntry ρ)) (ρ.label label) = labelId? body label := by
  have hpred : (fun p : (List String × Instr) × Nat => p.1.1.contains (ρ.label label)) ∘
      Prod.map (renameEntry ρ) id = fun p => p.1.1.contains label :=
    funext fun p => contains_map_label ρ p.1.1 label
  unfold labelId?
  rw [List.zipIdx_map, ← List.map_reverse, List.find?_map, hpred, Option.map_map]
  rfl

theorem jumpTarget_rename {method : String} {body : List (List String × Instr)} {label : String}
    {id : Nat} (h : jumpTarget method body label = .ok id) :
    jumpTarget method (body.map (renameEntry ρ)) (ρ.label label) = .ok id := by
  unfold jumpTarget at h ⊢
  rw [labelId?_rename]
  cases hid : labelId? body label with
  | none => simp [hid] at h
  | some id' => simpa [hid] using h

theorem successors_rename {target target' : String → Except Error Nat} {next : Option Nat} {i : Instr}
    {ids : List Nat} (htarget : ∀ label id, target label = .ok id → target' (ρ.label label) = .ok id)
    (h : successors target next i = .ok ids) : successors target' next (i.rename ρ) = .ok ids := by
  cases i with
  | goto label | branch cond label =>
    obtain ⟨id, hid, h⟩ := bind_eq_ok.mp h
    exact bind_eq_ok.mpr ⟨id, htarget label id hid, h⟩
  | assign | binary | not | call | ret | getField | putField | single | nop => exact h

end Code

/-! ### Methods -/

namespace Method

variable {header : Header} {code : Code} {m : Method}

/-- The renamed code is assembled into the renamed method. -/
theorem assemble_rename (ρ : Renaming) (h : assemble header code = .ok m) :
    assemble header (renameCode ρ code) = .ok (m.rename ρ) := by
  unfold assemble at h ⊢
  obtain ⟨steps, hsteps, h⟩ := bind_eq_ok.mp h
  obtain rfl := pure_eq_ok.mp h
  rw [show attachLabels (renameCode ρ code) [] = _ from attachLabels_rename ρ code []]
  refine bind_eq_ok.mpr ⟨steps.map (Step.rename ρ), mapM_of_forall₂ ?_, rfl⟩
  rw [List.zipIdx_map, List.forall₂_map_left_iff, List.forall₂_map_right_iff]
  refine (forall₂_of_mapM hsteps).imp ?_
  rintro ⟨⟨labels, i⟩, id⟩ s hs
  obtain ⟨succs, hsuccs, hs⟩ := bind_eq_ok.mp hs
  obtain rfl := pure_eq_ok.mp hs
  refine bind_eq_ok.mpr ⟨succs, ?_, rfl⟩
  rw [List.length_map]
  exact successors_rename ρ (fun _ _ => jumpTarget_rename ρ) hsuccs

@[simp] theorem hasReturn_rename (ρ : Renaming) (m : Method) :
    (m.rename ρ).hasReturn = m.hasReturn := by
  unfold hasReturn Method.rename
  rw [List.any_map]
  congr 1
  funext s
  exact Instr.isReturn_rename ρ s.instr

@[simp] theorem endsInReturn_rename (ρ : Renaming) (m : Method) :
    (m.rename ρ).endsInReturn = m.endsInReturn := by
  unfold endsInReturn Method.rename
  rw [List.getLast?_map, Option.any_map]
  congr 1
  funext s
  exact Instr.isReturn_rename ρ s.instr

theorem addVar_rename (ρ : Renaming) (seen : List (String × Ty)) (op : Operand) :
    addVar (seen.map (Prod.map ρ.name id)) (op.rename ρ) =
      (addVar seen op).map (Prod.map ρ.name id) := by
  cases op with
  | var name ty =>
    have hany : (seen.map (Prod.map ρ.name id)).any (fun v => v.1 == ρ.name name) =
        seen.any fun v => v.1 == name := by
      rw [List.any_map]
      congr 1
      funext v
      simp
    simp only [Operand.rename, addVar, hany]
    split
    · rfl
    · rw [List.map_append]
      rfl
  | lit | param | elem | self | classRef => rfl

/-- The variables of the renamed method are the renamed variables, in the same order. -/
theorem vars_rename (ρ : Renaming) (m : Method) :
    (m.rename ρ).vars = m.vars.map (Prod.map ρ.name id) := by
  have hops : ((m.rename ρ).steps.flatMap fun s => s.instr.operands) =
      (m.steps.flatMap fun s => s.instr.operands).map (Operand.rename ρ) := by
    unfold Method.rename
    rw [List.flatMap_map, List.map_flatMap]
    congr 1
    funext s
    exact Instr.operands_rename ρ s.instr
  have hfold (ops : List Operand) (seen : List (String × Ty)) :
      (ops.map (Operand.rename ρ)).foldl addVar (seen.map (Prod.map ρ.name id)) =
        (ops.foldl addVar seen).map (Prod.map ρ.name id) := by
    induction ops generalizing seen with
    | nil => rfl
    | cons op rest ih =>
      rw [List.map_cons, List.foldl_cons, List.foldl_cons, addVar_rename]
      exact ih (addVar seen op)
  unfold vars
  rw [hops]
  exact hfold _ []

end Method

end JavaMinus.Flat
