import JavaMinus.Proofs.Assembly.Derivation
import JavaMinus.Proofs.Flat.Renaming

/-!
# Assembly under other names

Variables appear in assembly by their slots, and only labels by name. So a method with other names for
its variables and labels becomes the same lines with other labels, and the stack has the same depth at
each of them.
-/

namespace JavaMinus.Assembly

open JavaMinus.Flat (Ty Operand Instr Invocation Renaming bind_eq_ok pure_eq_ok)
open JavaMinus.Lowering (placeLabel)
open JavaMinus.Source (BinOp)

/-! ### Other labels -/

def Op.relabel (τ : String → String) : Op → Op
  | .goto label => .goto (τ label)
  | .ifZero label => .ifZero (τ label)
  | .ifNonzero label => .ifNonzero (τ label)
  | .ifCompare cmp label => .ifCompare cmp (τ label)
  | o => o

def Line.relabel (τ : String → String) : Line → Line
  | .label name => .label (τ name)
  | .op o => .op (o.relabel τ)

def relabel (τ : String → String) (lines : List Line) : List Line :=
  lines.map (Line.relabel τ)

/-- The method with other labels; all else stays. -/
def Method.relabel (τ : String → String) (m : Method) : Method :=
  { m with body := Assembly.relabel τ m.body }

section Lists

variable (τ : String → String)

@[simp] theorem relabel_nil : relabel τ [] = [] := rfl

@[simp] theorem relabel_append (a b : List Line) :
    relabel τ (a ++ b) = relabel τ a ++ relabel τ b :=
  List.map_append

@[simp] theorem relabel_op (o : Op) (rest : List Line) :
    relabel τ (.op o :: rest) = .op (o.relabel τ) :: relabel τ rest := rfl

@[simp] theorem relabel_label (name : String) (rest : List Line) :
    relabel τ (.label name :: rest) = .label (τ name) :: relabel τ rest := rfl

end Lists

theorem relabel_id (lines : List Line) : relabel id lines = lines := by
  induction lines with
  | nil => rfl
  | cons line rest ih =>
    cases line with
    | label name => rw [relabel_label, ih, id]
    | op o =>
      rw [relabel_op, ih]
      cases o <;> rfl

theorem Method.relabel_id (m : Method) : m.relabel id = m := by
  rw [Method.relabel, Assembly.relabel_id]

/-! ### Runs side by side -/

/-- Whatever the first computation gives, the second one gives its image and counts the same. -/
def Echoes {α β : Type} (image : α → β) (x : EmitM α) (y : EmitM β) : Prop :=
  ∀ s a s', x s = .ok (a, s') → y s = .ok (image a, s')

section Rules

variable {α β γ δ : Type} {image : α → β} {image' : γ → δ}

theorem Echoes.pure {a : α} {b : β} (h : image a = b) : Echoes image (pure a) (pure b) := by
  intro s _ s' hx
  obtain ⟨rfl, rfl⟩ := emit_pure.mp hx
  exact emit_pure.mpr ⟨h.symm, rfl⟩

theorem Echoes.bind {x : EmitM α} {y : EmitM β} {k : α → EmitM γ} {l : β → EmitM δ}
    (h : Echoes image x y) (hk : ∀ a, Echoes image' (k a) (l (image a))) :
    Echoes image' (x >>= k) (y >>= l) := by
  intro s c s' hx
  obtain ⟨a, s₁, hx, hrest⟩ := emit_bind.mp hx
  exact emit_bind.mpr ⟨image a, s₁, h s a s₁ hx, hk a s₁ c s' hrest⟩

/-- A first step that both computations share. -/
theorem Echoes.step {x : EmitM γ} {k : γ → EmitM α} {l : γ → EmitM β}
    (h : ∀ c, Echoes image (k c) (l c)) : Echoes image (x >>= k) (x >>= l) := by
  intro s a s' hx
  obtain ⟨c, s₁, hc, hrest⟩ := emit_bind.mp hx
  exact emit_bind.mpr ⟨c, s₁, hc, h c s₁ a s' hrest⟩

theorem Echoes.check {x y : Except Error γ} {k : γ → EmitM α} {l : γ → EmitM β}
    (hy : ∀ c, x = .ok c → y = .ok c) (h : ∀ c, Echoes image (k c) (l c)) :
    Echoes image (liftM x >>= k) (liftM y >>= l) := by
  intro s a s' hx
  obtain ⟨c, s₁, hc, hrest⟩ := emit_bind.mp hx
  obtain ⟨hok, rfl⟩ := emit_lift.mp hc
  exact emit_bind.mpr ⟨c, s, emit_lift.mpr ⟨hy c hok, rfl⟩, h c s a s' hrest⟩

theorem Echoes.unsupported {fault : InstrFault} {y : EmitM β} :
    Echoes image (unsupported fault) y :=
  fun _ _ _ hx => absurd hx unsupported_ne_ok

theorem Echoes.ite {p : Prop} [Decidable p] {x x' : EmitM α} {y y' : EmitM β}
    (h : Echoes image x y) (h' : Echoes image x' y') :
    Echoes image (if p then x else x') (if p then y else y') := by
  split
  · exact h
  · exact h'

end Rules

/-! ### Frames -/

/-- Two frames of the same class and method that differ in names. Labels that emission makes up are
no labels of the method, and stay. -/
structure Frame.Renamed (ρ : Renaming) (φ φ' : Frame) : Prop where
  className : φ'.cls.name = φ.cls.name
  superClass : φ'.cls.superClass = φ.cls.superClass
  imports : φ'.cls.imports = φ.cls.imports
  method : φ'.method.name = φ.method.name
  slots : ∀ x, φ'.slots.get? (ρ.name x) = φ.slots.get? x
  compareTrue : ∀ n, ρ.label (placeLabel "cmp_true" n) = placeLabel "cmp_true" n
  compareEnd : ∀ n, ρ.label (placeLabel "cmp_end" n) = placeLabel "cmp_end" n

section Frames

variable {ρ : Renaming} {φ φ' : Frame}

theorem Frame.Renamed.pop (h : φ.Renamed ρ φ') (n : Nat) : pop φ' n = pop φ n := by
  rw [Assembly.pop, Assembly.pop, h.method]

theorem Frame.Renamed.slotOf (h : φ.Renamed ρ φ') (op : Operand) {name : String}
    (hname : op.name? = some name) (slot : Nat) (hslot : φ.slotOf op = .ok slot) :
    φ'.slotOf (op.rename ρ) = .ok slot := by
  have hname' : (op.rename ρ).name? = some (ρ.name name) := by
    rw [Operand.name?_rename, hname]
    rfl
  simp only [Frame.slotOf, hname, hname', Option.getD_some, h.slots] at hslot ⊢
  split at hslot
  · exact hslot
  · cases hslot

theorem Frame.Renamed.ownerOf (h : φ.Renamed ρ φ') (op : Operand) :
    φ'.ownerOf (op.rename ρ) = φ.ownerOf op := by
  unfold Frame.ownerOf
  rw [Operand.ty_rename, h.className, h.imports]

theorem Frame.Renamed.superName (h : φ.Renamed ρ φ') : φ'.superName = φ.superName := by
  unfold Frame.superName
  rw [h.superClass, h.imports]

theorem Frame.Renamed.fieldRef (h : φ.Renamed ρ φ') (op : Operand) :
    φ'.fieldRef op = φ.fieldRef op := by
  unfold Frame.fieldRef
  rw [h.className, h.imports]

end Frames

/-! ### Values -/

section Values

variable {ρ : Renaming} {φ φ' : Frame}

theorem load_echoes (h : φ.Renamed ρ φ') (op : Operand) :
    Echoes (relabel ρ.label) (load φ op) (load φ' (op.rename ρ)) := by
  induction op with
  | lit | self => exact .step fun _ => .pure rfl
  | var name ty =>
    exact .check (h.slotOf (.var name ty) rfl) fun slot => .step fun _ => .pure rfl
  | param index name ty =>
    exact .check (h.slotOf (.param index name ty) rfl) fun slot => .step fun _ => .pure rfl
  | elem array index ty iha ihi =>
    refine iha.bind fun a => ihi.bind fun i => ?_
    rw [h.pop]
    refine .step fun _ => .step fun _ => .pure ?_
    simp [Op.relabel]
  | classRef => exact .unsupported

theorem loadAll_echoes (h : φ.Renamed ρ φ') (ops : List Operand) :
    Echoes (relabel ρ.label) (loadAll φ ops) (loadAll φ' (ops.map (Operand.rename ρ))) := by
  induction ops with
  | nil => exact .pure rfl
  | cons op rest ih =>
    refine (load_echoes h op).bind fun first => ih.bind fun others => .pure ?_
    exact relabel_append ρ.label first others

theorem store_echoes (h : φ.Renamed ρ φ') {dest : Operand} {name : String}
    (hname : dest.name? = some name) :
    Echoes (relabel ρ.label) (store φ dest) (store φ' (dest.rename ρ)) := by
  unfold store
  rw [h.pop, Operand.ty_rename]
  exact .check (h.slotOf dest hname) fun slot => .step fun _ => .pure rfl

theorem inventLabel_echoes {base : String} {τ : String → String}
    (h : ∀ n, τ (placeLabel base n) = placeLabel base n) :
    Echoes τ (inventLabel base) (inventLabel base) := by
  intro s label s' hx
  rw [hx, (inventLabel_ok hx).1, h]

theorem binary_echoes (h : φ.Renamed ρ φ') (op : BinOp) (lhs rhs : Operand) :
    Echoes (relabel ρ.label) (binary φ op lhs rhs)
      (binary φ' op (lhs.rename ρ) (rhs.rename ρ)) := by
  unfold binary
  rw [h.pop]
  refine (load_echoes h lhs).bind fun l => (load_echoes h rhs).bind fun r => ?_
  cases Arith.of? op with
  | some a =>
    refine .step fun _ => .step fun _ => .pure ?_
    simp [Op.relabel]
  | none =>
    refine (inventLabel_echoes h.compareTrue).bind fun yes => ?_
    refine (inventLabel_echoes h.compareEnd).bind fun done => ?_
    refine .step fun _ => .step fun _ => .pure ?_
    simp [Op.relabel]

theorem allocation_echoes (h : φ.Renamed ρ φ') (target : Operand) (args : List Operand) :
    Echoes (relabel ρ.label) (allocation φ target args)
      (allocation φ' (target.rename ρ) (args.map (Operand.rename ρ))) := by
  cases target with
  | classRef name =>
    refine .ite ?_ ?_
    · cases args with
      | nil => exact .unsupported
      | cons size rest =>
        refine (load_echoes h size).bind fun n => ?_
        rw [h.pop]
        refine .step fun _ => .step fun _ => .pure ?_
        simp [Op.relabel]
    · rw [h.imports]
      exact .step fun _ => .pure rfl
  | lit | elem | var | param | self => exact .unsupported

theorem callTarget_echoes (h : φ.Renamed ρ φ') (invocation : Invocation) (target : Operand)
    (result : Ty) :
    Echoes (Prod.map (relabel ρ.label) id) (callTarget φ invocation target result)
      (callTarget φ' invocation (target.rename ρ) result) := by
  have hvirtual : Echoes (Prod.map (relabel ρ.label) id) (callTarget φ .virtual target result)
      (callTarget φ' .virtual (target.rename ρ) result) := by
    refine (load_echoes h target).bind fun lines => ?_
    rw [h.ownerOf]
    exact .step fun owner => .pure rfl
  have hspecial : Echoes (Prod.map (relabel ρ.label) id) (callTarget φ .special target result)
      (callTarget φ' .special (target.rename ρ) result) := by
    refine (load_echoes h target).bind fun lines => ?_
    cases target with
    | self =>
      simp only [Operand.rename, h.superName]
      exact .step fun owner => .pure rfl
    | lit | elem | var | param | classRef =>
      rw [← h.ownerOf]
      exact .step fun owner => .pure rfl
  cases invocation with
  | static =>
    cases target with
    | classRef cls =>
      refine .pure ?_
      rw [h.imports]
      rfl
    | lit | elem | var | param | self => exact .unsupported
  | virtual => exact hvirtual
  | special | new | arrayLength => exact hspecial

theorem namedCall_echoes (h : φ.Renamed ρ φ') (invocation : Invocation) (target : Operand)
    (name : String) (args : List Operand) (result : Ty) :
    Echoes (Prod.map (relabel ρ.label) id) (namedCall φ invocation target name args result)
      (namedCall φ' invocation (target.rename ρ) name (args.map (Operand.rename ρ)) result) := by
  have htypes : (args.map (Operand.rename ρ)).map Operand.ty = args.map Operand.ty := by
    simp
  unfold namedCall
  rw [htypes, h.imports, List.length_map, h.pop]
  refine (callTarget_echoes h invocation target result).bind fun p => ?_
  obtain ⟨receiver, dispatch, owner, ret⟩ := p
  refine (loadAll_echoes h args).bind fun values => ?_
  refine .step fun descriptor => .step fun _ => .ite (.pure ?_) (.step fun _ => .pure ?_)
  · simp [Op.relabel]
  · simp [Op.relabel]

theorem call_echoes (h : φ.Renamed ρ φ') (invocation : Invocation) (target : Operand)
    (method : Option String) (args : List Operand) (result : Ty) :
    Echoes (Prod.map (relabel ρ.label) id) (call φ invocation target method args result)
      (call φ' invocation (target.rename ρ) method (args.map (Operand.rename ρ)) result) := by
  cases invocation with
  | new => exact (allocation_echoes h target args).bind fun lines => .pure rfl
  | arrayLength =>
    refine (load_echoes h target).bind fun lines => ?_
    rw [h.pop]
    refine .step fun _ => .step fun _ => .pure ?_
    simp [Op.relabel]
  | static | virtual | special =>
    cases method with
    | none => exact .unsupported
    | some name => exact namedCall_echoes h _ target name args result

theorem value_echoes (h : φ.Renamed ρ φ') (i : Instr) :
    Echoes (relabel ρ.label) (value φ i) (value φ' (i.rename ρ)) := by
  cases i with
  | single op => exact load_echoes h op
  | binary op lhs rhs => exact binary_echoes h op lhs rhs
  | not op =>
    refine (load_echoes h op).bind fun lines => ?_
    rw [h.pop]
    refine .step fun _ => .step fun _ => .pure ?_
    simp [Op.relabel]
  | getField object field =>
    refine (load_echoes h object).bind fun lines => ?_
    rw [h.fieldRef, h.pop]
    refine .step fun ref => .step fun _ => .step fun _ => .pure ?_
    simp [Op.relabel]
  | call invocation target method args result =>
    refine (call_echoes h invocation target method args result).bind fun p => ?_
    obtain ⟨lines, hasValue⟩ := p
    exact .ite (.pure rfl) .unsupported
  | assign | ret | goto | branch | putField | nop => exact .unsupported

end Values

/-! ### Instructions -/

section Instructions

variable {ρ : Renaming} {φ φ' : Frame}

theorem assign_echoes (h : φ.Renamed ρ φ') (dest : Operand) (rhs : Instr) :
    Echoes (relabel ρ.label) (assign φ dest rhs) (assign φ' (dest.rename ρ) (rhs.rename ρ)) := by
  have hcell {name : String} (hname : dest.name? = some name) : Echoes (relabel ρ.label)
      (do let v ← value φ rhs; return v ++ (← store φ dest))
      (do let v ← value φ' (rhs.rename ρ); return v ++ (← store φ' (dest.rename ρ))) := by
    refine (value_echoes h rhs).bind fun v => (store_echoes h hname).bind fun last => .pure ?_
    exact relabel_append ρ.label v last
  cases dest with
  | elem array index ty =>
    refine (load_echoes h array).bind fun a => (load_echoes h index).bind fun i => ?_
    refine (value_echoes h rhs).bind fun v => ?_
    rw [h.pop]
    refine .step fun _ => .pure ?_
    simp [Op.relabel]
  | var | param => exact hcell rfl
  | lit | self | classRef => exact .unsupported

theorem returnLines_echoes (h : φ.Renamed ρ φ') (value : Option Operand) :
    Echoes (relabel ρ.label) (returnLines φ value)
      (returnLines φ' (value.map (Operand.rename ρ))) := by
  cases value with
  | none => exact .pure rfl
  | some op =>
    refine (load_echoes h op).bind fun lines => ?_
    rw [h.pop]
    refine .step fun _ => .pure ?_
    simp [Op.relabel]

theorem branch_echoes (h : φ.Renamed ρ φ') (cond : Instr) (label : String) :
    Echoes (relabel ρ.label) (branch φ cond label)
      (branch φ' (cond.rename ρ) (ρ.label label)) := by
  have hvalue : Echoes (relabel ρ.label)
      (do let lines ← value φ cond; pop φ 1; return lines ++ [.op (.ifNonzero label)])
      (do
        let lines ← value φ' (cond.rename ρ)
        pop φ' 1
        return lines ++ [.op (.ifNonzero (ρ.label label))]) := by
    refine (value_echoes h cond).bind fun lines => ?_
    rw [h.pop]
    refine .step fun _ => .pure ?_
    simp [Op.relabel]
  cases cond with
  | binary op lhs rhs =>
    simp only [branch, Instr.rename]
    cases Comparison.of? op with
    | none => exact hvalue
    | some cmp =>
      refine (load_echoes h lhs).bind fun l => (load_echoes h rhs).bind fun r => ?_
      rw [h.pop]
      refine .step fun _ => .pure ?_
      simp [Op.relabel]
  | not op =>
    refine (load_echoes h op).bind fun lines => ?_
    rw [h.pop]
    refine .step fun _ => .pure ?_
    simp [Op.relabel]
  | assign | call | ret | goto | branch | getField | putField | single | nop => exact hvalue

theorem discarded_echoes (h : φ.Renamed ρ φ') (lines : List Line) :
    Echoes (relabel ρ.label) (discarded φ lines) (discarded φ' (relabel ρ.label lines)) := by
  unfold discarded
  rw [h.pop]
  refine .step fun _ => .pure ?_
  simp [Op.relabel]

theorem instruction_echoes (h : φ.Renamed ρ φ') (i : Instr) :
    Echoes (relabel ρ.label) (instruction φ i) (instruction φ' (i.rename ρ)) := by
  cases i with
  | assign dest ty rhs => exact assign_echoes h dest rhs
  | call invocation target method args result =>
    refine (call_echoes h invocation target method args result).bind fun p => ?_
    obtain ⟨lines, hasValue⟩ := p
    exact .ite (discarded_echoes h lines) (.pure rfl)
  | ret op => exact returnLines_echoes h op
  | goto | nop => exact .pure rfl
  | branch cond label => exact branch_echoes h cond label
  | putField object field v =>
    refine (load_echoes h object).bind fun o => (load_echoes h v).bind fun x => ?_
    rw [h.fieldRef, h.pop]
    refine .step fun ref => .step fun _ => .pure ?_
    simp [Op.relabel]
  | binary op lhs rhs => exact (value_echoes h (.binary op lhs rhs)).bind (discarded_echoes h)
  | not op => exact (value_echoes h (.not op)).bind (discarded_echoes h)
  | getField object field => exact (value_echoes h (.getField object field)).bind (discarded_echoes h)
  | single op => exact (value_echoes h (.single op)).bind (discarded_echoes h)

theorem stepLines_echoes (h : φ.Renamed ρ φ') (steps : List Flat.Step) :
    Echoes (relabel ρ.label) (stepLines φ steps)
      (stepLines φ' (steps.map (Flat.Step.rename ρ))) := by
  induction steps with
  | nil => exact .pure rfl
  | cons s rest ih =>
    have hlabels : relabel ρ.label (s.labels.map .label) = (s.labels.map ρ.label).map .label := by
      rw [relabel, List.map_map, List.map_map]
      rfl
    refine (instruction_echoes h s.instr).bind fun lines => ih.bind fun others => .pure ?_
    rw [relabel_append, relabel_append, hlabels]
    rfl

end Instructions

/-! ### Methods -/

theorem closing_rename (ρ : Renaming) (m : Flat.Method) : closing (m.rename ρ) = closing m := by
  unfold closing
  rw [Flat.Method.hasReturn_rename, Flat.Method.endsInReturn_rename]
  rfl

theorem relabel_closing (τ : String → String) (m : Flat.Method) :
    relabel τ (closing m) = closing m := by
  unfold closing
  split <;> rfl

/-- Other names for variables and labels change the labels of the assembly and nothing else. -/
theorem emit_rename {ρ : Renaming} {cls cls' : Flat.Class} {m : Flat.Method}
    {table table' : SlotTable} {out : Method}
    (hframe : Frame.Renamed ρ ⟨cls, m, table⟩ ⟨cls', m.rename ρ, table'⟩)
    (hlimit : table'.localsLimit = table.localsLimit) (h : Method.emit cls m table = .ok out) :
    Method.emit cls' (m.rename ρ) table' = .ok (out.relabel ρ.label) := by
  obtain ⟨⟨lines, state⟩, hlines, h⟩ := bind_eq_ok.mp h
  obtain ⟨descriptor, hdescriptor, h⟩ := bind_eq_ok.mp h
  obtain rfl := pure_eq_ok.mp h
  have hlines' := stepLines_echoes hframe m.steps {} lines state hlines
  refine bind_eq_ok.mpr ⟨(relabel ρ.label lines, state), hlines', ?_⟩
  refine bind_eq_ok.mpr ⟨descriptor, ?_, pure_eq_ok.mpr ?_⟩
  · rw [show cls'.imports = cls.imports from hframe.imports]
    exact hdescriptor
  · rw [hlimit, closing_rename, Method.relabel, relabel_append, relabel_closing]
    rfl

end JavaMinus.Assembly
