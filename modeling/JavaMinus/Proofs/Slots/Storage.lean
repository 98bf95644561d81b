import JavaMinus.Proofs.Flat.Execution
import JavaMinus.Proofs.Slots.Disjoint

/-!
# Cells and slots

Two ways of keeping the variables of a method: one cell for each name, and numbered slots with a table
that says which name has which slot.
-/

namespace JavaMinus

open JavaMinus.Behaviour
open JavaMinus.Flat

/-! ### Cells and slots -/

structure NamedCells where
  self : Option Value
  cell : String → Value

def namedCells : Storage NamedCells where
  self? c := c.self
  read? c x := some (c.cell x.name)
  write? c x v := some { c with cell := fun n => if n = x.name then v else c.cell n }

abbrev Slots := Nat → Value

def Slots.set (f : Slots) (index : Nat) (v : Value) : Slots :=
  fun n => if n = index then v else f n

/-- Variables are kept in the slots of a table. Slot zero of an instance method holds the current
object. -/
def slotCells (table : SlotTable) (isStatic : Bool) : Storage Slots where
  self? f := if isStatic then none else some (f 0)
  read? f x := (table.get? x.name).map fun slot => f slot.index
  write? f x v := (table.get? x.name).map fun slot => f.set slot.index v

/-- The slots hold the values of the cells, for the names that matter. -/
structure HoldsOn (table : SlotTable) (isStatic : Bool) (matters : String → Prop) (c : NamedCells)
    (f : Slots) : Prop where
  self : c.self = if isStatic then none else some (f 0)
  cells : ∀ name, matters name → ∀ slot, table.get? name = some slot → c.cell name = f slot.index

theorem HoldsOn.mono {table : SlotTable} {isStatic : Bool} {p q : String → Prop} {c : NamedCells}
    {f : Slots} (h : HoldsOn table isStatic p c f) (hpq : ∀ name, q name → p name) :
    HoldsOn table isStatic q c f :=
  ⟨h.self, fun name hname => h.cells name (hpq name hname)⟩

theorem HoldsOn.set {table : SlotTable} {isStatic : Bool} {p q : String → Prop} {c : NamedCells}
    {f : Slots} (h : HoldsOn table isStatic p c f) {name : String} {slot : Slot}
    (hslot : table.get? name = some slot) (hzero : isStatic = false → slot.index ≠ 0)
    (hothers : ∀ x, q x → x ≠ name →
      p x ∧ ∀ slotx, table.get? x = some slotx → slotx.index ≠ slot.index) (v : Value) :
    HoldsOn table isStatic q { c with cell := fun n => if n = name then v else c.cell n }
      (f.set slot.index v) := by
  constructor
  · rw [h.self]
    cases hstatic : isStatic with
    | true => rfl
    | false =>
      have hne : 0 ≠ slot.index.toNat := fun heq => hzero hstatic (UInt16.toNat_inj.mp heq.symm)
      simp [Slots.set, hne]
  · intro x hx slotx hslotx
    by_cases heq : x = name
    · subst heq
      obtain rfl := Option.some.inj (hslot.symm.trans hslotx)
      simp [Slots.set]
    · obtain ⟨hp, hne⟩ := hothers x hx heq
      have hother : slotx.index.toNat ≠ slot.index.toNat :=
        fun heq => hne slotx hslotx (UInt16.toNat_inj.mp heq)
      simp only [Slots.set, if_neg heq, if_neg hother]
      exact h.cells x hp slotx hslotx

/-! ### Names that instructions mention -/

namespace Flat

theorem Operand.reads_parts {op : Operand} {name : String} (h : name ∈ op.reads) :
    ∃ p ∈ op.parts, p.name? = some name := by
  induction op with
  | var x ty | param index x ty =>
    obtain rfl : name = x := by simpa [Operand.reads] using h
    exact ⟨_, List.mem_singleton_self _, rfl⟩
  | elem array index ty iha ihi =>
    simp only [Operand.parts, List.mem_cons, List.mem_append]
    rcases List.mem_append.mp h with h | h
    · obtain ⟨p, hp, hname⟩ := iha h
      exact ⟨p, .inr (.inl hp), hname⟩
    · obtain ⟨p, hp, hname⟩ := ihi h
      exact ⟨p, .inr (.inr hp), hname⟩
  | lit | self | classRef => simp [Operand.reads] at h

theorem Operand.mem_parts (op : Operand) : op ∈ op.parts := by
  cases op <;> simp [Operand.parts]

theorem Instr.destReads_parts {dest : Operand} {name : String} (h : name ∈ Instr.destReads dest) :
    ∃ p ∈ dest.parts, p.name? = some name := by
  cases dest with
  | elem array index ty => exact Operand.reads_parts h
  | lit | var | param | self | classRef => simp [Instr.destReads] at h

theorem Instr.reads_operands {i : Instr} {name : String} (h : name ∈ i.reads) :
    ∃ op ∈ i.operands, op.name? = some name := by
  induction i with
  | assign dest ty rhs ih =>
    simp only [Instr.operands, List.mem_append]
    rcases List.mem_append.mp h with h | h
    · obtain ⟨p, hp, hname⟩ := Instr.destReads_parts h
      exact ⟨p, .inl hp, hname⟩
    · obtain ⟨p, hp, hname⟩ := ih h
      exact ⟨p, .inr hp, hname⟩
  | binary op lhs rhs | putField lhs field rhs =>
    simp only [Instr.operands, List.mem_append]
    rcases List.mem_append.mp h with h | h
    · obtain ⟨p, hp, hname⟩ := Operand.reads_parts h
      exact ⟨p, .inl hp, hname⟩
    · obtain ⟨p, hp, hname⟩ := Operand.reads_parts h
      exact ⟨p, .inr hp, hname⟩
  | not op | single op | getField op field => exact Operand.reads_parts h
  | call invocation target method args result =>
    simp only [Instr.operands, List.mem_append]
    rcases List.mem_append.mp h with h | h
    · obtain ⟨p, hp, hname⟩ := Operand.reads_parts h
      exact ⟨p, .inl hp, hname⟩
    · obtain ⟨a, ha, h⟩ := List.mem_flatMap.mp h
      obtain ⟨p, hp, hname⟩ := Operand.reads_parts h
      exact ⟨p, .inr (List.mem_flatMap.mpr ⟨a, ha, hp⟩), hname⟩
  | ret value =>
    cases value with
    | none => simp [Instr.reads] at h
    | some op => exact Operand.reads_parts h
  | branch cond label ih => exact ih h
  | goto | nop => simp [Instr.reads] at h

theorem Instr.defines?_operands {i : Instr} {name : String} (h : i.defines? = some name) :
    ∃ op ∈ i.operands, op.name? = some name := by
  cases i with
  | assign dest ty rhs => exact ⟨dest, List.mem_append_left _ (Operand.mem_parts dest), h⟩
  | binary | not | call | ret | goto | branch | getField | putField | single | nop =>
    simp [Instr.defines?] at h

end Flat

def Flat.Operand.paramName? : Operand → Option String
  | .param _ name _ => some name
  | _ => none

/-- Parameter operands name parameters of the method. -/
def ParamsNamed (m : Method) : Prop :=
  ∀ s ∈ m.steps, ∀ op ∈ s.instr.operands, ∀ name ∈ op.paramName?, name ∈ m.params.map (·.name)

instance (m : Method) : Decidable (ParamsNamed m) :=
  inferInstanceAs (Decidable (∀ s ∈ m.steps, ∀ op ∈ s.instr.operands, ∀ name ∈ op.paramName?,
    name ∈ m.params.map (·.name)))

theorem ParamsNamed.name_cases {m : Method} (h : ParamsNamed m) {s : Step} (hs : s ∈ m.steps)
    {op : Operand} (hop : op ∈ s.instr.operands) {name : String} (hname : op.name? = some name) :
    name ∈ m.vars.map (·.1) ∨ name ∈ m.params.map (·.name) := by
  cases op with
  | var x ty =>
    obtain rfl : x = name := by simpa [Operand.name?] using hname
    exact .inl (Method.mem_vars.mpr ⟨s, hs, ty, hop⟩)
  | param index x ty =>
    obtain rfl : x = name := by simpa [Operand.name?] using hname
    exact .inr (h s hs _ hop x rfl)
  | lit | elem | self | classRef => simp [Operand.name?] at hname

end JavaMinus
