import JavaMinus.Proofs.Assembly.ControlFlow
import JavaMinus.Proofs.Slots.Storage

/-!
# Loads and stores of emitted lines

Which operand a load or a store in an emitted body stands for. An instruction loads its operands in
order, then works without looking at slots, and stores last, if at all. Each of these accesses is one
line, so the lines of a body and the accesses of its method correspond one to one.
-/

namespace JavaMinus.Flat

/-- A load of a variable, of a parameter or of the current object, or a store to a variable or
parameter. -/
inductive Access where
  | load (op : Operand)
  | store (op : Operand)
deriving DecidableEq

/-- The operands that are loaded for the value of an operand, in order. -/
def Operand.loads : Operand → List Operand
  | .elem array index _ => array.loads ++ index.loads
  | .lit .. | .classRef _ => []
  | op => [op]

namespace Instr

def destLoads : Operand → List Operand
  | .elem array index _ => array.loads ++ index.loads
  | _ => []

/-- What a call loads. An allocation looks at the size of an array only, and a class is no value. -/
def callLoads (invocation : Invocation) (target : Operand) (args : List Operand) : List Operand :=
  match invocation with
  | .new => if target = .classRef "array" then (args.take 1).flatMap Operand.loads else []
  | .arrayLength => target.loads
  | .static => args.flatMap Operand.loads
  | .virtual | .special => target.loads ++ args.flatMap Operand.loads

/-- The operands that an instruction loads, in order. -/
def loads : Instr → List Operand
  | .assign dest _ rhs => destLoads dest ++ rhs.loads
  | .binary _ lhs rhs => lhs.loads ++ rhs.loads
  | .not op | .single op => op.loads
  | .call invocation target _ args _ => callLoads invocation target args
  | .ret (some value) => value.loads
  | .branch cond _ => cond.loads
  | .getField object _ => object.loads
  | .putField object _ value => object.loads ++ value.loads
  | .ret none | .goto _ | .nop => []

/-- The variable or parameter that an instruction stores to. -/
def stores? : Instr → Option Operand
  | .assign dest _ _ => if dest.name?.isSome then some dest else none
  | _ => none

def accesses (i : Instr) : List Access :=
  i.loads.map .load ++ i.stores?.toList.map .store

end Instr

def Method.accesses (m : Method) : List Access :=
  m.steps.flatMap fun s => s.instr.accesses

section Accesses

variable {op part : Operand} {v : String} {i : Instr}

/-- What is loaded is an operand, and its name is read. -/
theorem Operand.mem_loads (h : part ∈ op.loads) :
    part ∈ op.parts ∧ ∀ v, part.name? = some v → v ∈ op.reads := by
  induction op with
  | elem array index ty iha ihi =>
    simp only [Operand.parts, Operand.reads, List.mem_cons, List.mem_append]
    rcases List.mem_append.mp h with h | h
    · obtain ⟨hpart, hread⟩ := iha h
      exact ⟨.inr (.inl hpart), fun v hv => .inl (hread v hv)⟩
    · obtain ⟨hpart, hread⟩ := ihi h
      exact ⟨.inr (.inr hpart), fun v hv => .inr (hread v hv)⟩
  | lit | classRef => cases h
  | var name ty | param k name ty =>
    refine ⟨h, fun v hv => ?_⟩
    obtain rfl := List.mem_singleton.mp h
    obtain rfl := Option.some.inj hv
    exact List.mem_singleton_self _
  | self cls =>
    refine ⟨h, fun v hv => ?_⟩
    obtain rfl := List.mem_singleton.mp h
    cases hv

theorem Instr.mem_callLoads {invocation : Invocation} {target : Operand} {args : List Operand}
    (h : part ∈ callLoads invocation target args) :
    part ∈ target.loads ∨ part ∈ args.flatMap Operand.loads := by
  unfold callLoads at h
  split at h
  · split at h
    · obtain ⟨arg, harg, h⟩ := List.mem_flatMap.mp h
      exact .inr (List.mem_flatMap.mpr ⟨arg, List.mem_of_mem_take harg, h⟩)
    · cases h
  · exact .inl h
  · exact .inr h
  · exact List.mem_append.mp h
  · exact List.mem_append.mp h

theorem Instr.mem_loads (h : part ∈ i.loads) :
    part ∈ i.operands ∧ ∀ v, part.name? = some v → v ∈ i.reads := by
  induction i with
  | assign dest ty rhs ih =>
    simp only [Instr.operands, Instr.reads, List.mem_append]
    rcases List.mem_append.mp h with h | h
    · cases dest with
      | elem array index elemTy =>
        have hdest : part ∈ (Operand.elem array index elemTy).loads := h
        obtain ⟨hpart, hread⟩ := Operand.mem_loads hdest
        exact ⟨.inl hpart, fun v hv => .inl (hread v hv)⟩
      | lit | var | param | self | classRef => cases h
    · obtain ⟨hpart, hread⟩ := ih h
      exact ⟨.inr hpart, fun v hv => .inr (hread v hv)⟩
  | binary op lhs rhs | putField lhs field rhs =>
    simp only [Instr.operands, Instr.reads, List.mem_append]
    rcases List.mem_append.mp h with h | h
    · obtain ⟨hpart, hread⟩ := Operand.mem_loads h
      exact ⟨.inl hpart, fun v hv => .inl (hread v hv)⟩
    · obtain ⟨hpart, hread⟩ := Operand.mem_loads h
      exact ⟨.inr hpart, fun v hv => .inr (hread v hv)⟩
  | not op | single op | getField op field => exact Operand.mem_loads h
  | call invocation target method args result =>
    simp only [Instr.operands, Instr.reads, List.mem_append]
    rcases Instr.mem_callLoads h with h | h
    · obtain ⟨hpart, hread⟩ := Operand.mem_loads h
      exact ⟨.inl hpart, fun v hv => .inl (hread v hv)⟩
    · obtain ⟨arg, harg, h⟩ := List.mem_flatMap.mp h
      obtain ⟨hpart, hread⟩ := Operand.mem_loads h
      exact ⟨.inr (List.mem_flatMap.mpr ⟨arg, harg, hpart⟩),
        fun v hv => .inr (List.mem_flatMap.mpr ⟨arg, harg, hread v hv⟩)⟩
  | ret value =>
    cases value with
    | none => cases h
    | some op => exact Operand.mem_loads h
  | branch cond label ih => exact ih h
  | goto | nop => cases h

theorem Instr.stores?_eq_some (h : i.stores? = some op) :
    op ∈ i.operands ∧ ∃ v, op.name? = some v ∧ i.defines? = some v := by
  cases i with
  | assign dest ty rhs =>
    cases hname : dest.name? with
    | none => simp [stores?, hname] at h
    | some v =>
      obtain rfl : dest = op := by simpa [stores?, hname] using h
      exact ⟨List.mem_append_left _ (Operand.mem_parts dest), v, hname, hname⟩
  | binary | not | call | ret | goto | branch | getField | putField | single | nop => cases h

theorem Instr.stores?_of_defines? (h : i.defines? = some v) :
    ∃ op, i.stores? = some op ∧ op.name? = some v := by
  cases i with
  | assign dest ty rhs =>
    have hname : dest.name? = some v := h
    exact ⟨dest, by simp [stores?, hname], hname⟩
  | binary | not | call | ret | goto | branch | getField | putField | single | nop => cases h

end Accesses

end JavaMinus.Flat

namespace JavaMinus.Assembly

open JavaMinus.Flat (Operand Instr Invocation Ty Access)

/-! ### Lines of accesses -/

def Line.isAccess : Line → Bool
  | .op (.load ..) | .op (.store ..) => true
  | _ => false

/-- The line that an access becomes with the slots of a table. -/
def accessLine? (table : SlotTable) : Access → Option Line
  | .load (.self _) => some (.op (.load .ref 0))
  | .load op => (op.name?.bind table.get?).map fun slot => .op (.load (.of op.ty) slot.index)
  | .store op => (op.name?.bind table.get?).map fun slot => .op (.store (.of op.ty) slot.index)

theorem accessLine?_store {table : SlotTable} {op : Operand} {line : Line}
    (h : accessLine? table (.store op) = some line) :
    ∃ v slot, op.name? = some v ∧ table.get? v = some slot ∧
      line = .op (.store (.of op.ty) slot.index) := by
  obtain ⟨slot, hslot, hline⟩ := Option.map_eq_some_iff.mp h
  obtain ⟨v, hv, hget⟩ := Option.bind_eq_some_iff.mp hslot
  exact ⟨v, slot, hv, hget, hline.symm⟩

theorem accessLine?_load {table : SlotTable} {op : Operand} {line : Line}
    (h : accessLine? table (.load op) = some line) :
    (∃ cls, op = .self cls ∧ line = .op (.load .ref 0)) ∨
      ∃ v slot, op.name? = some v ∧ table.get? v = some slot ∧
        line = .op (.load (.of op.ty) slot.index) := by
  cases op with
  | self cls => exact .inl ⟨cls, rfl, (Option.some.inj h).symm⟩
  | lit | elem | classRef => cases h
  | var | param =>
    right
    obtain ⟨slot, hslot, hline⟩ := Option.map_eq_some_iff.mp h
    obtain ⟨v, hv, hget⟩ := Option.bind_eq_some_iff.mp hslot
    exact ⟨v, slot, hv, hget, hline.symm⟩

/-- The loads and stores among the lines are these accesses, in order. -/
def Performs (table : SlotTable) (lines : List Line) (accesses : List Access) : Prop :=
  (lines.filter Line.isAccess).map some = accesses.map (accessLine? table)

/-- Control runs through the lines from first to last. -/
def Straight (lines : List Line) : Prop :=
  ∀ line ∈ lines, line.falls = true ∧ line.target? = none

section Lists

variable {table : SlotTable} {a b : List Line} {as bs : List Access} {line : Line}

theorem Performs.append (ha : Performs table a as) (hb : Performs table b bs) :
    Performs table (a ++ b) (as ++ bs) := by
  unfold Performs at ha hb ⊢
  rw [List.filter_append, List.map_append, List.map_append, ha, hb]

theorem performs_quiet (h : ∀ line ∈ a, line.isAccess = false) : Performs table a [] := by
  unfold Performs
  rw [List.filter_eq_nil_iff.mpr fun line hline => by simp [h line hline]]
  rfl

theorem Straight.append (ha : Straight a) (hb : Straight b) : Straight (a ++ b) := by
  intro line hline
  rcases List.mem_append.mp hline with hline | hline
  · exact ha line hline
  · exact hb line hline

theorem Straight.nil : Straight [] :=
  fun _ h => absurd h List.not_mem_nil

theorem Straight.single (h : line.falls = true) (h' : line.target? = none) : Straight [line] := by
  intro line' hline
  obtain rfl := List.mem_singleton.mp hline
  exact ⟨h, h'⟩

end Lists

/-- Lines that load these operands and then work without looking at slots. Jumps among the latter stay
there. -/
structure Staged (table : SlotTable) (ops : List Operand) (front work : List Line) : Prop where
  straight : Straight front
  loads : Performs table front (ops.map .load)
  quiet : ∀ line ∈ work, line.isAccess = false
  inside : ∀ name ∈ lineJumps work, name ∈ lineLabels work

namespace Staged

variable {table : SlotTable} {ops ops' : List Operand} {a b work : List Line} {line : Line}

theorem nil : Staged table [] [] [] :=
  ⟨.nil, rfl, by simp, by simp⟩

theorem append (ha : Staged table ops a []) (hb : Staged table ops' b work) :
    Staged table (ops ++ ops') (a ++ b) work := by
  refine ⟨ha.straight.append hb.straight, ?_, hb.quiet, hb.inside⟩
  rw [List.map_append]
  exact ha.loads.append hb.loads

theorem load {op : Operand} (hline : accessLine? table (.load op) = some line)
    (hfalls : line.falls = true) (htarget : line.target? = none) (haccess : line.isAccess = true) :
    Staged table [op] [line] [] := by
  refine ⟨.single hfalls htarget, ?_, by simp, by simp⟩
  simp [Performs, haccess, hline]

/-- One more line that is no access. -/
theorem pass (h : Staged table ops a []) (hfalls : line.falls = true)
    (htarget : line.target? = none) (haccess : line.isAccess = false) :
    Staged table ops (a ++ [line]) [] := by
  refine ⟨h.straight.append (.single hfalls htarget), ?_, h.quiet, h.inside⟩
  have hquiet : Performs table [line] [] := performs_quiet (by simpa using haccess)
  simpa using h.loads.append hquiet

theorem followed (h : Staged table ops a []) (hquiet : ∀ line ∈ work, line.isAccess = false)
    (hinside : ∀ name ∈ lineJumps work, name ∈ lineLabels work) : Staged table ops a work :=
  ⟨h.straight, h.loads, hquiet, hinside⟩

end Staged

section Values

variable {φ : Frame} {lines : List Line}

theorem cell_loads {op : Operand} {cell : Flat.Cell} {slot : Slot} (hcell : op.cell? = some cell)
    (hslot : φ.slots.get? cell.name = some slot) :
    op.loads = [op] ∧ op.name? = some cell.name ∧
      accessLine? φ.slots (.load op) = some (.op (.load (.of op.ty) slot.index)) := by
  cases op with
  | var name ty | param k name ty =>
    obtain rfl := Option.some.inj hcell
    exact ⟨rfl, rfl, by simp [accessLine?, Operand.name?, show φ.slots.get? name = some slot from hslot]⟩
  | lit | elem | self | classRef => cases hcell

theorem Loads.staged {op : Operand} (h : Loads φ op lines) : Staged φ.slots op.loads lines [] := by
  induction h with
  | lit => exact Staged.nil.pass rfl rfl rfl
  | self => exact .load rfl rfl rfl rfl
  | cell hcell hslot =>
    obtain ⟨hloads, _, hline⟩ := cell_loads hcell hslot
    rw [hloads]
    exact .load hline rfl rfl rfl
  | elem ty _ _ iha ihi => exact (iha.append ihi).pass rfl rfl rfl

theorem LoadsAll.staged {ops : List Operand} (h : LoadsAll φ ops lines) :
    Staged φ.slots (ops.flatMap Operand.loads) lines [] := by
  induction h with
  | nil => exact .nil
  | cons hop _ ih => exact hop.staged.append ih

theorem Receives.staged {invocation : Invocation} {dispatch : Dispatch} {target : Operand}
    (h : Receives φ dispatch target lines) (hdispatch : dispatch? invocation = some dispatch)
    {args : List Operand} {values : List Line} (hargs : LoadsAll φ args values) :
    Staged φ.slots (Instr.callLoads invocation target args) (lines ++ values) [] := by
  cases h with
  | static cls =>
    cases invocation with
    | static => exact hargs.staged
    | virtual | special | new | arrayLength => cases hdispatch
  | value hne hload =>
    cases invocation with
    | virtual | special => exact hload.staged.append hargs.staged
    | static =>
      obtain rfl := Option.some.inj hdispatch
      exact absurd rfl hne
    | new | arrayLength => cases hdispatch

theorem Calls.staged {invocation : Invocation} {target : Operand} {method : Option String}
    {args : List Operand} {result : Ty} {hasValue : Bool}
    (h : Calls φ invocation target method args result lines hasValue) :
    ∃ front o, lines = front ++ [.op o] ∧ (Line.op o).falls = true ∧ (Line.op o).target? = none ∧
      (Line.op o).isAccess = false ∧
      Staged φ.slots (Instr.callLoads invocation target args) front [] := by
  cases h with
  | newArray _ rest _ hsize =>
    refine ⟨_, _, rfl, rfl, rfl, rfl, ?_⟩
    simpa [Instr.callLoads] using hsize.staged
  | newObject _ _ _ hname =>
    refine ⟨[], _, rfl, rfl, rfl, rfl, ?_⟩
    simpa [Instr.callLoads, hname] using Staged.nil
  | arrayLength _ _ _ htarget => exact ⟨_, _, rfl, rfl, rfl, rfl, htarget.staged⟩
  | named hdispatch hreceiver hargs _ =>
    exact ⟨_, _, rfl, rfl, rfl, rfl, hreceiver.staged hdispatch hargs⟩

theorem Pushes.staged {i : Instr} {n n' : Nat} (h : Pushes φ i lines n n') :
    ∃ front work, lines = front ++ work ∧ Staged φ.slots i.loads front work := by
  cases h with
  | single _ h => exact ⟨lines, [], (List.append_nil _).symm, h.staged⟩
  | arith _ _ hl hr =>
    exact ⟨_, [], (List.append_nil _).symm, (hl.staged.append hr.staged).pass rfl rfl rfl⟩
  | @compare _ cmp _ _ _ _ _ _ hl hr =>
    refine ⟨_, compareLines cmp n, rfl, (hl.staged.append hr.staged).followed ?_ ?_⟩
    · simp [compareLines, Line.isAccess]
    · simp [compareLines, Line.target?]
  | not _ h =>
    refine ⟨_, [.op (.const 1), .op (.arith .xor)], rfl, h.staged.followed ?_ ?_⟩
    · simp [Line.isAccess]
    · simp [Line.target?]
  | getField _ hobject _ => exact ⟨_, [], (List.append_nil _).symm, hobject.staged.pass rfl rfl rfl⟩
  | call _ h =>
    obtain ⟨front, o, rfl, hfalls, htarget, haccess, hstaged⟩ := h.staged
    exact ⟨_, [], (List.append_nil _).symm, hstaged.pass hfalls htarget haccess⟩

end Values

/-! ### Blocks -/

/-- The block of an instruction: the loads, the work and one last line. Only the last line can store,
leave the block or jump to a label of the method. -/
structure Block (table : SlotTable) (i : Instr) (front work : List Line) (o : Op) : Prop where
  staged : Staged table i.loads front work
  last : Performs table [.op o] (i.stores?.toList.map .store)
  target : (Line.op o).target? = Lowering.target? i
  falls : (Line.op o).falls = true → i.isReturn = false ∧ ∀ label, i ≠ .goto label

/-- A last line that is no access closes the block of an instruction that stores nowhere. -/
theorem block_of_staged {table : SlotTable} {i : Instr} {front work : List Line} {o : Op}
    (h : Staged table i.loads front work) (hstore : i.stores? = none)
    (haccess : (Line.op o).isAccess = false) (htarget : (Line.op o).target? = Lowering.target? i)
    (hfalls : (Line.op o).falls = true → i.isReturn = false ∧ ∀ label, i ≠ .goto label) :
    Block table i front work o := by
  refine ⟨h, ?_, htarget, hfalls⟩
  rw [hstore]
  exact performs_quiet (by simpa using haccess)

theorem Pushes.plain {φ : Frame} {i : Instr} {lines : List Line} {n n' : Nat}
    (h : Pushes φ i lines n n') :
    i.stores? = none ∧ Lowering.target? i = none ∧ i.isReturn = false ∧ ∀ label, i ≠ .goto label := by
  cases h with
  | single | arith | compare | not | getField | call => exact ⟨rfl, rfl, rfl, by simp⟩

theorem Emits.block {φ : Frame} {i : Instr} {lines : List Line} {n n' : Nat}
    (h : Emits φ i lines n n') :
    ∃ front work o, lines = front ++ work ++ [.op o] ∧ Block φ.slots i front work o := by
  have hnever (o : Op) (h : (Line.op o).falls = false) {p : Prop} : (Line.op o).falls = true → p := by
    simp [h]
  cases h with
  | @assignElem _ _ _ a i _ _ _ ty ty' ha hi hv =>
    obtain ⟨front, work, rfl, hstaged⟩ := hv.staged
    refine ⟨a ++ i ++ front, work, .arrayStore (.of ty), by simp only [List.append_assoc], ?_⟩
    exact block_of_staged ((ha.staged.append hi.staged).append hstaged) rfl rfl rfl
      (by simp [Instr.isReturn])
  | @assignCell dest cell slot rhs v _ _ ty hcell hslot hv =>
    obtain ⟨front, work, rfl, hstaged⟩ := hv.staged
    obtain ⟨_, hname, _⟩ := cell_loads hcell hslot
    refine ⟨front, work, _, rfl, ?_, ?_, rfl, by simp [Instr.isReturn]⟩
    · have hdest : Instr.destLoads dest = [] := by
        cases dest with
        | elem => cases hcell
        | lit | var | param | self | classRef => rfl
      rw [Instr.loads, hdest, List.nil_append]
      exact hstaged
    · simp [Performs, Instr.stores?, hname, accessLine?, hslot, Line.isAccess]
  | retNone => exact ⟨[], [], .ret, rfl, block_of_staged .nil rfl rfl rfl (hnever _ rfl)⟩
  | @ret op _ _ h =>
    exact ⟨_, [], .retValue (.of op.ty), by rw [List.append_nil],
      block_of_staged h.staged rfl rfl rfl (hnever _ rfl)⟩
  | goto label => exact ⟨[], [], .goto label, rfl, block_of_staged .nil rfl rfl rfl (hnever _ rfl)⟩
  | @branchCompare _ cmp _ _ _ _ label _ _ hl hr =>
    exact ⟨_, [], .ifCompare cmp label, by rw [List.append_nil],
      block_of_staged (hl.staged.append hr.staged) rfl rfl rfl (by simp [Instr.isReturn])⟩
  | branchNot label _ h =>
    exact ⟨_, [], .ifZero label, by rw [List.append_nil],
      block_of_staged h.staged rfl rfl rfl (by simp [Instr.isReturn])⟩
  | branchValue label h =>
    obtain ⟨front, work, rfl, hstaged⟩ := h.staged
    exact ⟨front, work, .ifNonzero label, rfl,
      block_of_staged hstaged rfl rfl rfl (by simp [Instr.isReturn])⟩
  | @putField _ _ _ _ _ ref _ ho hx _ =>
    exact ⟨_, [], .putField ref, by rw [List.append_nil],
      block_of_staged (ho.staged.append hx.staged) rfl rfl rfl (by simp [Instr.isReturn])⟩
  | nop => exact ⟨[], [], .nop, rfl, block_of_staged .nil rfl rfl rfl (by simp [Instr.isReturn])⟩
  | callVoid _ h =>
    obtain ⟨front, o, rfl, _, htarget, haccess, hstaged⟩ := h.staged
    exact ⟨front, [], o, by rw [List.append_nil],
      block_of_staged hstaged rfl haccess htarget (by simp [Instr.isReturn])⟩
  | discard h =>
    obtain ⟨hstore, htarget, hfalls⟩ := h.plain
    obtain ⟨front, work, rfl, hstaged⟩ := h.staged
    exact ⟨front, work, .pop, rfl, block_of_staged hstaged hstore rfl htarget.symm fun _ => hfalls⟩

/-! ### Accesses that are left -/

/-- The accesses of an instruction that are left when `n` lines of its block are done. -/
def pending (i : Instr) (block : List Line) (n : Nat) : List Access :=
  i.accesses.drop ((block.take n).countP Line.isAccess)

@[simp] theorem pending_zero (i : Instr) (block : List Line) : pending i block 0 = i.accesses := rfl

section Pending

variable {table : SlotTable} {i : Instr} {block front work : List Line} {line : Line} {o : Op} {n : Nat}

theorem filter_drop {α : Type} (p : α → Bool) (l : List α) (n : Nat) :
    (l.drop n).filter p = (l.filter p).drop ((l.take n).countP p) := by
  have hsplit : l.filter p = (l.take n).filter p ++ (l.drop n).filter p := by
    rw [← List.filter_append, List.take_append_drop]
  rw [hsplit, List.countP_eq_length_filter, List.drop_left]

theorem Performs.length_eq {lines : List Line} {accesses : List Access}
    (h : Performs table lines accesses) : lines.countP Line.isAccess = accesses.length := by
  have hlen := congrArg List.length h
  rw [List.length_map, List.length_map] at hlen
  rw [List.countP_eq_length_filter, hlen]

theorem Performs.drop (h : Performs table block i.accesses) (n : Nat) :
    Performs table (block.drop n) (pending i block n) := by
  unfold Performs pending at *
  rw [filter_drop, List.map_drop, h, List.map_drop]

/-- A line is no access, or it is the first of those that are left. -/
theorem Performs.next (h : Performs table block i.accesses) (hline : block[n]? = some line) :
    (line.isAccess = false ∧ pending i block n = pending i block (n + 1)) ∨
      (line.isAccess = true ∧ ∃ access, accessLine? table access = some line ∧
        pending i block n = access :: pending i block (n + 1)) := by
  obtain ⟨hlt, hget⟩ := List.getElem?_eq_some_iff.mp hline
  have hcount : (block.take (n + 1)).countP Line.isAccess =
      (block.take n).countP Line.isAccess + if line.isAccess then 1 else 0 := by
    rw [← List.take_append_getElem hlt, List.countP_append, hget]
    simp [List.countP_cons]
  cases haccess : line.isAccess with
  | false =>
    left
    refine ⟨rfl, ?_⟩
    unfold pending
    rw [hcount, haccess]
    rfl
  | true =>
    right
    refine ⟨rfl, ?_⟩
    have hdrop := h.drop n
    unfold Performs at hdrop
    rw [List.drop_eq_getElem_cons hlt, hget, List.filter_cons_of_pos haccess, List.map_cons] at hdrop
    cases hpending : pending i block n with
    | nil => simp [hpending] at hdrop
    | cons access rest =>
      rw [hpending, List.map_cons, List.cons.injEq] at hdrop
      refine ⟨access, hdrop.1.symm, ?_⟩
      have hrest : pending i block (n + 1) = (pending i block n).tail := by
        unfold pending
        rw [hcount, haccess, List.tail_drop]
        rfl
      rw [hrest, hpending, List.tail_cons]

namespace Block

theorem performs (h : Block table i front work o) :
    Performs table (front ++ work ++ [.op o]) i.accesses := by
  have hwork : Performs table work [] := performs_quiet h.staged.quiet
  have hall := (h.staged.loads.append hwork).append h.last
  rw [List.append_nil] at hall
  exact hall

/-- Behind the loads only the store is left. -/
theorem pending_work (h : Block table i front work o) (hn : n ≤ work.length) :
    pending i (front ++ work ++ [.op o]) (front.length + n) = i.stores?.toList.map .store := by
  have hquiet : (work.take n).countP Line.isAccess = 0 := by
    rw [List.countP_eq_zero]
    intro line hline
    simp [h.staged.quiet line (List.mem_of_mem_take hline)]
  have htake : (front ++ work ++ [Line.op o]).take (front.length + n) = front ++ work.take n := by
    rw [List.append_assoc, List.take_length_add_append, List.take_append_of_le_length hn]
  unfold pending
  rw [htake, List.countP_append, hquiet, Nat.add_zero, h.staged.loads.length_eq, Instr.accesses,
    List.drop_left]

end Block

end Pending

end JavaMinus.Assembly
