import JavaMinus.Proofs.Assembly.Accesses
import JavaMinus.Proofs.Assembly.StackDepths
import JavaMinus.Proofs.Liveness.Paths
import JavaMinus.Proofs.Slots.Frame

/-!
# Slots along the paths of a body

At each line of an emitted body some variables are wanted: a path leads from there to a load of the
variable, and no store to it comes before. What is wanted at a line is live at its step or about to be
loaded in its block. Where a store goes to one variable, the others that are wanted afterwards are live
behind the step, so they have other slots.
-/

namespace JavaMinus.Assembly

open JavaMinus.Behaviour
open JavaMinus.Flat (Operand Instr Step Access labelsOf)

/-- A method whose steps became these blocks, with the slots of a table. -/
structure Rendered (m : Flat.Method) (table : SlotTable) (blocks : List (List Line)) : Prop where
  source : ∃ header code, Flat.Method.assemble header code = .ok m ∧ (labelsOf code).Nodup
  lengths : blocks.length = m.steps.length
  shape : ∀ (k : Nat) (s : Step) (block : List Line), m.steps[k]? = some s →
    blocks[k]? = some block →
    ∃ front work o, block = front ++ work ++ [.op o] ∧ Block table s.instr front work o
  nodup : (lineLabels (bodyOf m blocks)).Nodup

/-- Line `p` is a label of step `k` or a line of its block. -/
structure InStep (steps : List Step) (blocks : List (List Line)) (p k : Nat) (s : Step)
    (block : List Line) : Prop where
  step_eq : steps[k]? = some s
  block_eq : blocks[k]? = some block
  ge : (layout (steps.take k) (blocks.take k)).length ≤ p
  lt : p < startOf steps blocks k + block.length

/-! ### Lines and steps -/

section Steps

variable {steps : List Step} {blocks : List (List Line)} {p j k : Nat} {s t : Step}
  {block other : List Line}

theorem entry_le (hlen : blocks.length = steps.length) (hjk : j ≤ k) :
    (layout (steps.take j) (blocks.take j)).length ≤
      (layout (steps.take k) (blocks.take k)).length := by
  induction hjk with
  | refl => exact Nat.le_refl _
  | @step k _ ih =>
    by_cases hk : k < steps.length
    · have hs := List.getElem?_eq_getElem hk
      have hblock := List.getElem?_eq_getElem (hlen ▸ hk : k < blocks.length)
      rw [length_take_succ hs hblock, startOf_eq hs]
      omega
    · have hge : steps.length ≤ k := by omega
      have hge' : blocks.length ≤ k := hlen ▸ hge
      rw [List.take_of_length_le hge, List.take_of_length_le hge'] at ih
      rw [List.take_of_length_le (Nat.le_succ_of_le hge),
        List.take_of_length_le (Nat.le_succ_of_le hge')]
      exact ih

theorem InStep.unique (hlen : blocks.length = steps.length) (h : InStep steps blocks p j s block)
    (h' : InStep steps blocks p k t other) : j = k := by
  have hj := length_take_succ h.step_eq h.block_eq
  have hk := length_take_succ h'.step_eq h'.block_eq
  have hlt := h.lt
  have hge := h.ge
  have hlt' := h'.lt
  have hge' := h'.ge
  rcases Nat.lt_trichotomy j k with hjk | hjk | hjk
  · have hle := entry_le hlen (show j + 1 ≤ k from hjk)
    omega
  · exact hjk
  · have hle := entry_le hlen (show k + 1 ≤ j from hjk)
    omega

end Steps

/-! ### Accesses of a body -/

/-- The access that line `p` of the body of a method stands for. -/
def accessAt (m : Flat.Method) (body : List Line) (p : Nat) : Option Access :=
  if body[p]?.any Line.isAccess then m.accesses[(body.take p).countP Line.isAccess]? else none

theorem performs_layout {table : SlotTable} {steps : List Step} {blocks : List (List Line)}
    (hlen : blocks.length = steps.length)
    (h : ∀ (k : Nat) (s : Step) (block : List Line), steps[k]? = some s → blocks[k]? = some block →
      Performs table block s.instr.accesses) :
    Performs table (layout steps blocks) (steps.flatMap fun s => s.instr.accesses) := by
  induction steps generalizing blocks with
  | nil => rfl
  | cons s rest ih =>
    cases blocks with
    | nil => simp at hlen
    | cons block blocks =>
      have hlabels : Performs table (s.labels.map Line.label) [] := by
        apply performs_quiet
        simp [Line.isAccess]
      have hrest := ih (by simpa using hlen) fun k t other hs hblock =>
        h (k + 1) t other (by simpa using hs) (by simpa using hblock)
      exact (hlabels.append (h 0 s block rfl rfl)).append hrest

namespace Rendered

variable {m : Flat.Method} {table : SlotTable} {blocks : List (List Line)} {p q k : Nat} {s : Step}
  {block : List Line} {line : Line}

theorem performs_block (h : Rendered m table blocks) {k : Nat} {s : Step} {block : List Line}
    (hs : m.steps[k]? = some s) (hblock : blocks[k]? = some block) :
    Performs table block s.instr.accesses := by
  obtain ⟨front, work, o, rfl, hshape⟩ := h.shape k s block hs hblock
  exact hshape.performs

theorem performs (h : Rendered m table blocks) :
    Performs table (bodyOf m blocks) m.accesses := by
  have hclosing : Performs table (closing m) [] := by
    apply performs_quiet
    unfold closing
    split <;> simp [Line.isAccess]
  have hbody := (performs_layout h.lengths fun _ _ _ => h.performs_block).append hclosing
  rw [List.append_nil] at hbody
  exact hbody

theorem line_eq (hin : InStep m.steps blocks p k s block) (hge : startOf m.steps blocks k ≤ p) :
    (bodyOf m blocks)[p]? = block[p - startOf m.steps blocks k]? := by
  have hlt := hin.lt
  have hindex : p - startOf m.steps blocks k < block.length := by omega
  have hget := (placed_block (closing m) hin.step_eq hin.block_eq).get_add
    (List.getElem?_eq_getElem hindex)
  rw [Nat.add_sub_cancel' hge] at hget
  rw [bodyOf, hget, List.getElem?_eq_getElem hindex]

theorem label_line (hin : InStep m.steps blocks p k s block) (hlt : p < startOf m.steps blocks k) :
    ∃ name, (bodyOf m blocks)[p]? = some (.label name) := by
  have hge := hin.ge
  rw [startOf_eq hin.step_eq] at hlt
  have hindex : p - (layout (m.steps.take k) (blocks.take k)).length < s.labels.length := by omega
  have hget := (placed_step (closing m) hin.step_eq hin.block_eq).left.get_add
    (k := p - (layout (m.steps.take k) (blocks.take k)).length)
    (by rw [List.getElem?_map, List.getElem?_eq_getElem hindex]; rfl)
  rw [Nat.add_sub_cancel' hge] at hget
  exact ⟨_, hget⟩

/-- An access belongs to the block of a step. -/
theorem exists_inStep (h : Rendered m table blocks) (hline : (bodyOf m blocks)[p]? = some line)
    (haccess : line.isAccess = true) :
    ∃ k s block, InStep m.steps blocks p k s block ∧ startOf m.steps blocks k ≤ p := by
  by_cases hlayout : p < (layout m.steps blocks).length
  · obtain ⟨k, s, block, hs, hblock, hge, hlt⟩ := layout_cases h.lengths hlayout
    have hin : InStep m.steps blocks p k s block := ⟨hs, hblock, hge, hlt⟩
    refine ⟨k, s, block, hin, Nat.le_of_not_lt fun hlabel => ?_⟩
    obtain ⟨name, hname⟩ := label_line hin hlabel
    obtain rfl := Option.some.inj (hname.symm.trans hline)
    cases haccess
  · have hlt := (List.getElem?_eq_some_iff.mp hline).1
    obtain ⟨_, _, hret⟩ := closing_line (Nat.le_of_not_lt hlayout) hlt
    obtain rfl := Option.some.inj (hret.symm.trans hline)
    cases haccess

/-- Accesses of earlier steps come before those of a step. -/
theorem count_before (h : Rendered m table blocks) (hin : InStep m.steps blocks p k s block)
    (hge : startOf m.steps blocks k ≤ p) :
    ((bodyOf m blocks).take p).countP Line.isAccess =
      ((m.steps.take k).flatMap fun t => t.instr.accesses).length +
        (block.take (p - startOf m.steps blocks k)).countP Line.isAccess := by
  have hlt := hin.lt
  have hlen : (blocks.take k).length = (m.steps.take k).length := by
    rw [List.length_take, List.length_take, h.lengths]
  have hfront : Performs table (layout (m.steps.take k) (blocks.take k))
      ((m.steps.take k).flatMap fun t => t.instr.accesses) := by
    refine performs_layout hlen fun j t other ht hother => ?_
    have hj : j < k := by
      have hjlen := (List.getElem?_eq_some_iff.mp ht).1
      rw [List.length_take] at hjlen
      omega
    rw [List.getElem?_take_of_lt hj] at ht hother
    exact h.performs_block ht hother
  have hlabels : (s.labels.map Line.label).countP Line.isAccess = 0 := by
    rw [List.countP_eq_zero]
    simp [Line.isAccess]
  obtain ⟨n, rfl⟩ := Nat.exists_eq_add_of_le hge
  rw [Nat.add_sub_cancel_left]
  have htake : (bodyOf m blocks).take (startOf m.steps blocks k + n) =
      layout (m.steps.take k) (blocks.take k) ++ (s.labels.map Line.label ++ block.take n) := by
    have hstart : startOf m.steps blocks k + n = (layout (m.steps.take k) (blocks.take k)).length +
        ((s.labels.map Line.label).length + n) := by
      rw [startOf_eq hin.step_eq, List.length_map, Nat.add_assoc]
    rw [hstart, bodyOf, layout_split hin.step_eq hin.block_eq, List.append_assoc,
      List.take_length_add_append, List.append_assoc, List.append_assoc,
      List.take_length_add_append, List.take_append_of_le_length (by omega)]
  rw [htake, List.countP_append, List.countP_append, hlabels, hfront.length_eq, Nat.zero_add]

/-- The access of a line is the first of those that are left of its step. -/
theorem accessAt_eq (h : Rendered m table blocks) (hin : InStep m.steps blocks p k s block)
    (hge : startOf m.steps blocks k ≤ p) (hline : (bodyOf m blocks)[p]? = some line)
    (haccess : line.isAccess = true) :
    ∃ access, accessAt m (bodyOf m blocks) p = some access ∧ accessLine? table access = some line ∧
      pending s.instr block (p - startOf m.steps blocks k) =
        access :: pending s.instr block (p - startOf m.steps blocks k + 1) := by
  have hblock := line_eq hin hge
  rw [hline] at hblock
  rcases (h.performs_block hin.step_eq hin.block_eq).next hblock.symm with
    ⟨hnot, _⟩ | ⟨_, access, hshape, hpending⟩
  · simp [haccess] at hnot
  · refine ⟨access, ?_, hshape, hpending⟩
    have hfirst := congrArg List.head? hpending
    unfold pending at hfirst
    rw [List.head?_drop, List.head?_cons] at hfirst
    have hsplit : m.accesses = ((m.steps.take k).flatMap fun t => t.instr.accesses) ++
        (s.instr.accesses ++ (m.steps.drop (k + 1)).flatMap fun t => t.instr.accesses) := by
      obtain ⟨hk, hget⟩ := List.getElem?_eq_some_iff.mp hin.step_eq
      have hsteps : m.steps = m.steps.take k ++ s :: m.steps.drop (k + 1) := by
        rw [← hget, ← List.drop_eq_getElem_cons hk, List.take_append_drop]
      unfold Flat.Method.accesses
      nth_rewrite 1 [hsteps]
      rw [List.flatMap_append, List.flatMap_cons]
    have hlt := (List.getElem?_eq_some_iff.mp hfirst).1
    unfold accessAt
    rw [hline, Option.any_some, if_pos haccess, h.count_before hin hge, hsplit,
      List.getElem?_append_right (Nat.le_add_right _ _), Nat.add_sub_cancel_left,
      List.getElem?_append_left hlt, hfirst]

end Rendered

/-! ### Wanted variables -/

/-- With `rest` left of a step, `v` is loaded there, or it is live behind the step and not stored to
before. -/
def Demands (rest : List Access) (out : NameSet) (v : String) : Prop :=
  (∃ op, .load op ∈ rest ∧ op.name? = some v) ∨
    (v ∈ out ∧ ∀ op, .store op ∈ rest → op.name? ≠ some v)

/-- At line `p`, variable `v` is to be loaded before any store to it. -/
def Wanted (m : Flat.Method) (blocks : List (List Line)) (p : Nat) (v : String) : Prop :=
  ∃ k s block r, InStep m.steps blocks p k s block ∧ (Liveness.analyze m).Row m s r ∧
    Demands (pending s.instr block (p - startOf m.steps blocks k)) r.liveOut v

section Demands

variable {rest : List Access} {out : NameSet} {v : String}

theorem demands_nil : Demands [] out v ↔ v ∈ out := by
  simp [Demands]

theorem Demands.cons (h : Demands rest out v) (access : Access) :
    (∃ op, access = .store op ∧ op.name? = some v) ∨ Demands (access :: rest) out v := by
  rcases h with ⟨op, hop, hname⟩ | ⟨hout, hstores⟩
  · exact .inr (.inl ⟨op, List.mem_cons_of_mem _ hop, hname⟩)
  · by_cases hstore : ∃ op, access = .store op ∧ op.name? = some v
    · exact .inl hstore
    · refine .inr (.inr ⟨hout, fun op hop hname => ?_⟩)
      rcases List.mem_cons.mp hop with rfl | hop
      · exact hstore ⟨op, rfl, hname⟩
      · exact hstores op hop hname

/-- What a step demands as a whole is live at it. -/
theorem Demands.live {m : Flat.Method} {s : Step} {r : LiveRow}
    (h : Demands s.instr.accesses r.liveOut v) (hr : (Liveness.analyze m).Row m s r) :
    v ∈ r.liveIn := by
  rcases h with ⟨op, hop, hname⟩ | ⟨hout, hstores⟩
  · have hload : op ∈ s.instr.loads := by
      rcases List.mem_append.mp hop with hop | hop
      · obtain ⟨_, hmem, heq⟩ := List.mem_map.mp hop
        obtain rfl := Access.load.inj heq
        exact hmem
      · obtain ⟨_, _, heq⟩ := List.mem_map.mp hop
        cases heq
    exact hr.uses v ((Instr.mem_loads hload).2 v hname)
  · refine hr.through v hout fun hdef => ?_
    obtain ⟨op, hop, hname⟩ := Instr.stores?_of_defines? hdef
    refine hstores op (List.mem_append_right _ ?_) hname
    rw [hop]
    exact List.mem_singleton_self _

/-- The store is the last access of an instruction. -/
theorem pending_store {i : Instr} {block : List Line} {n : Nat} {op : Operand}
    (h : pending i block n = .store op :: rest) : i.stores? = some op ∧ rest = [] := by
  unfold pending Instr.accesses at h
  rw [List.drop_append] at h
  cases hloads : (i.loads.map Access.load).drop ((block.take n).countP Line.isAccess) with
  | cons access others =>
    have hmem : access ∈ i.loads.map Access.load := by
      refine List.mem_of_mem_drop (i := (block.take n).countP Line.isAccess) ?_
      rw [hloads]
      exact List.mem_cons_self
    obtain ⟨_, _, rfl⟩ := List.mem_map.mp hmem
    rw [hloads, List.cons_append, List.cons.injEq] at h
    cases h.1
  | nil =>
    rw [hloads, List.nil_append] at h
    have hmem := List.mem_of_mem_drop (h ▸ List.mem_cons_self)
    cases hstore : i.stores? with
    | none => simp [hstore] at hmem
    | some op' =>
      obtain rfl : op = op' := by simpa [hstore] using hmem
      refine ⟨rfl, ?_⟩
      have hlen := congrArg List.length h
      rw [hstore, List.length_drop, List.length_cons] at hlen
      apply List.length_eq_zero_iff.mp
      simp only [Option.toList_some, List.map_cons, List.map_nil, List.length_singleton] at hlen
      omega

end Demands

/-! ### Where control goes -/

theorem jump_of_target {i : Instr} {label : String} (h : Lowering.target? i = some label) :
    i = .goto label ∨ ∃ cond, i = .branch cond label := by
  cases i with
  | goto name => exact .inl (by rw [Option.some.inj h])
  | branch cond name => exact .inr ⟨cond, by rw [Option.some.inj h]⟩
  | assign | binary | not | call | ret | getField | putField | single | nop => cases h

namespace Rendered

variable {m : Flat.Method} {table : SlotTable} {blocks : List (List Line)} {p q k : Nat} {s : Step}
  {block : List Line} {r : LiveRow} {v : String}

theorem demands_of_wanted (h : Rendered m table blocks) (hin : InStep m.steps blocks p k s block)
    (hr : (Liveness.analyze m).Row m s r) (hwanted : Wanted m blocks p v) :
    Demands (pending s.instr block (p - startOf m.steps blocks k)) r.liveOut v := by
  obtain ⟨k', s', block', r', hin', hr', hdemands⟩ := hwanted
  obtain rfl := hin.unique h.lengths hin'
  obtain rfl := Option.some.inj (hin.step_eq.symm.trans hin'.step_eq)
  obtain rfl := Option.some.inj (hin.block_eq.symm.trans hin'.block_eq)
  obtain rfl := Option.some.inj (hr.row.symm.trans hr'.row)
  exact hdemands

/-- From the last line of a block control comes to a successor of the step, or there is none left. -/
theorem leads_last (h : Rendered m table blocks) (hs : m.steps[k]? = some s)
    (hblock : blocks[k]? = some block) (hp : p + 1 = startOf m.steps blocks k + block.length)
    (hleads : Leads (bodyOf m blocks) p q) :
    (layout m.steps blocks).length ≤ q ∨ ∃ j t, m.steps[j]? = some t ∧ j + 1 ∈ s.succs ∧
      (layout (m.steps.take j) (blocks.take j)).length ≤ q ∧ q ≤ startOf m.steps blocks j := by
  obtain ⟨header, code, hm, hlabels⟩ := h.source
  obtain ⟨front, work, o, hshape, hlast⟩ := h.shape k s block hs hblock
  obtain ⟨line, hline, hflow⟩ := hleads
  have hget : (bodyOf m blocks)[p]? = some (.op o) := by
    have hplaced := placed_block (closing m) hs hblock
    rw [hshape] at hplaced hp
    rw [List.length_append, List.length_singleton] at hp
    rw [show p = startOf m.steps blocks k + (front ++ work).length by omega]
    exact hplaced.right.get
  obtain rfl := Option.some.inj (hget.symm.trans hline)
  rcases hflow with ⟨hfalls, rfl⟩ | ⟨name, htarget, hplace⟩
  · obtain ⟨hret, hgoto⟩ := hlast.falls hfalls
    have hbehind := length_take_succ hs hblock
    cases hnext : m.steps[k + 1]? with
    | some t =>
      right
      have hlt := (List.getElem?_eq_some_iff.mp hnext).1
      refine ⟨k + 1, t, hnext, Flat.Method.succ_of_falls hm hs hret hgoto hlt, by omega, ?_⟩
      rw [startOf_eq hnext]
      omega
    | none =>
      left
      have hge := List.getElem?_eq_none_iff.mp hnext
      rw [List.take_of_length_le hge, List.take_of_length_le (h.lengths ▸ hge)] at hbehind
      omega
  · right
    rw [hlast.target] at htarget
    obtain ⟨j, hindex, _, hsucc⟩ :=
      Flat.Method.succ_of_jump hm hlabels hs (jump_of_target htarget)
    obtain ⟨t, ht, hlabel⟩ := Flat.Method.labelled_of_labelIndex? hindex
    obtain ⟨hge, hlt⟩ := place_of_label (closing m) h.lengths ht hlabel h.nodup hplace
    exact ⟨j, t, ht, hsucc, hge, Nat.le_of_lt hlt⟩

theorem not_wanted_end (hge : (layout m.steps blocks).length ≤ p) : ¬ Wanted m blocks p v := by
  rintro ⟨k, s, block, r, hin, _⟩
  have hlt := hin.lt
  have hlen := congrArg List.length (layout_split hin.step_eq hin.block_eq)
  rw [List.length_append, List.length_append, List.length_append, List.length_map] at hlen
  rw [startOf_eq hin.step_eq] at hlt
  omega

theorem row (h : Rendered m table blocks) (hs : m.steps[k]? = some s) :
    ∃ r, (Liveness.analyze m).Row m s r := by
  obtain ⟨header, code, hm, _⟩ := h.source
  exact Liveness.row_of_analyze (Flat.Method.nodup_ids hm) (List.mem_of_getElem? hs)

/-- What is wanted at the entry of a step is live there. -/
theorem live_of_wanted (h : Rendered m table blocks) (hs : m.steps[k]? = some s)
    (hge : (layout (m.steps.take k) (blocks.take k)).length ≤ p)
    (hle : p ≤ startOf m.steps blocks k) (hr : (Liveness.analyze m).Row m s r)
    (hwanted : Wanted m blocks p v) : v ∈ r.liveIn := by
  have hk : k < blocks.length := by
    rw [h.lengths]
    exact (List.getElem?_eq_some_iff.mp hs).1
  have hblock : blocks[k]? = some blocks[k] := List.getElem?_eq_getElem hk
  have hpos : 0 < blocks[k].length := by
    obtain ⟨front, work, o, hshape, _⟩ := h.shape k s _ hs hblock
    rw [hshape, List.length_append, List.length_singleton]
    omega
  have hdemands := h.demands_of_wanted ⟨hs, hblock, hge, by omega⟩ hr hwanted
  rw [Nat.sub_eq_zero_of_le hle, pending_zero] at hdemands
  exact hdemands.live hr

/-- What is wanted where control goes next is demanded of the rest of the step. -/
theorem demands_behind (h : Rendered m table blocks) (hin : InStep m.steps blocks p k s block)
    (hr : (Liveness.analyze m).Row m s r) (hleads : Leads (bodyOf m blocks) p q)
    (hwanted : Wanted m blocks q v) :
    Demands (pending s.instr block (p + 1 - startOf m.steps blocks k)) r.liveOut v := by
  have hge := hin.ge
  have hlt := hin.lt
  have hshape := h.shape k s block hin.step_eq hin.block_eq
  -- inside a straight part the next line is that of the same step
  have hnext (hline : ∀ line, (bodyOf m blocks)[p]? = some line → line.target? = none)
      (hp : p + 1 < startOf m.steps blocks k + block.length) :
      Demands (pending s.instr block (p + 1 - startOf m.steps blocks k)) r.liveOut v := by
    obtain ⟨line, hget, ⟨_, rfl⟩ | ⟨name, htarget, _⟩⟩ := hleads
    · exact h.demands_of_wanted ⟨hin.step_eq, hin.block_eq, by omega, hp⟩ hr hwanted
    · rw [hline line hget] at htarget
      cases htarget
  by_cases hlabel : p < startOf m.steps blocks k
  · obtain ⟨name, hname⟩ := label_line hin hlabel
    obtain ⟨front, work, o, rfl, _⟩ := hshape
    refine hnext (fun line hget => ?_) (by rw [List.length_append, List.length_singleton]; omega)
    obtain rfl := Option.some.inj (hname.symm.trans hget)
    rfl
  obtain ⟨n, rfl⟩ := Nat.exists_eq_add_of_le (Nat.le_of_not_lt hlabel)
  obtain ⟨front, work, o, hblock, hlast⟩ := hshape
  have hlen : block.length = front.length + work.length + 1 := by
    rw [hblock, List.length_append, List.length_append, List.length_singleton]
  have hplaced := placed_block (closing m) hin.step_eq hin.block_eq
  by_cases hfront : n < front.length
  · refine hnext (fun line hget => ?_) (by omega)
    rw [hblock] at hplaced
    have hfrontline := hplaced.left.left.get_add (List.getElem?_eq_getElem hfront)
    obtain rfl := Option.some.inj (hfrontline.symm.trans hget)
    exact (hlast.staged.straight _ (List.getElem_mem hfront)).2
  by_cases hwork : n < front.length + work.length
  · -- the work may jump, but only inside, and there nothing but the store is left
    rw [hblock] at hplaced
    have hinside : ∀ name ∈ lineJumps work, name ∈ lineLabels work ∨ name ∈ ([] : List String) :=
      fun name hname => .inl (hlast.staged.inside name hname)
    rcases leads_from hplaced.left.right h.nodup hinside (by omega) hleads with hq | ⟨_, hnone, _⟩
    · have hentry : (layout (m.steps.take k) (blocks.take k)).length ≤ startOf m.steps blocks k := by
        rw [startOf_eq hin.step_eq]
        omega
      have hsame := h.demands_of_wanted ⟨hin.step_eq, hin.block_eq, by omega, by omega⟩ hr hwanted
      have hleft (c : Nat) (hc : startOf m.steps blocks k + front.length ≤ c ∧
          c ≤ startOf m.steps blocks k + front.length + work.length) :
          pending s.instr block (c - startOf m.steps blocks k) =
            s.instr.stores?.toList.map .store := by
        have hstore := hlast.pending_work
          (n := c - startOf m.steps blocks k - front.length) (by omega)
        rw [Nat.add_sub_cancel' (by omega), ← hblock] at hstore
        exact hstore
      rw [hleft _ (by omega)]
      rw [hleft _ (by omega)] at hsame
      exact hsame
    · cases hnone
  · have hdone : pending s.instr block (startOf m.steps blocks k + n + 1 - startOf m.steps blocks k) =
        [] := by
      unfold pending
      rw [List.take_of_length_le (by omega), hblock, hlast.performs.length_eq]
      exact List.drop_length
    rw [hdone, demands_nil]
    rcases h.leads_last hin.step_eq hin.block_eq (by omega) hleads with hend | ⟨j, t, ht, hsucc, hj⟩
    · exact absurd hwanted (not_wanted_end hend)
    · obtain ⟨r', hr'⟩ := h.row ht
      obtain ⟨header, code, hm, _⟩ := h.source
      rw [← Flat.Method.id_of_assemble hm ht] at hsucc
      refine hr.succs v t (List.mem_of_getElem? ht) hsucc ?_
      rw [Liveness.liveInAt_eq hr'.row]
      exact h.live_of_wanted ht hj.1 hj.2 hr' hwanted

theorem access_of_line (h : Rendered m table blocks) {line : Line}
    (hline : (bodyOf m blocks)[p]? = some line) (haccess : line.isAccess = true) :
    ∃ access, accessAt m (bodyOf m blocks) p = some access ∧ accessLine? table access = some line := by
  obtain ⟨k, s, block, hin, hge⟩ := h.exists_inStep hline haccess
  obtain ⟨access, hat, hshape, _⟩ := h.accessAt_eq hin hge hline haccess
  exact ⟨access, hat, hshape⟩

theorem line_of_access (h : Rendered m table blocks) {access : Access}
    (hat : accessAt m (bodyOf m blocks) p = some access) :
    ∃ line k s block, (bodyOf m blocks)[p]? = some line ∧ accessLine? table access = some line ∧
      InStep m.steps blocks p k s block ∧ startOf m.steps blocks k ≤ p ∧
      pending s.instr block (p - startOf m.steps blocks k) =
        access :: pending s.instr block (p - startOf m.steps blocks k + 1) := by
  have hany : (bodyOf m blocks)[p]?.any Line.isAccess = true := by
    unfold accessAt at hat
    split at hat
    · assumption
    · cases hat
  cases hline : (bodyOf m blocks)[p]? with
  | none => simp [hline] at hany
  | some line =>
    have haccess : line.isAccess = true := by simpa [hline] using hany
    obtain ⟨k, s, block, hin, hge⟩ := h.exists_inStep hline haccess
    obtain ⟨access', hat', hshape, hpending⟩ := h.accessAt_eq hin hge hline haccess
    obtain rfl := Option.some.inj (hat.symm.trans hat')
    exact ⟨line, k, s, block, rfl, hshape, hin, hge, hpending⟩

theorem wanted_of_load (h : Rendered m table blocks) {op : Operand}
    (hat : accessAt m (bodyOf m blocks) p = some (.load op)) (hname : op.name? = some v) :
    Wanted m blocks p v := by
  obtain ⟨line, k, s, block, _, _, hin, _, hpending⟩ := h.line_of_access hat
  obtain ⟨r, hr⟩ := h.row hin.step_eq
  refine ⟨k, s, block, r, hin, hr, .inl ⟨op, ?_, hname⟩⟩
  rw [hpending]
  exact List.mem_cons_self

/-- One step of a path, read backwards. -/
theorem wanted_back (h : Rendered m table blocks) (hleads : Leads (bodyOf m blocks) p q)
    (hwanted : Wanted m blocks q v) :
    Wanted m blocks p v ∨
      ∃ op, accessAt m (bodyOf m blocks) p = some (.store op) ∧ op.name? = some v := by
  obtain ⟨line, hline, hflow⟩ := hleads
  by_cases hlayout : p < (layout m.steps blocks).length
  · obtain ⟨k, s, block, hs, hblock, hge, hlt⟩ := layout_cases h.lengths hlayout
    have hin : InStep m.steps blocks p k s block := ⟨hs, hblock, hge, hlt⟩
    obtain ⟨r, hr⟩ := h.row hs
    have hdemands := h.demands_behind hin hr ⟨line, hline, hflow⟩ hwanted
    by_cases hlabel : p < startOf m.steps blocks k
    · left
      refine ⟨k, s, block, r, hin, hr, ?_⟩
      rw [Nat.sub_eq_zero_of_le (Nat.succ_le_of_lt hlabel)] at hdemands
      rw [Nat.sub_eq_zero_of_le (Nat.le_of_lt hlabel)]
      exact hdemands
    · have hstart := Nat.le_of_not_lt hlabel
      rw [Nat.succ_sub hstart] at hdemands
      cases haccess : line.isAccess with
      | true =>
        obtain ⟨access, hat, _, hpending⟩ := h.accessAt_eq hin hstart hline haccess
        rcases hdemands.cons access with ⟨op, rfl, hname⟩ | hdemands
        · exact .inr ⟨op, hat, hname⟩
        · exact .inl ⟨k, s, block, r, hin, hr, hpending ▸ hdemands⟩
      | false =>
        have hget := line_eq hin hstart
        rw [hline] at hget
        rcases (h.performs_block hs hblock).next hget.symm with ⟨_, hpending⟩ | ⟨hyes, _⟩
        · exact .inl ⟨k, s, block, r, hin, hr, hpending ▸ hdemands⟩
        · simp [haccess] at hyes
  · obtain ⟨_, _, hret⟩ := closing_line (Nat.le_of_not_lt hlayout)
      (List.getElem?_eq_some_iff.mp hline).1
    obtain rfl := Option.some.inj (hret.symm.trans hline)
    simp [Line.falls, Line.target?] at hflow

/-- Behind a store, all other variables that are wanted have other slots. -/
theorem apart_of_store (h : Rendered m table blocks) {limit : Option Nat}
    (htable : SlotTable.forMethod m limit = .ok table) (hfit : SlotTable.extent m limit ≤ 65535)
    {op : Operand} {w : String} {sv sw : Slot}
    (hat : accessAt m (bodyOf m blocks) p = some (.store op)) (hw : op.name? = some w)
    (hne : v ≠ w) (hleads : Leads (bodyOf m blocks) p q) (hwanted : Wanted m blocks q v)
    (hsv : table.get? v = some sv) (hsw : table.get? w = some sw) : sw.index ≠ sv.index := by
  obtain ⟨line, k, s, block, _, _, hin, hge, hpending⟩ := h.line_of_access hat
  obtain ⟨hstore, hrest⟩ := pending_store hpending
  obtain ⟨r, hr⟩ := h.row hin.step_eq
  have hdemands := h.demands_behind hin hr hleads hwanted
  rw [Nat.succ_sub hge, hrest, demands_nil] at hdemands
  obtain ⟨_, w', hw', hdefines⟩ := Instr.stores?_eq_some hstore
  obtain rfl := Option.some.inj (hw.symm.trans hw')
  exact SlotTable.forMethod_apart htable hfit hsw hsv hne.symm
    (InterferenceGraph.mem_neighbours_build (List.mem_of_getElem? hin.step_eq) hdefines hr.row
      hdemands hne)

theorem live_of_wanted_first (h : Rendered m table blocks) (hwanted : Wanted m blocks 0 v) :
    (Liveness.analyze m).LiveAt m 0 v := by
  have hpos : 0 < m.steps.length := by
    obtain ⟨k, s, block, r, hin, _⟩ := hwanted
    have hk := (List.getElem?_eq_some_iff.mp hin.step_eq).1
    omega
  have hs := List.getElem?_eq_getElem hpos
  obtain ⟨r, hr⟩ := h.row hs
  exact (Liveness.liveAt_iff hs hr.row).mpr
    (h.live_of_wanted hs (by simp [layout]) (Nat.zero_le _) hr hwanted)

end Rendered

/-! ### Paths -/

/-- Control may go from the first line through the lines `q` to line `i`. -/
inductive Path (body : List Line) : List Nat → Nat → Prop
  | start : Path body [] 0
  | step {q i j} : Path body q i → Leads body i j → Path body (q ++ [i]) j

def StoresTo (body : List Line) (slot i : Nat) : Prop :=
  ∃ kind, body[i]? = some (.op (.store kind slot))

/-- On each path to a line where `v` is wanted, the last store to the slot of `v` is one to `v`. If the
slot was not stored to, `v` is wanted from the start. -/
theorem Rendered.last_store {m : Flat.Method} {table : SlotTable} {blocks : List (List Line)}
    (h : Rendered m table blocks) {limit : Option Nat}
    (htable : SlotTable.forMethod m limit = .ok table) (hfit : SlotTable.extent m limit ≤ 65535)
    {q : List Nat} {i : Nat} (hpath : Path (bodyOf m blocks) q i) {v : String} {slot : Slot} (hslot : table.get? v = some slot)
    (hwanted : Wanted m blocks i v) :
    (∃ front j back op, q = front ++ j :: back ∧
      accessAt m (bodyOf m blocks) j = some (.store op) ∧ op.name? = some v ∧
      (bodyOf m blocks)[j]? = some (.op (.store (.of op.ty) slot.index)) ∧
      ∀ x ∈ back, ¬ StoresTo (bodyOf m blocks) slot.index x) ∨
    ((∀ x ∈ q, ¬ StoresTo (bodyOf m blocks) slot.index x) ∧ Wanted m blocks 0 v) := by
  induction hpath with
  | start => exact .inr ⟨by simp, hwanted⟩
  | @step q i j hpath hleads ih =>
    by_cases hstore : ∃ op, accessAt m (bodyOf m blocks) i = some (.store op) ∧ op.name? = some v
    · obtain ⟨op, hat, hname⟩ := hstore
      obtain ⟨line, _, _, _, hline, hshape, _⟩ := h.line_of_access hat
      obtain ⟨v', slot', hname', hslot', rfl⟩ := accessLine?_store hshape
      obtain rfl := Option.some.inj (hname.symm.trans hname')
      obtain rfl := Option.some.inj (hslot.symm.trans hslot')
      exact .inl ⟨q, i, [], op, rfl, hat, hname, hline, by simp⟩
    · have hbefore := (h.wanted_back hleads hwanted).resolve_right hstore
      have hother : ¬ StoresTo (bodyOf m blocks) slot.index i := by
        rintro ⟨kind, hline⟩
        obtain ⟨access, hat, hshape⟩ := h.access_of_line hline rfl
        cases access with
        | load op =>
          rcases accessLine?_load hshape with ⟨_, _, hload⟩ | ⟨_, _, _, _, hload⟩
          · cases hload
          · cases hload
        | store op =>
          obtain ⟨w, sw, hw, hsw, hstored⟩ := accessLine?_store hshape
          have hne : v ≠ w := by
            rintro rfl
            exact hstore ⟨op, hat, hw⟩
          have hapart := h.apart_of_store htable hfit hat hw hne hleads hwanted hslot hsw
          injection hstored with hop
          injection hop with _ hindex
          exact hapart (UInt16.toNat_inj.mp hindex.symm)
      have hlast (back : List Nat) (hback : ∀ x ∈ back, ¬ StoresTo (bodyOf m blocks) slot.index x) :
          ∀ x ∈ back ++ [i], ¬ StoresTo (bodyOf m blocks) slot.index x := by
        intro x hx
        rcases List.mem_append.mp hx with hx | hx
        · exact hback x hx
        · rw [List.mem_singleton.mp hx]
          exact hother
      rcases ih hbefore with ⟨front, k, back, op, rfl, hat, hname, hline, hback⟩ | ⟨hnone, hfirst⟩
      · exact .inl ⟨front, k, back ++ [i], op, by simp, hat, hname, hline, hlast back hback⟩
      · exact .inr ⟨hlast q hnone, hfirst⟩

end JavaMinus.Assembly
