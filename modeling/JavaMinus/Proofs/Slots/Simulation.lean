import JavaMinus.Proofs.Liveness.Fixpoint
import JavaMinus.Proofs.Slots.Frame
import JavaMinus.Proofs.Slots.Storage

/-!
# Sharing slots preserves meaning

A method whose variables share slots runs like the same method with one cell for each name. The two
stores agree on every name that is live; a definition spoils no live name, because names that are live
after it clash with the defined one and have other slots.
-/

namespace JavaMinus

open JavaMinus.Behaviour
open JavaMinus.Flat

/-! ### The flow equations -/

namespace Liveness

variable {lv : Liveness} {m : Method} {s : Step}

/-- What the equations say about one step. -/
structure Row (lv : Liveness) (m : Method) (s : Step) (r : LiveRow) : Prop where
  row : lv.row? s.id = some r
  uses : ∀ v, v ∈ s.instr.reads → v ∈ r.liveIn
  through : ∀ v, v ∈ r.liveOut → s.instr.defines? ≠ some v → v ∈ r.liveIn
  succs : ∀ v, ∀ t ∈ m.steps, t.id ∈ s.succs → v ∈ LiveRow.liveInAt lv.rows t.id → v ∈ r.liveOut

theorem row_of_isFixpoint (hdesc : lv.Describes m) (hfix : lv.isFixpoint m = true)
    (hs : s ∈ m.steps) : ∃ r, lv.Row m s r := by
  unfold isFixpoint at hfix
  have hstep := List.all_eq_true.mp hfix s hs
  cases hr : lv.row? s.id with
  | none => simp [hr] at hstep
  | some r =>
    simp only [hr, Bool.and_eq_true, beq_iff_eq] at hstep
    obtain ⟨hout, hin⟩ := hstep
    obtain ⟨hdefs, huses⟩ := hdesc s hs r hr
    refine ⟨r, hr, ?_, ?_, ?_⟩
    · intro v hv
      rw [hin, LiveRow.mem_transfer, huses]
      exact .inl (NameSet.mem_ofList.mpr hv)
    · intro v hv hdef
      rw [hin, LiveRow.mem_transfer, hdefs, ← hout]
      refine .inr ⟨hv, ?_⟩
      rw [NameSet.mem_ofList, Option.mem_toList]
      exact hdef
    · intro v t ht hid hv
      have hmem : t.id ∈ s.succs.filter (m.steps.map (·.id)).contains :=
        List.mem_filter.mpr ⟨hid, List.contains_iff_mem.mpr (List.mem_map_of_mem ht)⟩
      rw [hout]
      exact LiveRow.mem_outAt.mpr ⟨t.id, hmem, hv⟩

/-- `v` is live at position `k` of the method. -/
def LiveAt (lv : Liveness) (m : Method) (k : Nat) (v : String) : Prop :=
  ∃ s, m.steps[k]? = some s ∧ v ∈ LiveRow.liveInAt lv.rows s.id

theorem liveInAt_eq {r : LiveRow} {id : Nat} (hr : lv.row? id = some r) :
    LiveRow.liveInAt lv.rows id = r.liveIn := by
  unfold LiveRow.liveInAt
  rw [show LiveRow.find? lv.rows id = some r from hr]

theorem liveAt_iff {k : Nat} {r : LiveRow} (hk : m.steps[k]? = some s) (hr : lv.row? s.id = some r)
    {v : String} : lv.LiveAt m k v ↔ v ∈ r.liveIn := by
  have hin := liveInAt_eq hr
  constructor
  · rintro ⟨s', hs', hv⟩
    obtain rfl := Option.some.inj (hk.symm.trans hs')
    rw [← hin]
    exact hv
  · intro hv
    exact ⟨s, hk, hin ▸ hv⟩

end Liveness

/-! ### One step -/

/-- The two runs are at the same place with the same world, and the live names agree. -/
def SameProgress (m : Method) (lv : Liveness) (table : SlotTable) :
    Progress NamedCells → Progress Slots → Prop
  | .here p, .here q =>
    p.pc = q.pc ∧ p.world = q.world ∧ HoldsOn table m.isStatic (lv.LiveAt m p.pc) p.store q.store
  | .returned v w, .returned v' w' => v = v' ∧ w = w'
  | .stuck, .stuck => True
  | _, _ => False

/-- All that the simulation rests on. -/
structure Allocated (m : Method) (code : Code) (lv : Liveness) (table : SlotTable) : Prop where
  assembled : Method.assemble m.toHeader code = .ok m
  labels : (labelsOf code).Nodup
  noSelf : SlotTable.selfName ∉ m.vars.map (·.1)
  params : ParamsNamed m
  describes : lv.Describes m
  fixpoint : lv.isFixpoint m = true
  allocated : ∃ limit, SlotTable.allocate m lv limit = .ok table
  fits : SlotTable.sharedExtent m lv ≤ 65535

def namedPlatform (ω : Oracle) (link : Linkage) : Platform NamedCells :=
  ⟨ω, link, namedCells⟩

def slotPlatform (ω : Oracle) (link : Linkage) (table : SlotTable) (isStatic : Bool) :
    Platform Slots :=
  ⟨ω, link, slotCells table isStatic⟩

namespace Allocated

variable {m : Method} {code : Code} {lv : Liveness} {table : SlotTable} {ω : Oracle} {link : Linkage}
  {k : Nat} {s : Step} {c : NamedCells} {f : Slots}

theorem reads (h : Allocated m code lv table) (hk : m.steps[k]? = some s)
    (hc : HoldsOn table m.isStatic (lv.LiveAt m k) c f) {v : String} (hv : v ∈ s.instr.reads) :
    ∃ slot, table.get? v = some slot ∧ c.cell v = f slot.index := by
  have hs := List.mem_of_getElem? hk
  obtain ⟨limit, halloc⟩ := h.allocated
  obtain ⟨op, hop, hname⟩ := Instr.reads_operands hv
  obtain ⟨slot, hslot⟩ := SlotTable.allocate_defined halloc (h.params.name_cases hs hop hname)
  obtain ⟨r, hr⟩ := Liveness.row_of_isFixpoint h.describes h.fixpoint hs
  have hlive : lv.LiveAt m k v := (Liveness.liveAt_iff hk hr.row).mpr (hr.uses v hv)
  exact ⟨slot, hslot, hc.cells v hlive slot hslot⟩

theorem sameReads (h : Allocated m code lv table) (hk : m.steps[k]? = some s)
    (hc : HoldsOn table m.isStatic (lv.LiveAt m k) c f) :
    SameReads (namedPlatform ω link) c (slotPlatform ω link table m.isStatic) f s.instr.reads where
  oracle := rfl
  link := rfl
  self := hc.self.symm
  read cell hcell := by
    obtain ⟨slot, hslot, heq⟩ := h.reads hk hc hcell
    simp only [slotPlatform, slotCells, namedPlatform, namedCells, hslot, Option.map_some, heq]

/-- A definition spoils no name that is live after it. -/
theorem write (h : Allocated m code lv table) (hk : m.steps[k]? = some s)
    (hc : HoldsOn table m.isStatic (lv.LiveAt m k) c f) {r : LiveRow} (hr : lv.Row m s r)
    {dest : Operand} {ty : Ty} {rhs : Instr} {cell : Cell} {v : Value}
    (hi : s.instr = .assign dest ty rhs) (hdest : dest.cell? = some cell) :
    Option.Rel (HoldsOn table m.isStatic (· ∈ r.liveOut)) (namedCells.write? c cell v)
      ((slotCells table m.isStatic).write? f cell v) := by
  have hs := List.mem_of_getElem? hk
  obtain ⟨limit, halloc⟩ := h.allocated
  have hname : dest.name? = some cell.name := by
    rw [Operand.name?_eq, hdest]
    rfl
  have hop : dest ∈ s.instr.operands := by
    rw [hi]
    exact List.mem_append_left _ (Operand.mem_parts dest)
  have hdef : s.instr.defines? = some cell.name := by rw [hi]; exact hname
  have hcases := h.params.name_cases hs hop hname
  obtain ⟨slot, hslot⟩ := SlotTable.allocate_defined halloc hcases
  simp only [namedCells, slotCells, hslot, Option.map_some]
  refine .some (hc.set hslot ?_ ?_ v)
  · -- slot zero stays with the current object
    intro hm hzero
    obtain ⟨hself, hnot⟩ := SlotTable.allocate_index_zero halloc h.fits hm hslot hzero
    rcases hcases with hvar | hparam
    · exact h.noSelf (hself ▸ hvar)
    · exact hnot hparam
  · intro x hx heq
    refine ⟨(Liveness.liveAt_iff hk hr.row).mpr (hr.through x hx ?_), ?_⟩
    · rw [hdef, ne_eq, Option.some.injEq]
      exact fun h => heq h.symm
    · intro slotx hslotx
      refine (SlotTable.allocate_apart halloc h.fits hslot hslotx (Ne.symm heq) ?_).symm
      intro hd hxnode
      exact InterferenceGraph.mem_neighbours_build hs hdef hr.row hx heq hd hxnode

theorem exec (h : Allocated m code lv table) (ω : Oracle) (link : Linkage)
    (hk : m.steps[k]? = some s) (hc : HoldsOn table m.isStatic (lv.LiveAt m k) c f) {r : LiveRow}
    (hr : lv.Row m s r) (w : World) :
    Option.Rel (SameEffect (HoldsOn table m.isStatic (· ∈ r.liveOut)))
      (s.instr.exec (namedPlatform ω link) c w)
      (s.instr.exec (slotPlatform ω link table m.isStatic) f w) := by
  apply exec_congr (h.sameReads hk hc)
  · intro hdef
    refine hc.mono fun v hv => (Liveness.liveAt_iff hk hr.row).mpr (hr.through v hv ?_)
    simp [hdef]
  · intro dest ty rhs cell v hi hdest
    exact h.write hk hc hr hi hdest

theorem liveOut_of_liveAt (h : Allocated m code lv table) {r : LiveRow} (hr : lv.Row m s r) {j : Nat}
    (hj : j < m.steps.length → j + 1 ∈ s.succs) {v : String} (hv : lv.LiveAt m j v) :
    v ∈ r.liveOut := by
  obtain ⟨s', hs', hv⟩ := hv
  have hlt := (List.getElem?_eq_some_iff.mp hs').1
  have hsucc := hj hlt
  rw [← Method.id_of_assemble h.assembled hs'] at hsucc
  exact hr.succs v s' (List.mem_of_getElem? hs') hsucc hv

theorem advance_here (h : Allocated m code lv table)
    (hc : HoldsOn table m.isStatic (lv.LiveAt m k) c f) (w : World) :
    SameProgress m lv table (m.advance (namedPlatform ω link) (.here ⟨k, c, w⟩))
      (m.advance (slotPlatform ω link table m.isStatic) (.here ⟨k, f, w⟩)) := by
  cases hk : m.steps[k]? with
  | none =>
    simp only [Method.advance, hk]
    trivial
  | some s =>
    obtain ⟨r, hr⟩ := Liveness.row_of_isFixpoint h.describes h.fixpoint (List.mem_of_getElem? hk)
    have hexec := h.exec ω link hk hc hr w
    simp only [Method.advance, hk]
    generalize hx : s.instr.exec (namedPlatform ω link) c w = x at hexec ⊢
    generalize s.instr.exec (slotPlatform ω link table m.isStatic) f w = y at hexec ⊢
    cases hexec with
    | none => trivial
    | @some x y heff =>
      obtain ⟨⟨flow, c'⟩, w'⟩ := x
      obtain ⟨⟨flow', f'⟩, w''⟩ := y
      obtain ⟨rfl, rfl, hstore⟩ := heff
      cases flow with
      | ret v => exact ⟨rfl, rfl⟩
      | next =>
        refine ⟨rfl, rfl, hstore.mono fun v hv => h.liveOut_of_liveAt hr ?_ hv⟩
        exact Method.succ_next h.assembled hk hx
      | jump label =>
        obtain ⟨j, hj, _, hsucc⟩ := Method.succ_jump h.assembled h.labels hk hx
        simp only [Method.follow, hj]
        exact ⟨rfl, rfl, hstore.mono fun v hv => h.liveOut_of_liveAt hr (fun _ => hsucc) hv⟩

theorem advance (h : Allocated m code lv table) {p : Progress NamedCells} {q : Progress Slots}
    (hpq : SameProgress m lv table p q) :
    SameProgress m lv table (m.advance (namedPlatform ω link) p)
      (m.advance (slotPlatform ω link table m.isStatic) q) := by
  cases p with
  | returned v w =>
    cases q with
    | returned => exact hpq
    | here | stuck => exact hpq.elim
  | stuck =>
    cases q with
    | stuck => trivial
    | here | returned => exact hpq.elim
  | here p =>
    cases q with
    | here q =>
      obtain ⟨k, c, w⟩ := p
      obtain ⟨k', f, w'⟩ := q
      obtain ⟨rfl, rfl, hc⟩ := hpq
      exact h.advance_here hc w
    | returned | stuck => exact hpq.elim

theorem run (h : Allocated m code lv table) (n : Nat) {p : Progress NamedCells} {q : Progress Slots}
    (hpq : SameProgress m lv table p q) :
    SameProgress m lv table (m.run (namedPlatform ω link) n p)
      (m.run (slotPlatform ω link table m.isStatic) n q) := by
  induction n generalizing p q with
  | zero => exact hpq
  | succ n ih => exact ih (h.advance hpq)

end Allocated

/-- Sharing slots preserves meaning, as long as numbering them does not wrap around. Where cells and
slots agree on the live names, an instruction reads the same values, has the same effect and goes to the
same successor, and cells and slots agree on what is live there. So if only parameters are live at the
start, whole runs from equal arguments stay together. The live sets of the analysis are as this asks. -/
theorem allocate_preserves_meaning (header : Header) (code : Code) (m : Method)
    (hm : Method.assemble header code = .ok m) (hlabels : (labelsOf code).Nodup)
    (hself : SlotTable.selfName ∉ m.vars.map (·.1)) (hparams : ParamsNamed m) (lv : Liveness)
    (hdesc : lv.Describes m) (hfix : lv.isFixpoint m = true) (limit : Nat) (table : SlotTable)
    (halloc : SlotTable.allocate m lv limit = .ok table)
    (hfit : SlotTable.sharedExtent m lv ≤ 65535) (ω : Oracle) (link : Linkage) :
    (∀ k s c f w, m.steps[k]? = some s → HoldsOn table m.isStatic (lv.LiveAt m k) c f →
      (∀ v ∈ s.instr.reads, ∃ slot, table.get? v = some slot ∧ c.cell v = f slot.index) ∧
      SameProgress m lv table (m.advance (namedPlatform ω link) (.here ⟨k, c, w⟩))
        (m.advance (slotPlatform ω link table m.isStatic) (.here ⟨k, f, w⟩))) ∧
    ((∀ v, lv.LiveAt m 0 v → v ∈ m.params.map (·.name)) →
      ∀ n c f w, HoldsOn table m.isStatic (· ∈ m.params.map (·.name)) c f →
        SameProgress m lv table (m.run (namedPlatform ω link) n (.here ⟨0, c, w⟩))
          (m.run (slotPlatform ω link table m.isStatic) n (.here ⟨0, f, w⟩))) ∧
    (Liveness.analyze m).Describes m ∧ (Liveness.analyze m).isFixpoint m = true := by
  obtain ⟨hheader, _, _⟩ := Method.steps_of_assemble hm
  have h : Allocated m code lv table :=
    ⟨hheader ▸ hm, hlabels, hself, hparams, hdesc, hfix, ⟨limit, halloc⟩, hfit⟩
  have hids := Method.nodup_ids hm
  refine ⟨?_, ?_, Liveness.analyze_describes hids, Liveness.analyze_isFixpoint hids⟩
  · intro k s c f w hk hc
    exact ⟨fun v hv => h.reads hk hc hv, h.advance_here hc w⟩
  · intro hentry n c f w hargs
    exact h.run n ⟨rfl, rfl, hargs.mono hentry⟩

/-- `a = n + 1; b = a + a; if (b < n) goto done; b = b + 1; done: return b;` -/
def shareCode : Code :=
  [.instr (.assignTo (.var "a" .int) (.binary .add (.param 1 "n" .int) (.int 1))),
    .instr (.assignTo (.var "b" .int) (.binary .add (.var "a" .int) (.var "a" .int))),
    .instr (.branch (.binary .lt (.var "b" .int) (.param 1 "n" .int)) "done"),
    .instr (.assignTo (.var "b" .int) (.binary .add (.var "b" .int) (.int 1))),
    .label "done",
    .instr (.ret (some (.var "b" .int)))]

def shareMethod : Method where
  name := "share"
  params := [{ name := "n", ty := .int }]
  returnType := .int
  steps := [
    { id := 1, succs := [2],
      instr := .assignTo (.var "a" .int) (.binary .add (.param 1 "n" .int) (.int 1)) },
    { id := 2, succs := [3],
      instr := .assignTo (.var "b" .int) (.binary .add (.var "a" .int) (.var "a" .int)) },
    { id := 3, succs := [5, 4],
      instr := .branch (.binary .lt (.var "b" .int) (.param 1 "n" .int)) "done" },
    { id := 4, succs := [5],
      instr := .assignTo (.var "b" .int) (.binary .add (.var "b" .int) (.int 1)) },
    { id := 5, labels := ["done"], instr := .ret (some (.var "b" .int)) }]

/-- The variables `a` and `b` share a slot. -/
def shareTable : SlotTable :=
  ⟨[("a", ⟨2, .int⟩), ("b", ⟨2, .int⟩), ("n", ⟨1, .int⟩), ("this", ⟨0, .self ""⟩)]⟩

def shareCells : NamedCells where
  self := some (.ref 7)
  cell _ := .int 4

def shareSlots : Slots :=
  fun n => if n = 0 then .ref 7 else if n = 1 then .int 4 else .null

theorem allocate_preserves_meaning_share :
    Method.assemble shareMethod.toHeader shareCode = .ok shareMethod ∧
      SlotTable.allocate shareMethod (Liveness.analyze shareMethod) 1 = .ok shareTable ∧
      ∀ ω link w n, SameProgress shareMethod (Liveness.analyze shareMethod) shareTable
        (shareMethod.run (namedPlatform ω link) n (.here ⟨0, shareCells, w⟩))
        (shareMethod.run (slotPlatform ω link shareTable false) n (.here ⟨0, shareSlots, w⟩)) := by
  have hm : Method.assemble shareMethod.toHeader shareCode = .ok shareMethod := by decide
  have halloc : SlotTable.allocate shareMethod (Liveness.analyze shareMethod) 1 = .ok shareTable := by
    decide +kernel
  have hfit : SlotTable.sharedExtent shareMethod (Liveness.analyze shareMethod) ≤ 65535 := by
    decide +kernel
  have hids := Method.nodup_ids hm
  refine ⟨hm, halloc, ?_⟩
  intro ω link w n
  obtain ⟨_, hrun, _⟩ := allocate_preserves_meaning shareMethod.toHeader shareCode shareMethod hm
    (by decide) (by decide) (by decide) (Liveness.analyze shareMethod)
    (Liveness.analyze_describes hids) (Liveness.analyze_isFixpoint hids) 1 shareTable halloc hfit ω
    link
  refine hrun ?_ n shareCells shareSlots w ⟨rfl, ?_⟩
  · rintro v ⟨s, hs, hv⟩
    obtain rfl : shareMethod.steps.head (by decide) = s := by simpa [shareMethod] using hs
    have hlive : (LiveRow.liveInAt (Liveness.analyze shareMethod).rows 1).toList = ["n"] := by
      decide +kernel
    have hmem : v ∈ ["n"] := hlive ▸ NameSet.mem_def.mp hv
    exact hmem
  · intro v hv slot hslot
    obtain rfl : v = "n" := by simpa [shareMethod] using hv
    obtain rfl : (⟨1, .int⟩ : Slot) = slot := Option.some.inj (hslot ▸ by decide)
    rfl

theorem paramsNamed_crowded (others : List Param) : ParamsNamed (SlotTable.crowdedMethod others) := by
  have hname : ∀ s ∈ SlotTable.crowdedSteps, ∀ op ∈ s.instr.operands, ∀ name ∈ op.paramName?,
      name = "x" := by
    decide
  intro s hs op hop name hmem
  rw [hname s hs op hop name hmem]
  exact List.mem_cons_self

theorem advance_crowded {others : List Param} {S : Type} {π : Platform S} {s s' : S} {w : World}
    (h : π.storage.write? s (.var "a") (.int 1) = some s') :
    (SlotTable.crowdedMethod others).advance π (.here ⟨0, s, w⟩) = .here ⟨1, s', w⟩ := by
  have hexec : (Instr.assignTo (.var "a" .int) (.single (.int 1))).exec π s w =
      some ((.next, s'), w) := by
    show (expect (π.storage.write? s (.var "a") (.int 1)) >>= fun s' => pure (Flow.next, s')) w = _
    rw [h]
    rfl
  exact congrArg ((SlotTable.crowdedMethod others).follow 0) hexec

/-- Where the numbers of slots wrap around, a definition spoils a parameter that is still needed. -/
theorem not_forall_allocate_preserves_meaning :
    ¬ ∀ (header : Header) (code : Code) (m : Method), Method.assemble header code = .ok m →
      (labelsOf code).Nodup → SlotTable.selfName ∉ m.vars.map (·.1) → ParamsNamed m →
      ∀ lv : Liveness, lv.Describes m → lv.isFixpoint m = true →
      ∀ limit table, SlotTable.allocate m lv limit = .ok table →
      ∀ ω link k s c f w, m.steps[k]? = some s → HoldsOn table m.isStatic (lv.LiveAt m k) c f →
        SameProgress m lv table (m.advance (namedPlatform ω link) (.here ⟨k, c, w⟩))
          (m.advance (slotPlatform ω link table m.isStatic) (.here ⟨k, f, w⟩)) := by
  intro h
  obtain ⟨others, table, halloc, ha, hx⟩ := SlotTable.exists_allocate_crowded
  have hm := SlotTable.assemble_crowded others
  have hids := Method.nodup_ids hm
  have hself : SlotTable.selfName ∉ (SlotTable.crowdedMethod others).vars.map (·.1) :=
    show SlotTable.selfName ∉ ["a"] by decide
  have hsame := h _ _ _ hm (by decide) hself (paramsNamed_crowded others) _
    (Liveness.analyze_describes hids) (Liveness.analyze_isFixpoint hids) 0 table halloc
    (fun _ _ _ => none) ⟨id, fun _ => none, fun _ _ _ _ _ => none⟩ 0 _ ⟨none, fun _ => .int 4⟩
    (fun _ => .int 4) ⟨⟨fun _ _ => .null, fun _ => none⟩, []⟩ rfl ⟨rfl, fun _ _ _ _ => rfl⟩
  -- the parameter is live behind the definition
  have hlive : (Liveness.analyze (SlotTable.crowdedMethod others)).LiveAt
      (SlotTable.crowdedMethod others) 1 "x" := by
    obtain ⟨r, hr⟩ := Liveness.row_of_isFixpoint (Liveness.analyze_describes hids)
      (Liveness.analyze_isFixpoint hids) (s := SlotTable.crowdedSteps[1])
      (List.mem_of_getElem? (i := 1) rfl)
    exact (Liveness.liveAt_iff rfl hr.row).mpr (hr.uses "x" (by decide))
  have hwrite (f : Slots) : (slotCells table true).write? f (.var "a") (.int 1) =
      some (f.set 0 (.int 1)) :=
    congrArg (Option.map _) ha
  rw [advance_crowded rfl, advance_crowded (hwrite _)] at hsame
  exact absurd (hsame.2.2.cells "x" hlive _ hx) (by decide)

end JavaMinus
