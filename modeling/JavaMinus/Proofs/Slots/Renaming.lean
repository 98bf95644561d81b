import JavaMinus.Proofs.Flat.Renaming
import JavaMinus.Proofs.Liveness.Paths
import JavaMinus.Proofs.Slots.Frame

/-!
# Slots do not depend on names

When the variables of a method get other names, each keeps its slot. The sets of live names are ordered
by name and change their order, but colouring looks only at which variables clash and in which order
they appear.
-/

namespace JavaMinus

open JavaMinus.Flat (Ty Method Param Step Renaming)

/-! ### Live variables -/

theorem liveFrom_rename {ρ : Renaming} {steps : List Step} {id : Nat} {v : String} :
    LiveFrom (steps.map (Step.rename ρ)) id (ρ.name v) ↔ LiveFrom steps id v := by
  constructor
  · intro h
    generalize hw : ρ.name v = w at h
    induction h with
    | read hmem hread =>
      obtain ⟨s, hs, rfl⟩ := List.mem_map.mp hmem
      rw [Step.rename, Flat.Instr.reads_rename, ← hw, List.mem_map_of_injective ρ.name.injective]
        at hread
      exact LiveFrom.read (s := s) hs hread
    | pass hmem hdef hsucc _ ih =>
      obtain ⟨s, hs, rfl⟩ := List.mem_map.mp hmem
      refine LiveFrom.pass (s := s) hs (fun hv => hdef ?_) hsucc (ih hw)
      rw [Step.rename, Flat.Instr.defines?_rename, hv, ← hw]
      rfl
  · intro h
    induction h with
    | @read s v hs hread =>
      have hread' : ρ.name v ∈ (s.rename ρ).instr.reads := by
        rw [Step.rename, Flat.Instr.reads_rename]
        exact List.mem_map_of_mem hread
      exact LiveFrom.read (s := s.rename ρ) (List.mem_map_of_mem hs) hread'
    | @pass s id v hs hdef hsucc _ ih =>
      have hdef' : (s.rename ρ).instr.defines? ≠ some (ρ.name v) := by
        rw [Step.rename, Flat.Instr.defines?_rename]
        intro hv
        obtain ⟨d, hd, heq⟩ := Option.map_eq_some_iff.mp hv
        rw [ρ.name.injective heq] at hd
        exact hdef hd
      exact LiveFrom.pass (s := s.rename ρ) (List.mem_map_of_mem hs) hdef' hsucc ih

/-! ### Clashes -/

/-- Variable `a` is defined where `b` is live afterwards. -/
def Clashes (m : Method) (a b : String) : Prop :=
  a ≠ b ∧ a ∈ SlotTable.nodesOf m ∧ b ∈ SlotTable.nodesOf m ∧
    ∃ s ∈ m.steps, s.instr.defines? = some a ∧ ∃ id ∈ s.succs, LiveFrom m.steps id b

theorem clash_of_mem {m : Method} (hids : (m.steps.map (·.id)).Nodup) {clash : String × List String}
    (h : clash ∈ (InterferenceGraph.build m (Liveness.analyze m)).clashes) {v : String}
    (hv : v ∈ clash.2) : Clashes m clash.1 v := by
  obtain ⟨s, hs, hclash⟩ := List.mem_filterMap.mp h
  obtain ⟨r, hr⟩ := Liveness.row_of_analyze hids hs
  rw [hr.row] at hclash
  cases hdef : s.instr.defines? with
  | none => simp [hdef] at hclash
  | some d =>
    simp only [hdef] at hclash
    unfold InterferenceGraph.clashAt at hclash
    split at hclash
    · next hnode =>
      obtain rfl := Option.some.inj hclash
      obtain ⟨hout, hother⟩ := List.mem_filter.mp hv
      rw [Bool.and_eq_true, bne_iff_ne, List.contains_iff_mem] at hother
      exact ⟨hother.1.symm, List.contains_iff_mem.mp hnode, hother.2, s, hs, hdef,
        (Liveness.mem_liveOut_iff hids hs hr).mp hout⟩
    · cases hclash

theorem mem_neighbours_iff {m : Method} (hids : (m.steps.map (·.id)).Nodup) {a b : String} :
    b ∈ (InterferenceGraph.build m (Liveness.analyze m)).neighbours a ↔
      Clashes m a b ∨ Clashes m b a := by
  have hdefined {a b : String} (h : Clashes m a b) :
      b ∈ (InterferenceGraph.build m (Liveness.analyze m)).neighbours a := by
    obtain ⟨hne, ha, hb, s, hs, hdef, hlive⟩ := h
    obtain ⟨r, hr⟩ := Liveness.row_of_analyze hids hs
    exact InterferenceGraph.mem_neighbours_build hs hdef hr.row
      ((Liveness.mem_liveOut_iff hids hs hr).mpr hlive) hne.symm ha hb
  constructor
  · intro h
    obtain ⟨clash, hmem, ⟨rfl, hb⟩ | ⟨_, ha, rfl⟩⟩ := InterferenceGraph.mem_neighbours.mp h
    · exact .inl (clash_of_mem hids hmem hb)
    · exact .inr (clash_of_mem hids hmem ha)
  · rintro (h | h)
    · exact hdefined h
    · exact InterferenceGraph.neighbours_symm h.1 (hdefined h)

/-! ### Colours -/

namespace InterferenceGraph

variable {τ : Equiv.Perm String} {g g' : InterferenceGraph}

theorem takenBy_rename {node : String}
    (hnear : ∀ b, τ b ∈ g'.neighbours (τ node) ↔ b ∈ g.neighbours node)
    (done : List (String × UInt16)) :
    g'.takenBy (done.map (Prod.map τ id)) (τ node) = g.takenBy done node := by
  have hcontains (b : String) :
      (g'.neighbours (τ node)).contains (τ b) = (g.neighbours node).contains b := by
    rw [Bool.eq_iff_iff, List.contains_iff_mem, List.contains_iff_mem, hnear]
  unfold takenBy
  induction done with
  | nil => rfl
  | cons entry rest ih =>
    simp only [List.map_cons, List.filter_cons, Prod.map_fst, hcontains]
    split
    · rw [List.map_cons, List.map_cons, ih, Prod.map_snd, id]
    · exact ih

/-- Nodes in the same order with the same clashes get the same colours. -/
theorem colours_rename (hnodes : g'.nodes = g.nodes.map τ)
    (hnear : ∀ a b, τ b ∈ g'.neighbours (τ a) ↔ b ∈ g.neighbours a) :
    g'.colours = g.colours.map (Prod.map τ id) := by
  have hfold (nodes : List String) (done : List (String × UInt16)) :
      (nodes.map τ).foldl (fun done node => done ++ [(node, lowestFree (g'.takenBy done node))])
          (done.map (Prod.map τ id)) =
        (nodes.foldl (fun done node => done ++ [(node, lowestFree (g.takenBy done node))]) done).map
          (Prod.map τ id) := by
    induction nodes generalizing done with
    | nil => rfl
    | cons node rest ih =>
      rw [List.map_cons, List.foldl_cons, List.foldl_cons, takenBy_rename (hnear node), ← ih,
        List.map_append]
      rfl
  unfold colours
  rw [hnodes]
  exact hfold g.nodes []

theorem colourCount_rename (coloured : List (String × UInt16)) :
    colourCount (coloured.map (Prod.map τ id)) = colourCount coloured := by
  rw [colourCount, List.map_map]
  rfl

end InterferenceGraph

/-! ### Tables -/

namespace SlotTable

/-- Each variable has the slot in `t'` that it had under its old name in `t`, and no slot lies
higher. -/
structure SameSlots (τ : Equiv.Perm String) (t t' : SlotTable) : Prop where
  get? : ∀ x, t'.get? (τ x) = t.get? x
  limit : t'.localsLimit = t.localsLimit

section Tables

variable {τ : Equiv.Perm String} {t t' : SlotTable} {name : String} {index : UInt16} {ty : Ty}

theorem SameSlots.insert (h : SameSlots τ t t') (hnew : t.get? name = none) :
    SameSlots τ (t.insert name index ty) (t'.insert (τ name) index ty) := by
  refine ⟨fun x => ?_, ?_⟩
  · simp only [get?_insert, τ.injective.eq_iff, h.get?]
  · rw [localsLimit_insert _ hnew, localsLimit_insert _ ((h.get? name).trans hnew), h.limit]

theorem SameSlots.contains (h : SameSlots τ t t') (x : String) : t'.contains (τ x) = t.contains x := by
  rw [SlotTable.contains, SlotTable.contains, h.get?]

theorem SameSlots.addVars (h : SameSlots τ t t') (next : UInt16) (vars : List (String × Ty)) :
    SameSlots τ (addVars t next vars) (addVars t' next (vars.map (Prod.map τ id))) := by
  induction vars generalizing t t' next with
  | nil => exact h
  | cons v rest ih =>
    obtain ⟨x, ty⟩ := v
    simp only [List.map_cons, Prod.map_apply, id, SlotTable.addVars, h.contains]
    split
    · exact ih h next
    · next hnew =>
      have hnone : t.get? x = none := by simpa [SlotTable.contains] using hnew
      exact ih (h.insert hnone) (next + 1)

theorem lookup_rename (vars : List (String × Ty)) (x : String) :
    (vars.map (Prod.map τ id)).lookup (τ x) = vars.lookup x := by
  induction vars with
  | nil => rfl
  | cons v rest ih =>
    have heq : (τ x == τ v.1) = (x == v.1) := by
      rw [Bool.eq_iff_iff, beq_iff_eq, beq_iff_eq, τ.injective.eq_iff]
    obtain ⟨y, ty⟩ := v
    rw [List.map_cons, Prod.map_apply, List.lookup_cons, List.lookup_cons, heq, ih]
    rfl

theorem SameSlots.addColoured (h : SameSlots τ t t') (first : UInt16) (vars : List (String × Ty))
    {coloured : List (String × UInt16)} (hnodup : (coloured.map (·.1)).Nodup)
    (hnew : ∀ x ∈ coloured.map (·.1), t.get? x = none) :
    SameSlots τ (addColoured t first vars coloured)
      (addColoured t' first (vars.map (Prod.map τ id)) (coloured.map (Prod.map τ id))) := by
  induction coloured generalizing t t' with
  | nil => exact h
  | cons entry rest ih =>
    obtain ⟨x, colour⟩ := entry
    rw [List.map_cons, List.nodup_cons] at hnodup
    rw [List.map_cons, List.forall_mem_cons] at hnew
    simp only [List.map_cons, Prod.map_apply, id, SlotTable.addColoured, lookup_rename]
    cases vars.lookup x with
    | none => exact ih h hnodup.2 hnew.2
    | some ty =>
      refine ih (h.insert hnew.1) hnodup.2 fun y hy => ?_
      have hne : y ≠ x := by
        rintro rfl
        exact hnodup.1 hy
      rw [get?_insert, if_neg hne]
      exact hnew.2 y hy

end Tables

/-! ### Fixed slots -/

/-- The current object and the parameters of a method keep their names. -/
def KeepsFixed (ρ : Renaming) (m : Method) : Prop :=
  ρ.name selfName = selfName ∧ ∀ p ∈ m.params, ρ.name p.name = p.name

section Methods

variable {ρ : Renaming} {m : Method}

theorem get?_insert_kept {τ : Equiv.Perm String} {t : SlotTable} (h : ∀ x, t.get? (τ x) = t.get? x)
    {name : String} (hname : τ name = name) (index : UInt16) (ty : Ty) (x : String) :
    (t.insert name index ty).get? (τ x) = (t.insert name index ty).get? x := by
  have hiff : τ x = name ↔ x = name := by
    nth_rewrite 1 [← hname]
    exact τ.injective.eq_iff
  simp only [get?_insert, hiff, h]

theorem get?_addParams_kept {τ : Equiv.Perm String} {ps : List Param}
    (hps : ∀ p ∈ ps, τ p.name = p.name) {t : SlotTable} (h : ∀ x, t.get? (τ x) = t.get? x)
    (next : UInt16) (x : String) :
    (addParams t next ps).1.get? (τ x) = (addParams t next ps).1.get? x := by
  induction ps generalizing t next with
  | nil => exact h x
  | cons p rest ih =>
    rw [List.forall_mem_cons] at hps
    exact ih hps.2 (get?_insert_kept h hps.1 next p.ty) (next + 1)

theorem fixed_sameSlots (h : KeepsFixed ρ m) : SameSlots ρ.name (fixed m).1 (fixed m).1 := by
  have hempty (x : String) : get? {} (ρ.name x) = get? {} x := rfl
  refine ⟨fun x => ?_, rfl⟩
  unfold fixed
  split
  · exact get?_addParams_kept h.2 hempty 0 x
  · exact get?_addParams_kept h.2 (get?_insert_kept hempty h.1 0 (.self "")) 1 x

theorem nodesOf_rename (h : KeepsFixed ρ m) : nodesOf (m.rename ρ) = (nodesOf m).map ρ.name := by
  have hpred : (fun name => !(fixed m).1.contains name) ∘ ρ.name =
      fun name => !(fixed m).1.contains name := by
    funext x
    simp [(fixed_sameSlots h).contains]
  have hfixed : fixed (m.rename ρ) = fixed m := rfl
  unfold nodesOf
  rw [hfixed, Method.vars_rename, List.map_map]
  rw [show (Prod.fst ∘ Prod.map ρ.name id : String × Ty → String) = ρ.name ∘ Prod.fst from rfl,
    ← List.map_map, List.filter_map, hpred]

theorem clashes_rename (h : KeepsFixed ρ m) {a b : String} :
    Clashes (m.rename ρ) (ρ.name a) (ρ.name b) ↔ Clashes m a b := by
  have hdefines : (∃ s ∈ (m.rename ρ).steps, s.instr.defines? = some (ρ.name a) ∧
      ∃ id ∈ s.succs, LiveFrom (m.rename ρ).steps id (ρ.name b)) ↔
      ∃ s ∈ m.steps, s.instr.defines? = some a ∧ ∃ id ∈ s.succs, LiveFrom m.steps id b := by
    have hsteps : (m.rename ρ).steps = m.steps.map (Step.rename ρ) := rfl
    simp only [hsteps, List.mem_map, liveFrom_rename, exists_exists_and_eq_and, Step.rename,
      Flat.Instr.defines?_rename, Option.map_eq_some_iff, ρ.name.injective.eq_iff, exists_eq_right]
  unfold Clashes
  rw [nodesOf_rename h, List.mem_map_of_injective ρ.name.injective,
    List.mem_map_of_injective ρ.name.injective, ρ.name.injective.ne_iff, hdefines]

theorem colours_build_rename (h : KeepsFixed ρ m) (hids : (m.steps.map (·.id)).Nodup) :
    (InterferenceGraph.build (m.rename ρ) (Liveness.analyze (m.rename ρ))).colours =
      (InterferenceGraph.build m (Liveness.analyze m)).colours.map (Prod.map ρ.name id) := by
  have hids' : ((m.rename ρ).steps.map (·.id)).Nodup := by
    rw [Method.rename, List.map_map]
    exact hids
  refine InterferenceGraph.colours_rename (nodesOf_rename h) fun a b => ?_
  rw [mem_neighbours_iff hids', mem_neighbours_iff hids, clashes_rename h, clashes_rename h]

/-- Under other names the same slots go to the same variables, and a limit that was enough still is. -/
theorem forMethod_rename {limit : Option Nat} {table : SlotTable} (h : KeepsFixed ρ m)
    (hids : (m.steps.map (·.id)).Nodup) (htable : forMethod m limit = .ok table) :
    ∃ table', forMethod (m.rename ρ) limit = .ok table' ∧ SameSlots ρ.name table table' := by
  cases limit with
  | none =>
    obtain rfl := Except.ok.inj htable
    refine ⟨_, rfl, ?_⟩
    unfold oneSlotEach
    rw [Method.vars_rename]
    exact (fixed_sameSlots h).addVars _ _
  | some limit =>
    have hnodes := (InterferenceGraph.build m (Liveness.analyze m)).colours_names
    simp only [forMethod, allocate, colours_build_rename h hids,
      InterferenceGraph.colourCount_rename, Method.vars_rename] at htable ⊢
    split at htable
    · cases htable
    · next henough =>
      obtain rfl := Except.ok.inj htable
      refine ⟨_, if_neg henough, (fixed_sameSlots h).addColoured _ _ ?_ ?_⟩
      · rw [hnodes]
        exact (Method.nodup_vars m).filter _
      · intro x hx
        rw [hnodes] at hx
        simpa [SlotTable.contains] using (List.mem_filter.mp hx).2

end Methods

end SlotTable

end JavaMinus
