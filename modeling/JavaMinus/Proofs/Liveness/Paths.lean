import JavaMinus.Proofs.Slots.Simulation

/-!
# Live names and paths

The sets of the analysis are exact. A name is live at an instruction if and only if some path leads from
there to an instruction that reads it and no instruction on the way defines it. Every other solution of
the flow equations holds these names too.
-/

namespace JavaMinus

open JavaMinus.Flat (Step Method)

/-- From the instruction with this id there is a path to a read of the name, without a definition of it
on the way. -/
inductive LiveFrom (steps : List Step) : Nat → String → Prop
  | read {s : Step} {v : String} : s ∈ steps → v ∈ s.instr.reads → LiveFrom steps s.id v
  | pass {s : Step} {id : Nat} {v : String} : s ∈ steps → s.instr.defines? ≠ some v → id ∈ s.succs →
      LiveFrom steps id v → LiveFrom steps s.id v

theorem LiveFrom.exists_step {steps : List Step} {id : Nat} {v : String} (h : LiveFrom steps id v) :
    ∃ t ∈ steps, t.id = id := by
  cases h with
  | read hs _ | pass hs _ _ _ => exact ⟨_, hs, rfl⟩

theorem LiveFrom.mem_reads {steps : List Step} {id : Nat} {v : String} (h : LiveFrom steps id v) :
    ∃ s ∈ steps, v ∈ s.instr.reads := by
  induction h with
  | read hs hread => exact ⟨_, hs, hread⟩
  | pass _ _ _ _ ih => exact ih

/-- `Walk steps s passed t`: from instruction `s`, control can come to `t` over the instructions
`passed`, which start with `s`. The walk of no steps passes none. -/
inductive Walk (steps : List Step) : Step → List Step → Step → Prop
  | stay {s : Step} : s ∈ steps → Walk steps s [] s
  | step {s t u : Step} {passed : List Step} : s ∈ steps → t.id ∈ s.succs → Walk steps t passed u →
      Walk steps s (s :: passed) u

theorem Walk.start_mem {steps passed : List Step} {s t : Step} (h : Walk steps s passed t) :
    s ∈ steps := by
  cases h with
  | stay hs | step hs _ _ => exact hs

/-- Ids tell instructions apart, so a path over ids is a walk over instructions. -/
theorem liveFrom_iff_walk {steps : List Step} (hids : (steps.map (·.id)).Nodup) {s : Step}
    (hs : s ∈ steps) {v : String} :
    LiveFrom steps s.id v ↔ ∃ passed last, Walk steps s passed last ∧ v ∈ last.instr.reads ∧
      ∀ p ∈ passed, p.instr.defines? ≠ some v := by
  constructor
  · intro h
    generalize hid : s.id = id at h
    induction h generalizing s with
    | @read t v ht hread =>
      obtain rfl : s = t := List.inj_on_of_nodup_map hids hs ht hid
      exact ⟨[], s, .stay hs, hread, by simp⟩
    | @pass t id v ht hdef hsucc hlive ih =>
      -- the id stands for this instruction only, so the path starts here
      obtain rfl : s = t := List.inj_on_of_nodup_map hids hs ht hid
      obtain ⟨next, hnext, rfl⟩ := hlive.exists_step
      obtain ⟨passed, last, hwalk, hread, hpassed⟩ := ih hnext rfl
      refine ⟨s :: passed, last, .step hs hsucc hwalk, hread, ?_⟩
      rw [List.forall_mem_cons]
      exact ⟨hdef, hpassed⟩
  · rintro ⟨passed, last, hwalk, hread, hpassed⟩
    induction hwalk with
    | stay ht => exact .read ht hread
    | step ht hsucc hwalk ih =>
      rw [List.forall_mem_cons] at hpassed
      exact .pass ht hpassed.1 hsucc (ih hwalk.start_mem hread hpassed.2)

namespace LiveRow

/-- A row that describes a step, and each name in its sets is there for a path. -/
structure Justified (steps : List Step) (s : Step) (r : LiveRow) : Prop where
  id : r.id = s.id
  defs : r.defs = NameSet.ofList s.instr.defines?.toList
  uses : r.uses = NameSet.ofList s.instr.reads
  liveIn : ∀ v ∈ r.liveIn, LiveFrom steps s.id v
  liveOut : ∀ v ∈ r.liveOut, ∃ id ∈ s.succs, LiveFrom steps id v

def AllJustified (steps : List Step) (rows : List LiveRow) : Prop :=
  ∀ r ∈ rows, ∃ s ∈ steps, Justified steps s r

theorem allJustified_start (steps : List Step) : AllJustified steps (steps.map start) := by
  intro r hr
  obtain ⟨s, hs, rfl⟩ := List.mem_map.mp hr
  refine ⟨s, hs, rfl, rfl, rfl, ?_, ?_⟩
  · intro v hv
    exact absurd hv NameSet.not_mem_empty
  · intro v hv
    exact absurd hv NameSet.not_mem_empty

theorem AllJustified.liveInAt {steps : List Step} {rows : List LiveRow} (h : AllJustified steps rows)
    {id : Nat} {v : String} (hv : v ∈ liveInAt rows id) : LiveFrom steps id v := by
  unfold LiveRow.liveInAt at hv
  cases hr : find? rows id with
  | none =>
    rw [hr] at hv
    exact absurd hv NameSet.not_mem_empty
  | some r =>
    rw [hr] at hv
    obtain ⟨s, _, hs⟩ := h r (List.mem_of_find?_eq_some hr)
    have hid : r.id = id := by simpa using List.find?_some hr
    rw [← hid, hs.id]
    exact hs.liveIn v hv

theorem AllJustified.update {steps : List Step} (hids : (steps.map (·.id)).Nodup) {s : Step}
    (hs : s ∈ steps) {rows : List LiveRow} (h : AllJustified steps rows) :
    AllJustified steps (update s rows) := by
  have hout : ∀ v ∈ outAt rows s.succs, ∃ id ∈ s.succs, LiveFrom steps id v := by
    intro v hv
    obtain ⟨id, hid, hmem⟩ := mem_outAt.mp hv
    exact ⟨id, hid, h.liveInAt hmem⟩
  intro r' hr'
  obtain ⟨r, hr, heq⟩ := List.mem_map.mp hr'
  obtain ⟨t, ht, hjust⟩ := h r hr
  by_cases hid : r.id = s.id
  · rw [if_pos hid] at heq
    subst heq
    obtain rfl : t = s := List.inj_on_of_nodup_map hids ht hs (hjust.id.symm.trans hid)
    refine ⟨t, ht, hid, hjust.defs, hjust.uses, ?_, hout⟩
    intro v hv
    rcases mem_transfer.mp hv with hv | ⟨hv, hdef⟩
    · rw [hjust.uses] at hv
      exact .read ht (NameSet.mem_ofList.mp hv)
    · obtain ⟨id, hsucc, hlive⟩ := hout v hv
      refine .pass ht ?_ hsucc hlive
      rw [hjust.defs, NameSet.mem_ofList, Option.mem_toList] at hdef
      exact hdef
  · rw [if_neg hid] at heq
    subst heq
    exact ⟨t, ht, hjust⟩

theorem AllJustified.sweep {steps part : List Step} (hids : (steps.map (·.id)).Nodup)
    (hpart : ∀ s ∈ part, s ∈ steps) {rows : List LiveRow} (h : AllJustified steps rows) :
    AllJustified steps (sweep part rows) := by
  induction part with
  | nil => exact h
  | cons s rest ih =>
    have hrest := ih fun s' hs' => hpart s' (List.mem_cons_of_mem s hs')
    exact hrest.update hids (hpart s List.mem_cons_self)

theorem AllJustified.settles {steps : List Step} (hids : (steps.map (·.id)).Nodup) {n : Nat}
    {rows out : List LiveRow} (hsettles : Settles steps rows n out) (h : AllJustified steps rows) :
    AllJustified steps out := by
  induction hsettles with
  | last _ => exact h
  | again _ _ ih => exact ih (h.sweep hids fun s hs => hs)

end LiveRow

namespace Liveness

variable {m : Method} {v : String}

theorem analyze_justified (hids : (m.steps.map (·.id)).Nodup) :
    LiveRow.AllJustified m.steps (analyze m).rows :=
  (LiveRow.allJustified_start m.steps).settles hids (analyze_settles hids)

theorem row_of_analyze (hids : (m.steps.map (·.id)).Nodup) {s : Step} (hs : s ∈ m.steps) :
    ∃ r, (analyze m).Row m s r :=
  row_of_isFixpoint (analyze_describes hids) (analyze_isFixpoint hids) hs

/-- Every solution of the flow equations has the names that paths make live. -/
theorem mem_liveInAt_of_liveFrom {lv : Liveness} (hdesc : lv.Describes m)
    (hfix : lv.isFixpoint m = true) {id : Nat} (h : LiveFrom m.steps id v) :
    v ∈ LiveRow.liveInAt lv.rows id := by
  induction h with
  | read hs hread =>
    obtain ⟨r, hr⟩ := row_of_isFixpoint hdesc hfix hs
    rw [liveInAt_eq hr.row]
    exact hr.uses _ hread
  | pass hs hdef hsucc hlive ih =>
    obtain ⟨r, hr⟩ := row_of_isFixpoint hdesc hfix hs
    obtain ⟨t, ht, rfl⟩ := hlive.exists_step
    rw [liveInAt_eq hr.row]
    exact hr.through _ (hr.succs _ t ht hsucc ih) hdef

theorem mem_liveInAt_iff (hids : (m.steps.map (·.id)).Nodup) {id : Nat} :
    v ∈ LiveRow.liveInAt (analyze m).rows id ↔ LiveFrom m.steps id v :=
  ⟨(analyze_justified hids).liveInAt,
    mem_liveInAt_of_liveFrom (analyze_describes hids) (analyze_isFixpoint hids)⟩

theorem mem_liveOut_iff (hids : (m.steps.map (·.id)).Nodup) {s : Step} (hs : s ∈ m.steps)
    {r : LiveRow} (hr : (analyze m).Row m s r) :
    v ∈ r.liveOut ↔ ∃ id ∈ s.succs, LiveFrom m.steps id v := by
  constructor
  · intro hv
    obtain ⟨t, ht, hjust⟩ := analyze_justified hids r (List.mem_of_find?_eq_some hr.row)
    have hid : r.id = s.id := by simpa using List.find?_some hr.row
    obtain rfl : t = s := List.inj_on_of_nodup_map hids ht hs (hjust.id.symm.trans hid)
    exact hjust.liveOut v hv
  · rintro ⟨id, hid, hlive⟩
    obtain ⟨t, ht, rfl⟩ := hlive.exists_step
    exact hr.succs v t ht hid ((mem_liveInAt_iff hids).mpr hlive)

/-- The sets of the analysis are the live names of paths, and they are the least solution of the flow
equations. -/
theorem analyze_exact (m : Method) (hids : (m.steps.map (·.id)).Nodup) :
    (∀ s ∈ m.steps, ∃ r, (analyze m).row? s.id = some r ∧
      (∀ v, v ∈ r.liveIn ↔ ∃ passed last, Walk m.steps s passed last ∧ v ∈ last.instr.reads ∧
        ∀ p ∈ passed, p.instr.defines? ≠ some v) ∧
      ∀ v, v ∈ r.liveOut ↔ ∃ t ∈ m.steps, t.id ∈ s.succs ∧
        ∃ r', (analyze m).row? t.id = some r' ∧ v ∈ r'.liveIn) ∧
    (analyze m).Describes m ∧ (analyze m).isFixpoint m = true ∧
    ∀ lv : Liveness, lv.Describes m → lv.isFixpoint m = true → ∀ s ∈ m.steps,
      ∃ r r', (analyze m).row? s.id = some r ∧ lv.row? s.id = some r' ∧
        r.liveIn ⊆ r'.liveIn ∧ r.liveOut ⊆ r'.liveOut := by
  refine ⟨?_, analyze_describes hids, analyze_isFixpoint hids, ?_⟩
  · intro s hs
    obtain ⟨r, hr⟩ := row_of_analyze hids hs
    refine ⟨r, hr.row, ?_, ?_⟩
    · intro v
      rw [← liveInAt_eq hr.row, mem_liveInAt_iff hids]
      exact liveFrom_iff_walk hids hs
    · intro v
      rw [mem_liveOut_iff hids hs hr]
      constructor
      · rintro ⟨id, hid, hlive⟩
        obtain ⟨t, ht, rfl⟩ := hlive.exists_step
        obtain ⟨r', hr'⟩ := row_of_analyze hids ht
        refine ⟨t, ht, hid, r', hr'.row, ?_⟩
        rw [← liveInAt_eq hr'.row]
        exact (mem_liveInAt_iff hids).mpr hlive
      · rintro ⟨t, _, hid, r', hr', hv⟩
        rw [← liveInAt_eq hr', mem_liveInAt_iff hids] at hv
        exact ⟨t.id, hid, hv⟩
  · intro lv hdesc hfix s hs
    obtain ⟨r, hr⟩ := row_of_analyze hids hs
    obtain ⟨r', hr'⟩ := row_of_isFixpoint hdesc hfix hs
    refine ⟨r, r', hr.row, hr'.row, ?_, ?_⟩
    · intro v hv
      rw [← liveInAt_eq hr.row, mem_liveInAt_iff hids] at hv
      rw [← liveInAt_eq hr'.row]
      exact mem_liveInAt_of_liveFrom hdesc hfix hv
    · intro v hv
      obtain ⟨id, hid, hlive⟩ := (mem_liveOut_iff hids hs hr).mp hv
      obtain ⟨t, ht, rfl⟩ := hlive.exists_step
      exact hr'.succs v t ht hid (mem_liveInAt_of_liveFrom hdesc hfix hlive)

/-- A loop from which control comes to a return, a step behind it that only leads to itself, and a
successor that does not exist. -/
def loopMethod : Method where
  name := "loop"
  params := [{ name := "n", ty := .int }]
  returnType := .int
  steps := [
    { id := 1, succs := [2], instr := .assignTo (.var "i" .int) (.single (.param 1 "n" .int)) },
    { id := 2, succs := [4, 3],
      instr := .branch (.binary .lt (.var "i" .int) (.param 1 "n" .int)) "done" },
    { id := 3, succs := [2],
      instr := .assignTo (.var "i" .int) (.binary .add (.var "i" .int) (.int 1)) },
    { id := 4, succs := [9], labels := ["done"], instr := .ret (some (.var "sum" .int)) },
    { id := 5, succs := [5],
      instr := .assignTo (.var "i" .int) (.binary .add (.var "i" .int) (.var "sum" .int)) }]

/-- The sum is live in the loop, since control comes from its body over its test to the return. -/
theorem analyze_exact_loop :
    (loopMethod.steps.map (·.id)).Nodup ∧
      ∃ r, (analyze loopMethod).row? 3 = some r ∧ "sum" ∈ r.liveIn ∧ "sum" ∈ r.liveOut := by
  have hids : (loopMethod.steps.map (·.id)).Nodup := by decide
  obtain ⟨hrows, _⟩ := analyze_exact loopMethod hids
  have htest : Walk loopMethod.steps loopMethod.steps[1] [loopMethod.steps[1]] loopMethod.steps[3] :=
    .step (by decide) (by decide) (.stay (by decide))
  obtain ⟨rtest, hrtest, hin, _⟩ := hrows loopMethod.steps[1] (by decide)
  obtain ⟨rbody, hrbody, hbody, hout⟩ := hrows loopMethod.steps[2] (by decide)
  refine ⟨hids, rbody, hrbody, ?_, ?_⟩
  · exact (hbody "sum").mpr ⟨_, _, .step (by decide) (by decide) htest, by decide, by decide⟩
  · exact (hout "sum").mpr ⟨_, by decide, by decide, rtest, hrtest,
      (hin "sum").mpr ⟨_, _, htest, by decide, by decide⟩⟩

end Liveness

end JavaMinus
