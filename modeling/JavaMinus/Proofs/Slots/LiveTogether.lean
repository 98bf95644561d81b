import JavaMinus.Proofs.Slots.Frame
import JavaMinus.Proofs.Slots.Renaming

/-!
# Names that are live together

Clashes are found at definitions only, yet two variables that are live at the same place always clash.
On a path to that place one of them was defined last, and the other was live behind that definition.
This needs a path on which at least one was defined, so at the start of the method nothing may be live
but the current object and the parameters.
-/

namespace JavaMinus

open JavaMinus.Flat (Step Method Header Code)

/-! ### Fixed names -/

namespace SlotTable

variable {m : Method} {name : String}

theorem fixed_get?_eq_none (hparam : name ∉ m.params.map (·.name))
    (hself : m.isStatic = false → name ≠ selfName) : (fixed m).1.get? name = none := by
  unfold fixed
  split
  · exact get?_addParams_of_not_mem {} 0 hparam
  · next hstatic =>
    have hne := hself (by simpa using hstatic)
    rw [get?_addParams_of_not_mem _ 1 hparam, get?_insert, if_neg hne]
    rfl

theorem not_param_of_mem_nodesOf (h : name ∈ nodesOf m) : name ∉ m.params.map (·.name) := by
  intro hparam
  obtain ⟨k, p, -, -, hslot⟩ := fixed_param hparam
  rw [(mem_nodesOf.mp h).2] at hslot
  cases hslot

end SlotTable

/-! ### Paths from the start -/

/-- Any two variables of which `live` holds clash. -/
def AllClash (m : Method) (live : String → Prop) : Prop :=
  ∀ a b, a ≠ b → live a → live b → a ∈ SlotTable.nodesOf m → b ∈ SlotTable.nodesOf m →
    Clashes m a b ∨ Clashes m b a

section Paths

variable {m : Method} {s t first : Step} {passed : List Step}

theorem Walk.last_mem {steps : List Step} (h : Walk steps s passed t) : t ∈ steps := by
  induction h with
  | stay hs => exact hs
  | step _ _ _ ih => exact ih

theorem LiveFrom.named {id : Nat} {v : String} (h : LiveFrom m.steps id v) (hparams : ParamsNamed m) :
    v ∈ m.vars.map (·.1) ∨ v ∈ m.params.map (·.name) := by
  induction h with
  | read hs hread =>
    obtain ⟨op, hop, hname⟩ := Flat.Instr.reads_operands hread
    exact hparams.name_cases hs hop hname
  | pass _ _ _ _ ih => exact ih

/-- Behind an instruction, a variable that it defines clashes with all others that are live, and the
others were live before it. -/
theorem AllClash.after (hs : s ∈ m.steps) (h : AllClash m (LiveFrom m.steps s.id)) :
    AllClash m fun v => ∃ id ∈ s.succs, LiveFrom m.steps id v := by
  intro a b hne ha hb hnodea hnodeb
  by_cases hdefa : s.instr.defines? = some a
  · exact .inl ⟨hne, hnodea, hnodeb, s, hs, hdefa, hb⟩
  · by_cases hdefb : s.instr.defines? = some b
    · exact .inr ⟨hne.symm, hnodeb, hnodea, s, hs, hdefb, ha⟩
    · obtain ⟨ida, hida, ha⟩ := ha
      obtain ⟨idb, hidb, hb⟩ := hb
      exact h a b hne (.pass hs hdefa hida ha) (.pass hs hdefb hidb hb) hnodea hnodeb

theorem AllClash.walk (hwalk : Walk m.steps s passed t) (h : AllClash m (LiveFrom m.steps s.id)) :
    AllClash m (LiveFrom m.steps t.id) := by
  induction hwalk with
  | stay _ => exact h
  | step hs hsucc _ ih =>
    apply ih
    intro a b hne ha hb
    exact h.after hs a b hne ⟨_, hsucc, ha⟩ ⟨_, hsucc, hb⟩

/-- Of two variables at the start, one is not the current object, so they are not both live. -/
theorem allClash_first (h : ∀ v, LiveFrom m.steps first.id v →
      v = SlotTable.selfName ∨ v ∈ m.params.map (·.name)) :
    AllClash m (LiveFrom m.steps first.id) := by
  intro a b hne ha hb hnodea hnodeb
  have hself {v : String} (hv : LiveFrom m.steps first.id v) (hnode : v ∈ SlotTable.nodesOf m) :
      v = SlotTable.selfName :=
    (h v hv).resolve_right (SlotTable.not_param_of_mem_nodesOf hnode)
  exact absurd ((hself ha hnodea).trans (hself hb hnodeb).symm) hne

end Paths

/-! ### Slots -/

section Slots

variable {m : Method} {a b : String}

theorem mem_nodesOf_of_live {id : Nat} (hparams : ParamsNamed m) (hlive : LiveFrom m.steps id a)
    (hparam : a ∉ m.params.map (·.name)) (hself : m.isStatic = false → a ≠ SlotTable.selfName) :
    a ∈ SlotTable.nodesOf m :=
  SlotTable.mem_nodesOf.mpr ⟨(hlive.named hparams).resolve_right hparam,
    SlotTable.fixed_get?_eq_none hparam hself⟩

/-- Live names that clash, if both are variables, have slots of their own in every table. -/
theorem forMethod_live_apart (hids : (m.steps.map (·.id)).Nodup) (hparams : ParamsNamed m)
    {ida idb : Nat} (ha : LiveFrom m.steps ida a) (hb : LiveFrom m.steps idb b) (hne : a ≠ b)
    (hclash : a ∈ SlotTable.nodesOf m → b ∈ SlotTable.nodesOf m → Clashes m a b ∨ Clashes m b a)
    {limit : Option Nat} {table : SlotTable} (htable : SlotTable.forMethod m limit = .ok table)
    (hfit : SlotTable.extent m limit ≤ 65535) :
    ∃ sa sb, table.get? a = some sa ∧ table.get? b = some sb ∧ sa.index ≠ sb.index := by
  obtain ⟨sa, hsa⟩ := SlotTable.forMethod_defined htable (ha.named hparams)
  obtain ⟨sb, hsb⟩ := SlotTable.forMethod_defined htable (hb.named hparams)
  refine ⟨sa, sb, hsa, hsb, SlotTable.forMethod_apart htable hfit hsa hsb hne ?_⟩
  intro hnodea hnodeb
  exact (mem_neighbours_iff hids).mpr (hclash hnodea hnodeb)

end Slots

/-- Names that are live together never share a slot. If only the current object and parameters are live
at the start, any two names that are live at a place that control can reach have different slots in
every table of the method that numbers its slots without wrapping around, and they interfere unless the
slot of one is fixed. -/
theorem live_names_apart (header : Header) (code : Code) (m : Method)
    (hm : Method.assemble header code = .ok m) (hparams : ParamsNamed m)
    (hentry : ∀ v, (Liveness.analyze m).LiveAt m 0 v →
      v = SlotTable.selfName ∨ v ∈ m.params.map (·.name))
    (first s : Step) (passed : List Step) (hfirst : m.steps[0]? = some first)
    (hwalk : Walk m.steps first passed s) :
    ∃ r, (Liveness.analyze m).row? s.id = some r ∧ ∀ a b, a ≠ b →
      (a ∈ r.liveIn ∧ b ∈ r.liveIn) ∨ (a ∈ r.liveOut ∧ b ∈ r.liveOut) →
      (∀ limit table, SlotTable.forMethod m limit = .ok table → SlotTable.extent m limit ≤ 65535 →
        ∃ sa sb, table.get? a = some sa ∧ table.get? b = some sb ∧ sa.index ≠ sb.index) ∧
      (a ∉ m.params.map (·.name) → b ∉ m.params.map (·.name) →
        (m.isStatic = false → a ≠ SlotTable.selfName ∧ b ≠ SlotTable.selfName) →
        (InterferenceGraph.build m (Liveness.analyze m)).interferes a b = true) := by
  have hids := Method.nodup_ids hm
  have hs := hwalk.last_mem
  obtain ⟨r, hr⟩ := Liveness.row_of_analyze hids hs
  refine ⟨r, hr.row, ?_⟩
  -- what holds at the start is carried along the path
  have hbefore : AllClash m (LiveFrom m.steps s.id) := by
    refine AllClash.walk hwalk (allClash_first fun v hv => hentry v ?_)
    exact ⟨first, hfirst, (Liveness.mem_liveInAt_iff hids).mpr hv⟩
  intro a b hne hlive
  have hclash : (∃ ida idb, LiveFrom m.steps ida a ∧ LiveFrom m.steps idb b) ∧
      (a ∈ SlotTable.nodesOf m → b ∈ SlotTable.nodesOf m → Clashes m a b ∨ Clashes m b a) := by
    rcases hlive with ⟨ha, hb⟩ | ⟨ha, hb⟩
    · rw [← Liveness.liveInAt_eq hr.row, Liveness.mem_liveInAt_iff hids] at ha hb
      exact ⟨⟨_, _, ha, hb⟩, hbefore a b hne ha hb⟩
    · rw [Liveness.mem_liveOut_iff hids hs hr] at ha hb
      refine ⟨?_, hbefore.after hs a b hne ha hb⟩
      obtain ⟨ida, _, ha⟩ := ha
      obtain ⟨idb, _, hb⟩ := hb
      exact ⟨ida, idb, ha, hb⟩
  obtain ⟨⟨ida, idb, ha, hb⟩, hclash⟩ := hclash
  refine ⟨fun limit table htable hfit =>
    forMethod_live_apart hids hparams ha hb hne hclash htable hfit, ?_⟩
  intro hparama hparamb hself
  have hnodea := mem_nodesOf_of_live hparams ha hparama fun hm => (hself hm).1
  have hnodeb := mem_nodesOf_of_live hparams hb hparamb fun hm => (hself hm).2
  exact List.contains_iff_mem.mpr ((mem_neighbours_iff hids).mpr (hclash hnodea hnodeb))

/-- `i = 0; s = 0; cond: if (i < n) goto body; goto end; body: s = s + i; i = i + 1; goto cond;
end: return s;` -/
def sumCode : Code :=
  [.instr (.assignTo (.var "i" .int) (.single (.int 0))),
    .instr (.assignTo (.var "s" .int) (.single (.int 0))),
    .label "cond",
    .instr (.branch (.binary .lt (.var "i" .int) (.param 1 "n" .int)) "body"),
    .instr (.goto "end"),
    .label "body",
    .instr (.assignTo (.var "s" .int) (.binary .add (.var "s" .int) (.var "i" .int))),
    .instr (.assignTo (.var "i" .int) (.binary .add (.var "i" .int) (.int 1))),
    .instr (.goto "cond"),
    .label "end",
    .instr (.ret (some (.var "s" .int)))]

def sumMethod : Method where
  name := "sum"
  params := [{ name := "n", ty := .int }]
  returnType := .int
  steps := [
    { id := 1, succs := [2], instr := .assignTo (.var "i" .int) (.single (.int 0)) },
    { id := 2, succs := [3], instr := .assignTo (.var "s" .int) (.single (.int 0)) },
    { id := 3, succs := [5, 4], labels := ["cond"],
      instr := .branch (.binary .lt (.var "i" .int) (.param 1 "n" .int)) "body" },
    { id := 4, succs := [8], instr := .goto "end" },
    { id := 5, succs := [6], labels := ["body"],
      instr := .assignTo (.var "s" .int) (.binary .add (.var "s" .int) (.var "i" .int)) },
    { id := 6, succs := [7],
      instr := .assignTo (.var "i" .int) (.binary .add (.var "i" .int) (.int 1)) },
    { id := 7, succs := [3], instr := .goto "cond" },
    { id := 8, labels := ["end"], instr := .ret (some (.var "s" .int)) }]

/-- At the end of the loop its counter and its sum are live, so they have two slots. -/
theorem live_names_apart_sum :
    Method.assemble sumMethod.toHeader sumCode = .ok sumMethod ∧
      (InterferenceGraph.build sumMethod (Liveness.analyze sumMethod)).interferes "i" "s" = true ∧
      ∀ limit table, SlotTable.forMethod sumMethod limit = .ok table →
        ∃ si ss, table.get? "i" = some si ∧ table.get? "s" = some ss ∧ si.index ≠ ss.index := by
  have hm : Method.assemble sumMethod.toHeader sumCode = .ok sumMethod := by decide
  have hin (id : Nat) (names : List String)
      (h : (LiveRow.liveInAt (Liveness.analyze sumMethod).rows id).toList = names) (v : String) :
      v ∈ LiveRow.liveInAt (Liveness.analyze sumMethod).rows id ↔ v ∈ names := by
    rw [← h]
    exact NameSet.mem_def
  have hfirst := hin 1 ["n"] (by decide +kernel)
  have hback := hin 7 ["i", "n", "s"] (by decide +kernel)
  have hentry : ∀ v, (Liveness.analyze sumMethod).LiveAt sumMethod 0 v →
      v = SlotTable.selfName ∨ v ∈ sumMethod.params.map (·.name) := by
    rintro v ⟨s, hs, hv⟩
    obtain rfl : sumMethod.steps.head (by decide) = s := by simpa [sumMethod] using hs
    exact .inr ((hfirst v).mp hv)
  have hwalk : Walk sumMethod.steps sumMethod.steps[0] [sumMethod.steps[0], sumMethod.steps[1],
      sumMethod.steps[2], sumMethod.steps[4], sumMethod.steps[5]] sumMethod.steps[6] :=
    .step (by decide) (by decide) (.step (by decide) (by decide) (.step (by decide) (by decide)
      (.step (by decide) (by decide) (.step (by decide) (by decide) (.stay (by decide))))))
  obtain ⟨r, hr, hapart⟩ := live_names_apart sumMethod.toHeader sumCode sumMethod hm (by decide) hentry
    _ _ _ rfl hwalk
  have hlive (v : String) (hv : v ∈ ["i", "n", "s"]) : v ∈ r.liveIn := by
    rw [← Liveness.liveInAt_eq hr]
    exact (hback v).mpr hv
  obtain ⟨hslots, hadjacent⟩ := hapart "i" "s" (by decide)
    (.inl ⟨hlive "i" (by decide), hlive "s" (by decide)⟩)
  have hfit (limit : Option Nat) : SlotTable.extent sumMethod limit ≤ 65535 := by
    cases limit with
    | none => decide +kernel
    | some limit =>
      show SlotTable.sharedExtent sumMethod (Liveness.analyze sumMethod) ≤ 65535
      decide +kernel
  exact ⟨hm, hadjacent (by decide) (by decide) (by decide), fun limit table htable =>
    hslots limit table htable (hfit limit)⟩

/-- `b = 1; this + b;` in an instance method, with a variable named after the current object. -/
def ownCode : Code :=
  [.instr (.assignTo (.var "b" .int) (.single (.int 1))),
    .instr (.binary .add (.var "this" .int) (.var "b" .int))]

def ownMethod : Method where
  name := "own"
  returnType := .void
  steps := [
    { id := 1, succs := [2], instr := .assignTo (.var "b" .int) (.single (.int 1)) },
    { id := 2, instr := .binary .add (.var "this" .int) (.var "b" .int) }]

/-- Two names are live before or behind an instruction that control can reach, in a method at whose
start only the current object and parameters are live. -/
def LiveTogether (m : Method) (a b : String) : Prop :=
  (∃ header code, Method.assemble header code = .ok m) ∧ ParamsNamed m ∧
    (∀ v, (Liveness.analyze m).LiveAt m 0 v → v = SlotTable.selfName ∨ v ∈ m.params.map (·.name)) ∧
    a ≠ b ∧ ∃ first s passed r, m.steps[0]? = some first ∧ Walk m.steps first passed s ∧
      (Liveness.analyze m).row? s.id = some r ∧
      ((a ∈ r.liveIn ∧ b ∈ r.liveIn) ∨ (a ∈ r.liveOut ∧ b ∈ r.liveOut))

theorem liveTogether_of_liveIn {m : Method} {code : Code}
    (hm : Method.assemble m.toHeader code = .ok m) (hparams : ParamsNamed m) {first s : Step}
    {passed : List Step} (hfirst : m.steps[0]? = some first) (hwalk : Walk m.steps first passed s)
    (hentry : ∀ v ∈ (LiveRow.liveInAt (Liveness.analyze m).rows first.id).toList,
      v = SlotTable.selfName ∨ v ∈ m.params.map (·.name))
    {a b : String} (ha : a ∈ (LiveRow.liveInAt (Liveness.analyze m).rows s.id).toList)
    (hb : b ∈ (LiveRow.liveInAt (Liveness.analyze m).rows s.id).toList) (hne : a ≠ b) :
    LiveTogether m a b := by
  obtain ⟨r, hr⟩ := Liveness.row_of_analyze (Method.nodup_ids hm) hwalk.last_mem
  rw [Liveness.liveInAt_eq hr.row] at ha hb
  refine ⟨⟨_, _, hm⟩, hparams, ?_, hne, first, s, passed, r, hfirst, hwalk, hr.row, .inl ⟨ha, hb⟩⟩
  rintro v ⟨s', hs', hv⟩
  obtain rfl := Option.some.inj (hfirst.symm.trans hs')
  exact hentry v hv

theorem liveTogether_own : LiveTogether ownMethod "b" "this" := by
  have hm : Method.assemble ownMethod.toHeader ownCode = .ok ownMethod := by decide
  have hwalk : Walk ownMethod.steps ownMethod.steps[0] [ownMethod.steps[0]] ownMethod.steps[1] :=
    .step (by decide) (by decide) (.stay (by decide))
  exact liveTogether_of_liveIn hm (by decide) rfl hwalk (by decide +kernel) (by decide +kernel)
    (by decide +kernel) (by decide)

/-- The analysis looks at the code alone, not at the header. -/
theorem Liveness.analyze_congr {m m' : Method} (h : m.steps = m'.steps) : analyze m = analyze m' := by
  unfold analyze
  rw [h]

theorem liveTogether_crowded (others : List Flat.Param) :
    LiveTogether (SlotTable.crowdedMethod others) "a" "x" := by
  have hwalk : Walk (SlotTable.crowdedMethod others).steps SlotTable.crowdedSteps[0]
      [SlotTable.crowdedSteps[0]] SlotTable.crowdedSteps[1] :=
    .step (List.mem_of_getElem? (i := 0) rfl) (by decide) (.stay (List.mem_of_getElem? (i := 1) rfl))
  have hsteps : (SlotTable.crowdedMethod others).steps = (SlotTable.crowdedMethod []).steps := rfl
  have hanalyze := Liveness.analyze_congr hsteps
  refine liveTogether_of_liveIn (SlotTable.assemble_crowded others) (paramsNamed_crowded others) rfl
    hwalk ?_ ?_ ?_ (by decide)
  · have hfirst : (LiveRow.liveInAt (Liveness.analyze (SlotTable.crowdedMethod [])).rows 1).toList =
        ["x"] := by
      decide +kernel
    rw [hanalyze]
    intro v (hv : v ∈ (LiveRow.liveInAt _ 1).toList)
    rw [hfirst, List.mem_singleton] at hv
    rw [hv]
    exact .inr List.mem_cons_self
  · rw [hanalyze]
    decide +kernel
  · rw [hanalyze]
    decide +kernel

/-- Names that are live together share a slot where the numbers of slots wrap around. In an instance
method the current object is no parameter and no variable to be coloured; live together with a
variable, it does not interfere with it. -/
theorem not_forall_live_names_apart :
    (¬ ∀ m a b, LiveTogether m a b → ∀ limit table, SlotTable.forMethod m limit = .ok table →
      ∃ sa sb, table.get? a = some sa ∧ table.get? b = some sb ∧ sa.index ≠ sb.index) ∧
    ¬ ∀ m a b, LiveTogether m a b → a ∉ m.params.map (·.name) → b ∉ m.params.map (·.name) →
      (InterferenceGraph.build m (Liveness.analyze m)).interferes a b = true := by
  constructor
  · intro h
    obtain ⟨others, table, htable, ha, hx⟩ := SlotTable.exists_allocate_crowded
    obtain ⟨sa, sx, hsa, hsx, hne⟩ := h _ _ _ (liveTogether_crowded others) (some 0) table htable
    obtain rfl := Option.some.inj (ha.symm.trans hsa)
    obtain rfl := Option.some.inj (hx.symm.trans hsx)
    exact hne rfl
  · intro h
    have hinterferes := h _ _ _ liveTogether_own (by decide) (by decide)
    have hnot : (InterferenceGraph.build ownMethod (Liveness.analyze ownMethod)).interferes "b"
        "this" = false := by
      decide +kernel
    exact absurd (hnot.symm.trans hinterferes) Bool.false_ne_true

end JavaMinus
