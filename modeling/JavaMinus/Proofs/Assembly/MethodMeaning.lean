import JavaMinus.Proofs.Assembly.Reading
import JavaMinus.Proofs.Assembly.Simulation

/-!
# Runs of emitted methods

The body of an emitted method, read as text and run on the stack machine, goes from the lines of one
step to the lines of the next as the method goes from step to step. The operand stack is empty in
between, and the slots hold the variables.
-/

namespace JavaMinus.Assembly

open JavaMinus.Behaviour
open JavaMinus.Flat (Header Code Instr Step Flow Progress labelsOf)

/-- Distinct names have distinct slots, and slot zero of an instance method is for the current object
alone. -/
structure Separates (table : SlotTable) (isStatic : Bool) : Prop where
  apart : ∀ x y slot slot', table.get? x = some slot → table.get? y = some slot' → x ≠ y →
    slot.index ≠ slot'.index
  zero : isStatic = false → ∀ x slot, table.get? x = some slot → slot.index = 0 →
    x = SlotTable.selfName

/-! ### Slots after an instruction -/

section Slots

variable {φ : Frame} {ω : Oracle} {c c' : NamedCells} {f : Slots}

theorem Mirrors.after (hsep : Separates φ.slots φ.method.isStatic) (hc : Mirrors φ c f) {i : Instr}
    (hname : ∀ name, i.defines? = some name → name ≠ SlotTable.selfName) {flow : Flow}
    {w w' : World} (hexec : i.exec (framePlatform ω φ) c w = some ((flow, c'), w')) :
    Mirrors φ c' (slotsAfter φ i f c') := by
  rcases exec_cells hexec with ⟨hdef, rfl⟩ | ⟨name, v, hdef, rfl⟩
  · simp only [slotsAfter, hdef]
    exact hc
  · simp only [slotsAfter, hdef, if_true]
    cases hslot : φ.slots.get? name with
    | some slot =>
      rw [Option.map_some, Option.getD_some]
      refine HoldsOn.set hc hslot ?_ ?_ v
      · intro hstatic hzero
        exact hname name hdef (hsep.zero hstatic name slot hslot hzero)
      · intro x hx heq
        exact ⟨hx, fun slotx hslotx => hsep.apart x name slotx slot hslotx hslot heq⟩
    | none =>
      -- The variable has no slot, so nothing is said about its cell.
      rw [Option.map_none, Option.getD_none]
      refine ⟨hc.self, ?_⟩
      intro x hx slotx hslotx
      have heq : x ≠ name := by
        rintro rfl
        simp [hslot] at hslotx
      simp only [if_neg heq]
      exact hc.cells x hx slotx hslotx

end Slots

/-! ### Steps of a method -/

/-- A method with a slot table for it, and the blocks that its steps became. -/
structure Emission (code : Code) (φ : Frame) (blocks : List (List Line)) : Prop where
  assembled : Flat.Method.assemble φ.method.toHeader code = .ok φ.method
  labels : (labelsOf code).Nodup
  lead : ∀ l ∈ labelsOf code, ¬ "cmp_".toList <+: l.toList
  names : Named φ.cls φ.method
  usable : ∀ s ∈ φ.method.steps, Usable φ s.instr.operands
  separates : Separates φ.slots φ.method.isStatic
  emits : ∃ σ, EmitsAll φ φ.method.steps blocks {} σ

/-- All lines of a method whose steps became these blocks. -/
def bodyOf (m : Flat.Method) (blocks : List (List Line)) : List Line :=
  layout m.steps blocks ++ closing m

/-- The machine comes from `x` to where the run of the method is. -/
def Arrives (φ : Frame) (blocks : List (List Line)) (ω : Oracle) (x : Flat.Point Work) :
    Progress NamedCells → Prop
  | .here p => ∃ f,
    Reaches (stepLine? ω (bodyOf φ.method blocks)) x
      ⟨startOf φ.method.steps blocks p.pc, ⟨[], f⟩, p.world⟩ ∧
    Mirrors φ p.store f
  | .returned v w => Returns ω (bodyOf φ.method blocks) x v w
  | .stuck => Crashes ω (bodyOf φ.method blocks) x

/-- The run is at a step whose operands fit, or at its end. -/
def Ready (φ : Frame) (ω : Oracle) : Progress NamedCells → Prop
  | .here p => ∃ s, φ.method.steps[p.pc]? = some s ∧
    OperandsFit (framePlatform ω φ) p.store s.instr p.world
  | _ => True

theorem Arrives.trans {φ : Frame} {blocks : List (List Line)} {ω : Oracle} {x y : Flat.Point Work}
    {p : Progress NamedCells} (hxy : Reaches (stepLine? ω (bodyOf φ.method blocks)) x y)
    (h : Arrives φ blocks ω y p) : Arrives φ blocks ω x p := by
  cases p with
  | here p =>
    obtain ⟨f, hreach, hf⟩ := h
    exact ⟨f, hxy.trans hreach, hf⟩
  | returned v w =>
    obtain ⟨q, o, s, hreach, hget, hexec⟩ := h
    exact ⟨q, o, s, hxy.trans hreach, hget, hexec⟩
  | stuck =>
    obtain ⟨q, o, hreach, hget, hexec⟩ := h
    exact ⟨q, o, hxy.trans hreach, hget, hexec⟩

namespace Emission

variable {code : Code} {φ : Frame} {blocks : List (List Line)} {ω : Oracle} {k : Nat} {s : Step}
  {c : NamedCells} {f : Slots} {w : World}

theorem nodup_lineLabels (h : Emission code φ blocks) :
    (lineLabels (bodyOf φ.method blocks)).Nodup := by
  obtain ⟨σ, hemits⟩ := h.emits
  have hlabels := Flat.Method.flatMap_labels h.assembled
  apply nodup_labels φ.method hemits
  · rw [hlabels]
    exact h.labels
  · rw [hlabels]
    exact h.lead

theorem advance_here (h : Emission code φ blocks) (hk : φ.method.steps[k]? = some s)
    (hc : Mirrors φ c f) (hfit : OperandsFit (framePlatform ω φ) c s.instr w) :
    Arrives φ blocks ω ⟨startOf φ.method.steps blocks k, ⟨[], f⟩, w⟩
      (φ.method.advance (framePlatform ω φ) (.here ⟨k, c, w⟩)) := by
  obtain ⟨σ, hemits⟩ := h.emits
  have hs : s ∈ φ.method.steps := List.mem_of_getElem? hk
  have hnodup := h.nodup_lineLabels
  obtain ⟨block, σ₁, σ₂, hblock, hinstr⟩ := hemits.has_block hk
  have hruns := (instruction_emits hinstr).runs h.names.imports hnodup (h.names.steps s hs)
    (h.usable s hs) hc w hfit (startOf φ.method.steps blocks k) (placed_block _ hk hblock)
  simp only [Flat.Method.advance, hk]
  cases hexec : s.instr.exec (framePlatform ω φ) c w with
  | none =>
    rw [hexec] at hruns
    exact hruns
  | some r =>
    obtain ⟨⟨flow, c'⟩, w'⟩ := r
    rw [hexec] at hruns
    have hname : ∀ name, s.instr.defines? = some name → name ≠ SlotTable.selfName := by
      rintro name hdef rfl
      obtain ⟨op, hop, hname⟩ := Instr.defines?_operands hdef
      exact (h.usable s hs).named op hop hname
    have hc' := hc.after h.separates hname hexec
    cases flow with
    | ret v => exact hruns
    | next =>
      refine ⟨_, Relation.ReflTransGen.trans hruns ?_, hc'⟩
      exact reaches_startOf_succ _ hemits.length_eq hk hblock ω _ w'
    | jump label =>
      -- the jump ends at one of the labels before the block, and the others are passed
      obtain ⟨j, hj, hlt, _⟩ := Flat.Method.succ_jump h.assembled h.labels hk hexec
      obtain ⟨s', hs', hmem⟩ := Flat.Method.labelled_of_labelIndex? hj
      have hlt' : j < blocks.length := by
        rw [hemits.length_eq]
        exact hlt
      obtain ⟨target, htarget, hreach⟩ := reaches_startOf_label (closing φ.method) hs'
        (List.getElem?_eq_getElem hlt') hmem hnodup ω ⟨[], slotsAfter φ s.instr f c'⟩ w'
      simp only [Flat.Method.follow, hj]
      exact ⟨_, (hruns target htarget).trans hreach, hc'⟩

theorem run (h : Emission code φ blocks) (n : Nat) {x : Flat.Point Work} {p : Progress NamedCells}
    (hp : Arrives φ blocks ω x p)
    (hready : ∀ k < n, Ready φ ω (φ.method.run (framePlatform ω φ) k p)) :
    Arrives φ blocks ω x (φ.method.run (framePlatform ω φ) n p) := by
  induction n generalizing p with
  | zero => exact hp
  | succ n ih =>
    refine ih ?_ fun k hk => hready (k + 1) (Nat.succ_lt_succ hk)
    cases p with
    | here p =>
      obtain ⟨f, hreach, hf⟩ := hp
      obtain ⟨s, hs, hfit⟩ := hready 0 (Nat.zero_lt_succ n)
      exact Arrives.trans hreach (h.advance_here hs hf hfit)
    | returned v w => exact hp
    | stuck => exact hp

theorem enter (h : Emission code φ blocks) (hc : Mirrors φ c f) :
    Arrives φ blocks ω ⟨0, ⟨[], f⟩, w⟩ (.here ⟨0, c, w⟩) := by
  obtain ⟨σ, hemits⟩ := h.emits
  refine ⟨f, ?_, hc⟩
  cases hs : φ.method.steps[0]? with
  | none =>
    have hstart : startOf φ.method.steps blocks 0 = 0 := by simp [startOf, layout, hs]
    rw [hstart]
  | some s =>
    obtain ⟨block, _, _, hblock, _⟩ := hemits.has_block hs
    have hlabels := (placed_step (closing φ.method) hs hblock).left
    rw [startOf_eq hs]
    exact reaches_labels hlabels ω _ w

end Emission

/-- Emission preserves meaning. The text of the emitted body reads as its lines. Started at the lines
of a step, with an empty stack and slots that hold the variables, the machine comes to the lines of the
step that the method takes next, or returns the same value, or fails where the method fails. It has the
same events, the stack is empty again and the slots hold the variables. So whole runs stay together. -/
theorem emit_preserves_meaning (header : Header) (code : Code) (m : Flat.Method)
    (hm : Flat.Method.assemble header code = .ok m) (hlabels : (labelsOf code).Nodup)
    (hlead : ∀ l ∈ labelsOf code, ¬ "cmp_".toList <+: l.toList) (cls : Flat.Class)
    (hnames : Named cls m) (table : SlotTable)
    (hself : ∀ s ∈ m.steps, Usable ⟨cls, m, table⟩ s.instr.operands)
    (hslots : Separates table m.isStatic) (out : Method)
    (hout : Method.emit cls m table = .ok out) (ω : Oracle) :
    readBody? (String.join (out.body.map Line.text)) = some out.body ∧
    ∃ blocks σ, EmitsAll ⟨cls, m, table⟩ m.steps blocks {} σ ∧ out.body = bodyOf m blocks ∧
      (∀ k s c f w, m.steps[k]? = some s → Mirrors ⟨cls, m, table⟩ c f →
        OperandsFit (namedPlatform ω (linkage cls)) c s.instr w →
        Arrives ⟨cls, m, table⟩ blocks ω ⟨startOf m.steps blocks k, ⟨[], f⟩, w⟩
          (m.advance (namedPlatform ω (linkage cls)) (.here ⟨k, c, w⟩))) ∧
      (∀ n c f w, Mirrors ⟨cls, m, table⟩ c f →
        (∀ k < n, Ready ⟨cls, m, table⟩ ω
          (m.run (namedPlatform ω (linkage cls)) k (.here ⟨0, c, w⟩))) →
        Arrives ⟨cls, m, table⟩ blocks ω ⟨0, ⟨[], f⟩, w⟩
          (m.run (namedPlatform ω (linkage cls)) n (.here ⟨0, c, w⟩))) := by
  obtain ⟨blocks, σ, hemits, hbody⟩ := emit_body hout
  obtain ⟨rfl, _, _⟩ := Flat.Method.steps_of_assemble hm
  have h : Emission code ⟨cls, m, table⟩ blocks :=
    ⟨hm, hlabels, hlead, hnames, hself, hslots, σ, hemits⟩
  refine ⟨readBody?_emit hout hnames, blocks, σ, hemits, hbody, ?_, ?_⟩
  · intro k s c f w hk hc hfit
    exact h.advance_here hk hc hfit
  · intro n c f w hc hready
    exact h.run n (h.enter hc) hready

/-- `r = new Random(); m = r.nextInt(n); a[m] = n; t = m < 10; if (!t) goto skip; this.size = m;
skip: return m;` -/
def pickCode : Code :=
  [.instr (.assignTo (.var "r" (.object "Random"))
      (.call .new (.classRef "Random") none [] (.object "Random"))),
    .instr (.call .special (.var "r" (.object "Random")) (some "<init>") [] .void),
    .instr (.assignTo (.var "m" .int)
      (.call .virtual (.var "r" (.object "Random")) (some "nextInt") [.param 1 "n" .int] .int)),
    .instr (.assignTo (.elem (.param 2 "a" .intArray) (.var "m" .int) .int)
      (.single (.param 1 "n" .int))),
    .instr (.assignTo (.var "t" .bool) (.binary .lt (.var "m" .int) (.int 10))),
    .instr (.branch (.not (.var "t" .bool)) "skip"),
    .instr (.putField (.self "Box") (.var "size" .int) (.var "m" .int)),
    .label "skip",
    .instr (.ret (some (.var "m" .int)))]

def pickMethod : Flat.Method where
  name := "pick"
  params := [{ name := "n", ty := .int }, { name := "a", ty := .intArray }]
  returnType := .int
  steps := [
    { id := 1, succs := [2],
      instr := .assignTo (.var "r" (.object "Random"))
        (.call .new (.classRef "Random") none [] (.object "Random")) },
    { id := 2, succs := [3],
      instr := .call .special (.var "r" (.object "Random")) (some "<init>") [] .void },
    { id := 3, succs := [4],
      instr := .assignTo (.var "m" .int) (.call .virtual (.var "r" (.object "Random"))
        (some "nextInt") [.param 1 "n" .int] .int) },
    { id := 4, succs := [5],
      instr := .assignTo (.elem (.param 2 "a" .intArray) (.var "m" .int) .int)
        (.single (.param 1 "n" .int)) },
    { id := 5, succs := [6],
      instr := .assignTo (.var "t" .bool) (.binary .lt (.var "m" .int) (.int 10)) },
    { id := 6, succs := [8, 7], instr := .branch (.not (.var "t" .bool)) "skip" },
    { id := 7, succs := [8],
      instr := .putField (.self "Box") (.var "size" .int) (.var "m" .int) },
    { id := 8, labels := ["skip"], instr := .ret (some (.var "m" .int)) }]

def pickClass : Flat.Class where
  name := "Box"
  imports := ["java.util.Random"]
  methods := [pickMethod]

def pickTable : SlotTable :=
  ⟨[("a", ⟨2, .intArray⟩), ("m", ⟨4, .int⟩), ("n", ⟨1, .int⟩), ("r", ⟨3, .object "Random"⟩),
    ("t", ⟨5, .bool⟩), ("this", ⟨0, .self ""⟩)]⟩

def pickOut : Method where
  access := .pack
  isStatic := false
  name := "pick"
  descriptor := "(I[I)I"
  stackLimit := 3
  localsLimit := 6
  body := [.op (.new "java/util/Random"), .op (.store .ref 3), .op (.load .ref 3),
    .op (.invoke .special ⟨"java/util/Random", "<init>", "()V"⟩), .op (.load .ref 3),
    .op (.load .int 1), .op (.invoke .virtual ⟨"java/util/Random", "nextInt", "(I)I"⟩),
    .op (.store .int 4), .op (.load .ref 2), .op (.load .int 4), .op (.load .int 1),
    .op (.arrayStore .int), .op (.load .int 4), .op (.const 10),
    .op (.ifCompare .lt "cmp_true_0"), .op (.const 0), .op (.goto "cmp_end_1"),
    .label "cmp_true_0", .op (.const 1), .label "cmp_end_1", .op (.store .int 5),
    .op (.load .int 5), .op (.ifZero "skip"), .op (.load .ref 0), .op (.load .int 4),
    .op (.putField ⟨"Box", "size", "I"⟩), .label "skip", .op (.load .int 4), .op (.retValue .int)]

/-- The array at address 8 has two elements. -/
def pickWorld : World where
  memory := { field := fun _ _ => .null, array := fun a => if a = 8 then some [.int 0, .int 0] else none }

/-- Objects are allocated at address 9, and every call gives one. -/
def pickOracle : Oracle
  | _, memory, .newObject _ => some (.ref 9, memory)
  | _, memory, _ => some (.int 1, memory)

def pickCells : NamedCells where
  self := some (.ref 7)
  cell name := if name = "a" then .ref 8 else .int 4

def pickSlots : Slots :=
  fun n => if n = 0 then .ref 7 else if n = 2 then .ref 8 else .int 4

theorem assemble_pick : Flat.Method.assemble pickMethod.toHeader pickCode = .ok pickMethod := by
  decide +kernel

theorem named_pick : Named pickClass pickMethod :=
  ⟨by decide, by decide, by decide, by decide, by decide⟩

theorem emit_pick : Method.emit pickClass pickMethod pickTable = .ok pickOut := by
  decide +kernel

theorem separates_pickTable : Separates pickTable false := by
  have hapart : ∀ e ∈ pickTable.entries, ∀ e' ∈ pickTable.entries, e.1 ≠ e'.1 →
      e.2.index ≠ e'.2.index := by decide
  have hzero : ∀ e ∈ pickTable.entries, e.2.index = 0 → e.1 = SlotTable.selfName := by decide
  exact ⟨fun x y slot slot' hx hy => hapart _ (SlotTable.mem_of_lookup hx) _ (SlotTable.mem_of_lookup hy),
    fun _ x slot hx => hzero _ (SlotTable.mem_of_lookup hx)⟩

theorem mirrors_pick : Mirrors ⟨pickClass, pickMethod, pickTable⟩ pickCells pickSlots := by
  have hcells : ∀ e ∈ pickTable.entries, e.1 ≠ SlotTable.selfName →
      pickCells.cell e.1 = pickSlots e.2.index.toNat := by decide
  exact ⟨rfl, fun x hx slot hslot => hcells _ (SlotTable.mem_of_lookup hslot) hx⟩

theorem ready_pick : ∀ k < 8, Ready ⟨pickClass, pickMethod, pickTable⟩ pickOracle
    (pickMethod.run (namedPlatform pickOracle (linkage pickClass)) k
      (.here ⟨0, pickCells, pickWorld⟩)) := by
  intro k hk
  match k, hk with
  | 0, _ | 1, _ | 2, _ | 6, _ | 7, _ => exact ⟨_, rfl, trivial⟩
  | 3, _ =>
    refine ⟨_, rfl, ?_⟩
    rintro _ _ ⟨⟩ _ _ ⟨⟩
    trivial
  | 4, _ =>
    refine ⟨_, rfl, ?_⟩
    rintro _ _ ⟨⟩ _ _ ⟨⟩
    exact ⟨⟨_, rfl⟩, ⟨_, rfl⟩⟩
  | 5, _ =>
    refine ⟨_, rfl, ?_⟩
    rintro _ _ ⟨⟩
    exact .inr rfl

theorem run_pick : ∃ init next size memory,
    (linkage pickClass).method? .special (.var "r" (.object "Random")) "<init>" [] .void = some init ∧
    (linkage pickClass).method? .virtual (.var "r" (.object "Random")) "nextInt" [.param 1 "n" .int]
      .int = some next ∧
    (linkage pickClass).field? (.var "size" .int) = some size ∧
    pickMethod.run (namedPlatform pickOracle (linkage pickClass)) 8
      (.here ⟨0, pickCells, pickWorld⟩) = .returned (some (.int 1)) ⟨memory,
        [.newObject ((linkage pickClass).cls "Random"), .call .special init (some (.ref 9)) [],
          .call .virtual next (some (.ref 9)) [.int 4], .putElement (.ref 8) (.int 1) (.int 4),
          .putField size (.ref 7) (.int 1)]⟩ :=
  ⟨_, _, _, _, rfl, rfl, rfl, rfl⟩

theorem emit_preserves_meaning_pick :
    Flat.Method.assemble pickMethod.toHeader pickCode = .ok pickMethod ∧
      Method.emit pickClass pickMethod pickTable = .ok pickOut ∧
      ∃ w, w.trace = [.newObject "java/util/Random",
          .call .special ⟨"java/util/Random", "<init>", "()V"⟩ (some (.ref 9)) [],
          .call .virtual ⟨"java/util/Random", "nextInt", "(I)I"⟩ (some (.ref 9)) [.int 4],
          .putElement (.ref 8) (.int 1) (.int 4), .putField ⟨"Box", "size", "I"⟩ (.ref 7) (.int 1)] ∧
        Returns pickOracle pickOut.body ⟨0, ⟨[], pickSlots⟩, pickWorld⟩ (some (.int 1)) w := by
  have hself : ∀ s ∈ pickMethod.steps,
      Usable ⟨pickClass, pickMethod, pickTable⟩ s.instr.operands := by
    intro s hs
    refine ⟨fun h => absurd h (by decide), ?_⟩
    revert s hs
    decide
  obtain ⟨_, blocks, σ, _, hbody, _, hrun⟩ := emit_preserves_meaning pickMethod.toHeader pickCode
    pickMethod assemble_pick (by decide) (by decide) pickClass named_pick pickTable hself
    separates_pickTable pickOut emit_pick pickOracle
  have hreturns := hrun 8 pickCells pickSlots pickWorld mirrors_pick ready_pick
  obtain ⟨init, next, size, memory, hinit, hnext, hsize, hstop⟩ := run_pick
  rw [hstop] at hreturns
  rw [hbody]
  refine ⟨assemble_pick, emit_pick, _, ?_, hreturns⟩
  have hcls : (linkage pickClass).cls "Random" = "java/util/Random" := by decide +kernel
  obtain rfl : ⟨"java/util/Random", "<init>", "()V"⟩ = init :=
    Option.some.inj (Eq.trans (by decide +kernel) hinit)
  obtain rfl : ⟨"java/util/Random", "nextInt", "(I)I"⟩ = next :=
    Option.some.inj (Eq.trans (by decide +kernel) hnext)
  obtain rfl : ⟨"Box", "size", "I"⟩ = size := Option.some.inj (Eq.trans (by decide +kernel) hsize)
  rw [hcls]

end JavaMinus.Assembly
