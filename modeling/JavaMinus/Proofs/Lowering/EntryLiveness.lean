import JavaMinus.Proofs.Assembly.SlotSafety

/-!
# Names read at the start of a method

What can be read before it is assigned in lowered code. Such a name is live at the first instruction, so
it is declared, and a read of it means the variable or the parameter: a field is never read by its name.
On every path to a read of any other name, an earlier instruction assigns it.
-/

namespace JavaMinus.Lowering

open JavaMinus.Flat (Step)
open JavaMinus.Source (CompilationUnit SymbolTable)

section Entry

variable {symbols : SymbolTable} {m : Flat.Method} {first : Step} {v : String}

theorem Sourced.nodup_ids (h : Sourced symbols m) : (m.steps.map (·.id)).Nodup := by
  obtain ⟨_, _, hm, _⟩ := h.source
  exact Flat.Method.nodup_ids hm

theorem Sourced.first_id (h : Sourced symbols m) (hfirst : m.steps.head? = some first) :
    first.id = 1 := by
  obtain ⟨_, _, hm, _⟩ := h.source
  rw [List.head?_eq_getElem?] at hfirst
  exact Flat.Method.id_of_assemble hm hfirst

/-- What is live at the start is read somewhere, and a name that is read is a variable, a parameter or a
temporary. Temporaries are not declared, so they are not live there. -/
theorem Sourced.variable_of_live (h : Sourced symbols m) (hlive : LiveFrom m.steps 1 v) :
    HasLocal symbols m.name v ∨ v ∈ m.params.map (·.name) := by
  obtain ⟨s, hs, hread⟩ := hlive.mem_reads
  obtain ⟨op, hop, hname⟩ := Flat.Instr.reads_operands hread
  rcases h.origin s hs op hop v hname with hlocal | hparam | ⟨hfree, _⟩
  · exact .inl hlocal
  · exact .inr hparam
  · rw [h.live v hlive] at hfree
    cases hfree

theorem Sourced.assigned_on_walk (h : Sourced symbols m) (hfirst : m.steps.head? = some first)
    {passed : List Step} {last : Step} (hwalk : Walk m.steps first passed last)
    (hread : v ∈ last.instr.reads) (hv : v ∉ symbols.declaredNames m.name) :
    ∃ p ∈ passed, p.instr.defines? = some v := by
  by_contra hnone
  have hpassed : ∀ p ∈ passed, p.instr.defines? ≠ some v :=
    fun p hp hdef => hnone ⟨p, hp, hdef⟩
  have hlive : LiveFrom m.steps first.id v :=
    (liveFrom_iff_walk h.nodup_ids hwalk.start_mem).mpr ⟨passed, last, hwalk, hread, hpassed⟩
  rw [h.first_id hfirst] at hlive
  exact hv (mem_declaredNames (h.live v hlive))

end Entry

/-- Temporaries are assigned before they are read. On every path from the first instruction of a lowered
method to one that reads a name which is not declared, an earlier instruction defines the name. What the
analysis finds live at the first instruction are local variables and parameters of the method. -/
theorem lowerUnit_assigned_before_read (u : CompilationUnit) (cls : Flat.Class)
    (h : lowerUnit u = .ok cls) (m : Flat.Method) (hm : m ∈ cls.methods) (first : Step)
    (hfirst : m.steps.head? = some first) :
    (∀ passed last v, Walk m.steps first passed last → v ∈ last.instr.reads →
      v ∉ u.symbols.declaredNames m.name → ∃ p ∈ passed, p.instr.defines? = some v) ∧
    ∃ r, (Liveness.analyze m).row? first.id = some r ∧
      ∀ v ∈ r.liveIn, HasLocal u.symbols m.name v ∨ v ∈ m.params.map (·.name) := by
  have hsourced : Sourced u.symbols m := (lowersClass_of_lowerUnit h).sourced hm
  constructor
  · intro passed last v hwalk hread hv
    exact hsourced.assigned_on_walk hfirst hwalk hread hv
  · obtain ⟨r, hr⟩ := Liveness.row_of_analyze hsourced.nodup_ids (List.mem_of_head? hfirst)
    refine ⟨r, hr.row, fun v hv => hsourced.variable_of_live ?_⟩
    rw [← hsourced.first_id hfirst, ← Liveness.mem_liveInAt_iff hsourced.nodup_ids,
      Liveness.liveInAt_eq hr.row]
    exact hv

/-- `boolean between(int a, int b) { return a < b && b < 10; }` -/
def betweenUnit : CompilationUnit where
  program.cls.name := "Range"
  program.cls.methods := [
    { name := "between", access := .pub
      body := [.ret {} (some (.binary {} .and
        (.binary {} .lt (.ident {} "a") (.ident {} "b"))
        (.binary {} .lt (.ident {} "b") (.intLit {} 10))))] }]
  symbols.className := "Range"
  symbols.methods := [
    { name := "between", returnType := { name := "boolean" }
      parameters := [{ name := "a", type := { name := "int" } },
        { name := "b", type := { name := "int" } }] }]

def betweenMethod : Flat.Method where
  name := "between"
  access := .pub
  params := [{ name := "a", ty := .int }, { name := "b", ty := .int }]
  returnType := .bool
  steps := [
    { id := 1, succs := [2],
      instr := .assignTo (.var "t1" .bool) (.binary .lt (.param 1 "a" .int) (.param 2 "b" .int)) },
    { id := 2, succs := [3], instr := .assignTo (.var "t2" .bool) (.single (.var "t1" .bool)) },
    { id := 3, succs := [6, 4], instr := .branch (.not (.var "t2" .bool)) "and_end_0" },
    { id := 4, succs := [5],
      instr := .assignTo (.var "t3" .bool) (.binary .lt (.param 2 "b" .int) (.int 10)) },
    { id := 5, succs := [6], instr := .assignTo (.var "t2" .bool) (.single (.var "t3" .bool)) },
    { id := 6, labels := ["and_end_0"], instr := .ret (some (.var "t2" .bool)) }]

/-- The path that skips the right operand reads the result of the conjunction too. -/
theorem lowerUnit_assigned_before_read_between :
    ∃ cls, lowerUnit betweenUnit = .ok cls ∧ betweenMethod ∈ cls.methods ∧
      (∃ passed, Walk betweenMethod.steps betweenMethod.steps[0] passed betweenMethod.steps[5] ∧
        betweenMethod.steps[3] ∉ passed ∧ ∃ p ∈ passed, p.instr.defines? = some "t2") ∧
      ∃ r, (Liveness.analyze betweenMethod).row? 1 = some r ∧
        ∀ v ∈ r.liveIn, v ∈ ["a", "b"] := by
  have hlowered : (lowerUnit betweenUnit).toOption.bind (·.methods[1]?) = some betweenMethod := by
    decide +kernel
  cases hcls : lowerUnit betweenUnit with
  | error e => simp [hcls, Except.toOption] at hlowered
  | ok cls =>
    rw [hcls] at hlowered
    have hm : betweenMethod ∈ cls.methods := List.mem_of_getElem? hlowered
    obtain ⟨hpaths, r, hr, hlive⟩ :=
      lowerUnit_assigned_before_read betweenUnit cls hcls betweenMethod hm _ rfl
    have hwalk : Walk betweenMethod.steps betweenMethod.steps[0]
        [betweenMethod.steps[0], betweenMethod.steps[1], betweenMethod.steps[2]]
        betweenMethod.steps[5] :=
      .step (by decide) (by decide) (.step (by decide) (by decide)
        (.step (by decide) (by decide) (.stay (by decide))))
    refine ⟨cls, rfl, hm, ⟨_, hwalk, by decide, hpaths _ _ "t2" hwalk (by decide) (by decide)⟩,
      r, hr, fun v hv => ?_⟩
    rcases hlive v hv with ⟨symbols, hsymbols, hlocal⟩ | hparam
    · obtain rfl := Option.some.inj hsymbols
      cases hlocal
    · exact hparam

end JavaMinus.Lowering
