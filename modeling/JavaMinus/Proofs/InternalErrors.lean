import JavaMinus.Proofs.Compilation
import JavaMinus.Proofs.Lowering.Failures

/-!
# Errors of compilation

A unit that cannot be compiled is at fault itself. The stages fit together: the code that lowering
builds has shapes that emission knows, every name in it has a slot, and there is a table for each
method. So none of the errors that a later stage keeps for badly built code ever comes out.
-/

namespace JavaMinus

open JavaMinus.Flat (bind_eq_ok pure_eq_ok bind_eq_error pure_ne_error error_of_mapM forall₂_of_mapM
  guard_ok)
open JavaMinus.Lowering (LowersClass lowerProgram_external)
open JavaMinus.Source (CompilationUnit)
open JavaMinus.Assembly (Held)

section Stages

variable {u : CompilationUnit} {cls : Flat.Class} {limit : Option Nat} {tables : List SlotTable}

theorem lowerUnit_external : External (lowerUnit u) := by
  unfold lowerUnit
  split
  · exact .throw_bind rfl
  · refine (lowerProgram_external _ _).bind fun cls _ => External.bind ?_ fun _ _ => .pure _
    unfold Flat.Class.checkConstructors
    split
    · exact .error rfl
    · exact .ok _

theorem checkConstructors_of_lowerUnit (h : lowerUnit u = .ok cls) :
    cls.checkConstructors = .ok () := by
  unfold lowerUnit at h
  obtain ⟨_, h⟩ := guard_ok h
  obtain ⟨cls', _, h⟩ := bind_eq_ok.mp h
  obtain ⟨⟨⟩, hcheck, h⟩ := bind_eq_ok.mp h
  obtain rfl := pure_eq_ok.mp h
  exact hcheck

theorem slotTables_external : External (slotTables cls limit) := by
  refine External.mapM fun m _ e he => ?_
  obtain ⟨needed, most, rfl⟩ := SlotTable.forMethod_error he
  rfl

/-- The names in a lowered method have slots in its table. -/
theorem held_of_lowersClass (h : LowersClass u.program u.symbols cls) {m : Flat.Method}
    (hm : m ∈ cls.methods) {table : SlotTable} (htable : SlotTable.forMethod m limit = .ok table)
    {s : Flat.Step} (hs : s ∈ m.steps) : Held ⟨cls, m, table⟩ s.instr.operands := by
  intro op hop name hname
  have hparams : ParamsNamed m := (h.shaped hm).2
  exact SlotTable.forMethod_defined htable (hparams.name_cases hs hop hname)

/-- Emission of a lowered class fails because something in it is not supported, and never for an
internal cause. -/
theorem emit_lowered_error {e : Error} (hcls : lowerUnit u = .ok cls)
    (htables : slotTables cls limit = .ok tables) (h : Assembly.Class.emit cls tables = .error e) :
    e.isUnsupported = true ∧ e.isInternal = false := by
  have hlowers := lowersClass_of_lowerUnit hcls
  have hall := forall₂_of_mapM htables
  unfold Assembly.Class.emit at h
  rw [checkConstructors_of_lowerUnit hcls] at h
  rcases bind_eq_error.mp h with hfail | ⟨_, _, h⟩
  · cases hfail
  rw [if_neg (not_not.mpr hall.length_eq.symm)] at h
  rcases bind_eq_error.mp h with hfields | ⟨_, _, h⟩
  · obtain ⟨field, _, hfield⟩ := error_of_mapM hfields
    rcases bind_eq_error.mp hfield with hdescriptor | ⟨_, _, hfield⟩
    · obtain ⟨name, rfl⟩ := Assembly.typeDescriptor_error hdescriptor
      exact ⟨rfl, rfl⟩
    · exact absurd hfield pure_ne_error
  rcases bind_eq_error.mp h with hmethods | ⟨_, _, h⟩
  · obtain ⟨⟨m, table⟩, hmem, hm⟩ := error_of_mapM hmethods
    have htable : SlotTable.forMethod m limit = .ok table := List.forall₂_zip hall hmem
    have hmethod : m ∈ cls.methods := (List.of_mem_zip hmem).1
    obtain ⟨hunsupported, hexternal⟩ := Assembly.emit_error hm
    refine ⟨hunsupported, hexternal fun s hs => ⟨(hlowers.shaped hmethod).1 s hs, ?_⟩⟩
    exact held_of_lowersClass hlowers hmethod htable hs
  · exact absurd h pure_ne_error

end Stages

/-- Compilation never ends in an internal error, whatever the unit and the limit. Once a unit has
been lowered, its constructors are not found to be too many any more. -/
theorem compileUnit_error_external (u : CompilationUnit) (limit : Option Nat) :
    (∀ e, compileUnit u limit = .error e → e.isInternal = false) ∧
    ∀ cls tables e, lowerUnit u = .ok cls → slotTables cls limit = .ok tables →
      Assembly.Class.emit cls tables = .error e → ∀ name count, e ≠ .multipleConstructors name count := by
  constructor
  · refine lowerUnit_external.bind fun cls hcls => slotTables_external.bind fun tables htables => ?_
    refine External.bind (fun e he => ?_) fun _ _ => .pure _
    exact (emit_lowered_error hcls htables he).2
  · intro cls tables e hcls htables he name count
    rintro rfl
    exact Bool.false_ne_true (emit_lowered_error hcls htables he).1

/-- A local variable `i` hides the parameter `i` and is read only as an index, and the array is read
only through its element. The last statement calls a method on a number. -/
def indexUnit : CompilationUnit where
  program.cls :=
    { name := "Cell"
      methods :=
        [{ name := "pick"
           body :=
            [.assign {} "n" (.index {} (.ident {} "a") (.ident {} "i")),
              .expr {} (.call {} (.ident {} "n") "run" [])] }] }
  symbols :=
    { className := "Cell"
      methods :=
        [{ name := "pick", returnType := { name := "void" }
           parameters :=
            [{ name := "a", type := { name := "int", isArray := true } },
              { name := "i", type := { name := "boolean" } }]
           locals :=
            [{ name := "i", type := { name := "int" } }, { name := "n", type := { name := "int" } }] }] }

/-- The unit is lowered and has its slots, and what fails is the call on a number. -/
theorem compileUnit_error_external_index :
    compileUnit indexUnit (some 2) = .error (.unsupportedInstr (.noOwner .int)) ∧
      (Error.unsupportedInstr (.noOwner .int)).isInternal = false ∧
      ∃ cls tables, lowerUnit indexUnit = .ok cls ∧ slotTables cls (some 2) = .ok tables ∧
        Assembly.Class.emit cls tables = .error (.unsupportedInstr (.noOwner .int)) ∧
        ∀ name count, Error.unsupportedInstr (.noOwner .int) ≠ .multipleConstructors name count := by
  have hfail : compileUnit indexUnit (some 2) = .error (.unsupportedInstr (.noOwner .int)) := by
    decide +kernel
  have hstages : (do
      let cls ← lowerUnit indexUnit
      let tables ← slotTables cls (some 2)
      return Assembly.Class.emit cls tables) = .ok (.error (.unsupportedInstr (.noOwner .int))) := by
    decide +kernel
  obtain ⟨cls, hcls, hstages⟩ := bind_eq_ok.mp hstages
  obtain ⟨tables, htables, hstages⟩ := bind_eq_ok.mp hstages
  have hemit := pure_eq_ok.mp hstages
  obtain ⟨hexternal, hconstructors⟩ := compileUnit_error_external indexUnit (some 2)
  exact ⟨hfail, hexternal _ hfail, cls, tables, hcls, htables, hemit,
    hconstructors cls tables _ hcls htables hemit⟩

end JavaMinus
