import JavaMinus.Proofs.Assembly.Renaming
import JavaMinus.Proofs.Compilation
import JavaMinus.Proofs.Lowering.Renaming
import JavaMinus.Proofs.Lowering.Shapes
import JavaMinus.Proofs.Slots.Renaming

/-!
# The order of methods

The methods of a class are lowered one after the other, and the counters of temporaries and labels go on
from one to the next. So the order of the methods decides these numbers, and it decides nothing else:
in another order each method is compiled to the same code with other numbers, and its variables keep
their slots.
-/

namespace JavaMinus

open JavaMinus.Flat (Renaming bind_eq_ok pure_eq_ok guard_ok forall₂_append_left)
open JavaMinus.Source (CompilationUnit Program SymbolTable)

namespace Source

def Program.withMethods (program : Program) (decls : List Method) : Program :=
  { program with cls := { program.cls with methods := decls } }

/-- The unit with other methods in its class declaration. The symbol table stays. -/
def CompilationUnit.withMethods (u : CompilationUnit) (decls : List Method) : CompilationUnit :=
  { u with program := u.program.withMethods decls }

end Source

/-! ### Lowering -/

namespace Lowering

/-- Some run of lowering makes the method from this declaration. -/
def LoweredFrom (symbols : SymbolTable) (decl : Source.Method) (m : Flat.Method) : Prop :=
  ∃ f f', Yields (lowerMethod { symbols } decl) f m f'

/-- New numbers that leave the names declared in a method alone. -/
def KeepsDeclared (symbols : SymbolTable) (decl : Source.Method) (ν : Renumbering) : Prop :=
  ∀ x, symbols.isDeclared decl.name x = true → ν.names.name x = x

section Methods

variable {symbols : SymbolTable} {decl : Source.Method} {decls decls' : List Source.Method}
  {m m' : Flat.Method} {ms : List Flat.Method} {f f' : Fresh}

theorem LoweredFrom.renumbered (h : LoweredFrom symbols decl m) (h' : LoweredFrom symbols decl m') :
    ∃ ν : Renumbering, KeepsDeclared symbols decl ν ∧ m' = m.rename ν.names := by
  obtain ⟨f, f', hm⟩ := h
  obtain ⟨g, g', hm'⟩ := h'
  obtain ⟨ν, g₁, hspare, hrenamed⟩ := lowerMethod_renumbered hm g
  have heq : (Except.ok m', g') = (Except.ok (m.rename ν.names), g₁) := hm'.symm.trans hrenamed
  refine ⟨ν, fun x hx => (hspare .void).name hx, ?_⟩
  exact Except.ok.inj (congrArg Prod.fst heq)

theorem loweredFrom_of_yields (h : Yields (decls.mapM (lowerMethod { symbols })) f ms f') :
    List.Forall₂ (LoweredFrom symbols) decls ms := by
  induction decls generalizing f ms f' with
  | nil =>
    obtain ⟨rfl, _⟩ := yields_pure.mp h
    exact .nil
  | cons decl decls ih =>
    rw [List.mapM_cons] at h
    obtain ⟨m, f₁, hm, h⟩ := yields_bind.mp h
    obtain ⟨rest, f₂, hrest, h⟩ := yields_bind.mp h
    obtain ⟨rfl, _⟩ := yields_pure.mp h
    exact .cons ⟨f, f₁, hm⟩ (ih hrest)

theorem countP_isConstructor (h : List.Forall₂ (LoweredFrom symbols) decls ms) :
    ms.countP (·.isConstructor) = decls.countP (·.isConstructor) := by
  induction h with
  | nil => rfl
  | cons hm _ ih =>
    obtain ⟨f, f', hm⟩ := hm
    rw [List.countP_cons, List.countP_cons, ih, (lowersMethod_of_yields hm).isConstructor]

/-- Methods that can be lowered one by one can be lowered together, wherever the counters start. -/
theorem yields_of_loweredFrom (h : ∀ decl ∈ decls, ∃ m, LoweredFrom symbols decl m) (g : Fresh) :
    ∃ ms g', Yields (decls.mapM (lowerMethod { symbols })) g ms g' := by
  induction decls generalizing g with
  | nil => exact ⟨[], g, yields_pure.mpr ⟨rfl, rfl⟩⟩
  | cons decl decls ih =>
    rw [List.forall_mem_cons] at h
    obtain ⟨⟨m, f, f', hm⟩, hrest⟩ := h
    obtain ⟨ν, g₁, _, hm'⟩ := lowerMethod_renumbered hm g
    obtain ⟨ms, g', hms⟩ := ih hrest g₁
    refine ⟨m.rename ν.names :: ms, g', ?_⟩
    rw [List.mapM_cons]
    exact yields_bind.mpr ⟨_, g₁, hm', yields_bind.mpr ⟨ms, g', hms, yields_pure.mpr ⟨rfl, rfl⟩⟩⟩

theorem lowerMethods_reordered {methods : List Flat.Method}
    (h : Yields (lowerMethods { symbols } decls) f methods f') (hperm : decls'.Perm decls) :
    ∃ extra ms ms' g', methods = extra ++ ms ∧
      Yields (lowerMethods { symbols } decls') f (extra ++ ms') g' ∧
      (∀ m ∈ extra, defaultConstructor { symbols } = .ok m) ∧
      List.Forall₂ (LoweredFrom symbols) decls ms ∧ List.Forall₂ (LoweredFrom symbols) decls' ms' := by
  unfold lowerMethods at h
  obtain ⟨ms, f₁, hms, h⟩ := yields_bind.mp h
  have hall := loweredFrom_of_yields hms
  have heach : ∀ decl ∈ decls', ∃ m, LoweredFrom symbols decl m := by
    intro decl hdecl
    obtain ⟨k, hk⟩ := List.mem_iff_getElem?.mp (hperm.mem_iff.mp hdecl)
    obtain ⟨m, _, hm⟩ := exists_getElem?_of_forall₂ hall hk
    exact ⟨m, hm⟩
  obtain ⟨ms', g', hms'⟩ := yields_of_loweredFrom heach f
  have hall' := loweredFrom_of_yields hms'
  have hany : (decls'.any fun d => d.isConstructor) = decls.any fun d => d.isConstructor :=
    hperm.any_eq
  unfold lowerMethods
  rw [hany]
  rcases yields_ite.mp h with ⟨hctor, h⟩ | ⟨hctor, h⟩
  · obtain ⟨rfl, _⟩ := yields_pure.mp h
    refine ⟨[], methods, ms', g', rfl, ?_, by simp, hall, hall'⟩
    refine yields_bind.mpr ⟨ms', g', hms', yields_ite.mpr (.inl ⟨hctor, ?_⟩)⟩
    exact yields_pure.mpr ⟨rfl, rfl⟩
  · obtain ⟨m, f₂, hm, h⟩ := yields_bind.mp h
    obtain ⟨hm, _⟩ := yields_lift.mp hm
    obtain ⟨rfl, _⟩ := yields_pure.mp h
    refine ⟨[m], ms, ms', g', rfl, ?_, by simpa using hm, hall, hall'⟩
    refine yields_bind.mpr ⟨ms', g', hms', yields_ite.mpr (.inr ⟨hctor, ?_⟩)⟩
    exact yields_bind.mpr ⟨m, g', yields_lift.mpr ⟨hm, rfl⟩, yields_pure.mpr ⟨rfl, rfl⟩⟩

end Methods

theorem lowerProgram_reordered {program : Program} {symbols : SymbolTable} {cls : Flat.Class}
    {decls : List Source.Method} (h : lowerProgram program symbols = .ok cls)
    (hperm : decls.Perm program.cls.methods) :
    ∃ extra ms ms', cls.methods = extra ++ ms ∧
      lowerProgram (program.withMethods decls) symbols = .ok { cls with methods := extra ++ ms' } ∧
      (∀ m ∈ extra, defaultConstructor { symbols } = .ok m) ∧
      List.Forall₂ (LoweredFrom symbols) program.cls.methods ms ∧
      List.Forall₂ (LoweredFrom symbols) decls ms' := by
  unfold lowerProgram at h
  obtain ⟨hsingle, h⟩ := guard_ok h
  obtain ⟨fields, hfields, h⟩ := bind_eq_ok.mp h
  obtain ⟨methods, hmethods, h⟩ := bind_eq_ok.mp h
  obtain rfl := pure_eq_ok.mp h
  have hyields : Yields (lowerMethods { symbols } program.cls.methods) {} methods _ :=
    Prod.ext hmethods rfl
  obtain ⟨extra, ms, ms', g', rfl, hyields', hextra, hall, hall'⟩ :=
    lowerMethods_reordered hyields hperm
  refine ⟨extra, ms, ms', rfl, ?_, hextra, hall, hall'⟩
  have hsingle' : ¬ (decls.countP fun m => m.isConstructor) > 1 := by
    rw [hperm.countP_eq]
    exact hsingle
  have hmethods' : ((lowerMethods { symbols } decls).run {}).1 = .ok (extra ++ ms') :=
    congrArg Prod.fst hyields'
  unfold lowerProgram
  refine (if_neg hsingle').trans ?_
  exact bind_eq_ok.mpr ⟨fields, hfields, bind_eq_ok.mpr ⟨_, hmethods', rfl⟩⟩

end Lowering

/-! ### Methods with other numbers -/

section Methods

open Lowering (LoweredFrom KeepsDeclared Renumbering places placeLabel)

variable {symbols : SymbolTable} {decl : Source.Method} {m m' : Flat.Method} {cls : Flat.Class}
  {limit : Option Nat} {out : Assembly.Method}

theorem keepsFixed_of_keepsDeclared (hm : LoweredFrom symbols decl m) {ν : Renumbering}
    (hkeep : KeepsDeclared symbols decl ν) : SlotTable.KeepsFixed ν.names m := by
  obtain ⟨f, f', hm⟩ := hm
  refine ⟨ν.name_other fun n hn => Lowering.tempName_ne_this n hn.symm, fun p hp => ?_⟩
  cases Lowering.lowersMethod_of_yields hm with
  | method _ _ hparams _ hm =>
    rw [(Flat.Method.steps_of_assemble hm).1] at hp
    have hdeclared := (Lowering.methodParams_names hparams p.name).mp (List.mem_map_of_mem hp)
    exact hkeep p.name (Lowering.isDeclared_of_hasParam hdeclared)

theorem label_compare (ν : Renumbering) {base : String} (hbase : base ∉ places) (n : Nat) :
    ν.names.label (placeLabel base n) = placeLabel base n := by
  refine ν.label_other fun p hp k heq => hbase ?_
  rw [(Lowering.placeLabel_inj heq).1]
  exact hp

/-- A method compiled twice: the same flat code but for the numbers of temporaries and labels, the same
slots, and the same assembly but for labels. -/
structure Renumbered (symbols : SymbolTable) (decl : Source.Method) (limit : Option Nat)
    (ν : Renumbering) (m m' : Flat.Method) (out out' : Assembly.Method) : Prop where
  declared : KeepsDeclared symbols decl ν
  flat : m' = m.rename ν.names
  slots : ∃ table table', SlotTable.forMethod m limit = .ok table ∧
    SlotTable.forMethod m' limit = .ok table' ∧ SlotTable.SameSlots ν.names.name table table'
  assembly : out' = out.relabel ν.names.label

theorem methodAssembly_renumbered (hm : LoweredFrom symbols decl m)
    (hm' : LoweredFrom symbols decl m') (hout : methodAssembly cls limit m = .ok out)
    (methods : List Flat.Method) :
    ∃ ν out', Renumbered symbols decl limit ν m m' out out' ∧
      methodAssembly { cls with methods } limit m' = .ok out' := by
  obtain ⟨ν, hkeep, rfl⟩ := hm.renumbered hm'
  obtain ⟨table, htable, hemit⟩ := bind_eq_ok.mp hout
  have hids : (m.steps.map (·.id)).Nodup := by
    obtain ⟨f, f', hm⟩ := hm
    cases Lowering.lowersMethod_of_yields hm with
    | method _ _ _ _ hm => exact Flat.Method.nodup_ids hm
  obtain ⟨table', htable', hsame⟩ :=
    SlotTable.forMethod_rename (keepsFixed_of_keepsDeclared hm hkeep) hids htable
  have hframe : Assembly.Frame.Renamed ν.names ⟨cls, m, table⟩
      ⟨{ cls with methods }, m.rename ν.names, table'⟩ :=
    ⟨rfl, rfl, rfl, rfl, hsame.get?, label_compare ν (by decide), label_compare ν (by decide)⟩
  refine ⟨ν, _, ⟨hkeep, rfl, ⟨table, table', htable, htable', hsame⟩, rfl⟩, ?_⟩
  exact bind_eq_ok.mpr ⟨table', htable', Assembly.emit_rename hframe hsame.limit hemit⟩

theorem exists_assembly_renumbered {decls : List Source.Method} {ms' : List Flat.Method}
    (h : List.Forall₂ (LoweredFrom symbols) decls ms')
    (heach : ∀ decl ∈ decls, ∃ m out, LoweredFrom symbols decl m ∧
      methodAssembly cls limit m = .ok out) (methods : List Flat.Method) :
    ∃ outs, List.Forall₂
      (fun m out => methodAssembly { cls with methods } limit m = .ok out) ms' outs := by
  induction h with
  | nil => exact ⟨[], .nil⟩
  | cons hm' _ ih =>
    rw [List.forall_mem_cons] at heach
    obtain ⟨⟨m, out, hm, hout⟩, hrest⟩ := heach
    obtain ⟨_, out', _, hout'⟩ := methodAssembly_renumbered hm hm' hout methods
    obtain ⟨outs, houts⟩ := ih hrest
    exact ⟨out' :: outs, .cons hout' houts⟩

/-- The constructor that is added has no names that could change. -/
theorem methodAssembly_added (hm : Lowering.defaultConstructor { symbols } = .ok m)
    (hout : methodAssembly cls limit m = .ok out) (methods : List Flat.Method) :
    methodAssembly { cls with methods } limit m = .ok out := by
  obtain ⟨table, htable, hemit⟩ := bind_eq_ok.mp hout
  let ρ : Renaming := ⟨Equiv.refl String, Equiv.refl String⟩
  have hrename : m.rename ρ = m :=
    Except.ok.inj ((Flat.Method.assemble_rename ρ hm).symm.trans hm)
  have hframe : Assembly.Frame.Renamed ρ ⟨cls, m, table⟩ ⟨{ cls with methods }, m.rename ρ, table⟩ :=
    ⟨rfl, rfl, rfl, rfl, fun _ => rfl, fun _ => rfl, fun _ => rfl⟩
  have hemit' := Assembly.emit_rename hframe rfl hemit
  rw [hrename] at hemit'
  have hsame : out.relabel ρ.label = out := Assembly.Method.relabel_id out
  rw [hsame] at hemit'
  exact bind_eq_ok.mpr ⟨table, htable, hemit'⟩

end Methods

/-! ### Classes -/

/-- A unit is compiled to these texts by way of this flat class and its assembly. -/
structure Builds (u : CompilationUnit) (limit : Option Nat) (a : Artifacts) (cls : Flat.Class)
    (asm : Assembly.Class) : Prop where
  compiled : compileUnit u limit = .ok a
  lowered : lowerUnit u = .ok cls
  assembled : unitAssembly u limit = .ok asm
  texts : a = { className := cls.name, flat := cls.text, assembly := asm.text }

theorem builds_of_stages {u : CompilationUnit} {limit : Option Nat} {cls : Flat.Class}
    {asm : Assembly.Class} (hcls : lowerUnit u = .ok cls)
    (hasm : (slotTables cls limit >>= Assembly.Class.emit cls) = .ok asm) :
    Builds u limit { className := cls.name, flat := cls.text, assembly := asm.text } cls asm := by
  obtain ⟨tables, htables, hemit⟩ := bind_eq_ok.mp hasm
  refine ⟨?_, hcls, bind_eq_ok.mpr ⟨cls, hcls, hasm⟩, rfl⟩
  exact bind_eq_ok.mpr ⟨cls, hcls, bind_eq_ok.mpr ⟨tables, htables, bind_eq_ok.mpr ⟨asm, hemit, rfl⟩⟩⟩

theorem checkConstructors_withMethods {cls : Flat.Class} {methods : List Flat.Method}
    (hcount : Flat.Class.constructorCount { cls with methods } = cls.constructorCount) :
    Flat.Class.checkConstructors { cls with methods } = cls.checkConstructors := by
  rw [Flat.Class.checkConstructors, Flat.Class.checkConstructors, hcount]

theorem lowerUnit_reordered {u : CompilationUnit} {cls : Flat.Class} {decls : List Source.Method}
    (h : lowerUnit u = .ok cls) (hperm : decls.Perm u.program.cls.methods) :
    ∃ extra ms ms', cls.methods = extra ++ ms ∧
      lowerUnit (u.withMethods decls) = .ok { cls with methods := extra ++ ms' } ∧
      Flat.Class.constructorCount { cls with methods := extra ++ ms' } = cls.constructorCount ∧
      (∀ m ∈ extra, Lowering.defaultConstructor { symbols := u.symbols } = .ok m) ∧
      List.Forall₂ (Lowering.LoweredFrom u.symbols) u.program.cls.methods ms ∧
      List.Forall₂ (Lowering.LoweredFrom u.symbols) decls ms' := by
  unfold lowerUnit at h
  obtain ⟨herrors, h⟩ := guard_ok h
  obtain ⟨cls', hcls, h⟩ := bind_eq_ok.mp h
  obtain ⟨_, hsingle, h⟩ := bind_eq_ok.mp h
  obtain rfl := pure_eq_ok.mp h
  obtain ⟨extra, ms, ms', hmethods, hcls', hextra, hall, hall'⟩ :=
    Lowering.lowerProgram_reordered hcls hperm
  have hcount : Flat.Class.constructorCount { cls' with methods := extra ++ ms' } =
      cls'.constructorCount := by
    rw [Flat.Class.constructorCount, Flat.Class.constructorCount, hmethods, List.countP_append,
      List.countP_append, Lowering.countP_isConstructor hall, Lowering.countP_isConstructor hall',
      hperm.countP_eq]
  refine ⟨extra, ms, ms', hmethods, ?_, hcount, hextra, hall, hall'⟩
  have hsingle' := (checkConstructors_withMethods hcount).trans hsingle
  unfold lowerUnit
  refine (if_neg herrors).trans ?_
  exact bind_eq_ok.mpr ⟨_, hcls', bind_eq_ok.mpr ⟨(), hsingle', rfl⟩⟩

theorem added_of_forall₂ {symbols : SymbolTable} {cls : Flat.Class} {limit : Option Nat}
    {extra methods : List Flat.Method} {added : List Assembly.Method}
    (hextra : ∀ m ∈ extra, Lowering.defaultConstructor { symbols } = .ok m)
    (h : List.Forall₂ (fun m out => methodAssembly cls limit m = .ok out) extra added) :
    List.Forall₂ (fun m out => methodAssembly { cls with methods } limit m = .ok out) extra added := by
  induction h with
  | nil => exact .nil
  | cons hout _ ih =>
    rw [List.forall_mem_cons] at hextra
    exact .cons (methodAssembly_added hextra.1 hout methods) (ih hextra.2)

theorem assembly_withMethods {cls : Flat.Class} {limit : Option Nat} {methods : List Flat.Method}
    {fields : List Assembly.FieldLine} {outs' : List Assembly.Method}
    (hsingle : cls.checkConstructors = .ok ())
    (hfields : cls.fields.mapM (Assembly.Class.emitField cls.imports) = .ok fields)
    (hcount : Flat.Class.constructorCount { cls with methods } = cls.constructorCount)
    (houts' : List.Forall₂ (fun m out => methodAssembly { cls with methods } limit m = .ok out)
      methods outs') (outs : List Assembly.Method) :
    (slotTables { cls with methods } limit >>= Assembly.Class.emit { cls with methods }) =
      .ok { assembledClass cls fields outs with methods := outs' } := by
  refine classAssembly_eq_ok.mpr
    ⟨(checkConstructors_withMethods hcount).trans hsingle, fields, outs', hfields, ?_, houts'⟩
  rw [assembledClass, assembledClass, hcount]

/-- The order of methods does not matter. In any other order the unit is compiled too. The class is the
same and starts with the same added constructor, and each declared method, wherever it stands, becomes
what it was before with other numbers for temporaries and labels. -/
theorem compileUnit_method_order (u : CompilationUnit) (decls : List Source.Method)
    (hperm : decls.Perm u.program.cls.methods) (limit : Option Nat) (a : Artifacts)
    (h : compileUnit u limit = .ok a) :
    ∃ (a' : Artifacts) (cls : Flat.Class) (asm : Assembly.Class) (extra ms ms' : List Flat.Method)
      (added outs outs' : List Assembly.Method),
      Builds u limit a cls asm ∧
      Builds (u.withMethods decls) limit a' { cls with methods := extra ++ ms' }
        { asm with methods := added ++ outs' } ∧
      cls.methods = extra ++ ms ∧ asm.methods = added ++ outs ∧
      added.length = extra.length ∧ ms.length = decls.length ∧ outs.length = decls.length ∧
      ms'.length = decls.length ∧ outs'.length = decls.length ∧
      ∀ (i j : Nat) (decl : Source.Method), u.program.cls.methods[i]? = some decl →
        decls[j]? = some decl →
        ∃ m m' out out' ν, ms[i]? = some m ∧ outs[i]? = some out ∧ ms'[j]? = some m' ∧
          outs'[j]? = some out' ∧ Renumbered u.symbols decl limit ν m m' out out' := by
  obtain ⟨cls, hcls, h⟩ := bind_eq_ok.mp h
  obtain ⟨tables, htables, h⟩ := bind_eq_ok.mp h
  obtain ⟨asm, hemit, h⟩ := bind_eq_ok.mp h
  obtain rfl := pure_eq_ok.mp h
  have hasm : (slotTables cls limit >>= Assembly.Class.emit cls) = .ok asm :=
    bind_eq_ok.mpr ⟨tables, htables, hemit⟩
  obtain ⟨hsingle, fields, all, hfields, rfl, hall⟩ := classAssembly_eq_ok.mp hasm
  obtain ⟨extra, ms, ms', hmethods, hcls', hcount, hextra, hms, hms'⟩ :=
    lowerUnit_reordered hcls hperm
  rw [hmethods] at hall
  obtain ⟨added, outs, rfl, hadded, houts⟩ := forall₂_append_left hall
  have heach : ∀ decl ∈ decls, ∃ m out, Lowering.LoweredFrom u.symbols decl m ∧
      methodAssembly cls limit m = .ok out := by
    intro decl hdecl
    obtain ⟨k, hk⟩ := List.mem_iff_getElem?.mp (hperm.mem_iff.mp hdecl)
    obtain ⟨m, hget, hm⟩ := exists_getElem?_of_forall₂ hms hk
    obtain ⟨out, _, hout⟩ := exists_getElem?_of_forall₂ houts hget
    exact ⟨m, out, hm, hout⟩
  obtain ⟨outs', houts'⟩ := exists_assembly_renumbered hms' heach (extra ++ ms')
  have hall' := List.rel_append (added_of_forall₂ hextra hadded) houts'
  have hasm' := assembly_withMethods hsingle hfields hcount hall' (added ++ outs)
  refine ⟨_, cls, _, extra, ms, ms', added, outs, outs', builds_of_stages hcls hasm,
    builds_of_stages hcls' hasm', hmethods, rfl, hadded.length_eq.symm, ?_, ?_, ?_, ?_, ?_⟩
  · rw [← hms.length_eq, hperm.length_eq]
  · rw [← houts.length_eq, ← hms.length_eq, hperm.length_eq]
  · exact hms'.length_eq.symm
  · rw [← houts'.length_eq, hms'.length_eq]
  · intro i j decl hi hj
    obtain ⟨m, hget, hm⟩ := exists_getElem?_of_forall₂ hms hi
    obtain ⟨out, hgetOut, hout⟩ := exists_getElem?_of_forall₂ houts hget
    obtain ⟨m', hget', hm'⟩ := exists_getElem?_of_forall₂ hms' hj
    obtain ⟨out', hgetOut', hout'⟩ := exists_getElem?_of_forall₂ houts' hget'
    obtain ⟨ν, out₁, hν, hout₁⟩ := methodAssembly_renumbered hm hm' hout (extra ++ ms')
    obtain rfl := Except.ok.inj (hout₁.symm.trans hout')
    exact ⟨m, m', out, out₁, ν, hget, hgetOut, hget', hgetOut', hν⟩

/-- `int cap(int n) { if (n < 9) n = n * 2 + 1; return n; }` and
`boolean both(int n, boolean b) { b = 0 < n && b; return b; }` -/
def pairUnit : CompilationUnit where
  program.cls.name := "Pair"
  program.cls.methods := [
    { name := "cap", access := .pub
      body := [
        .branch {} (.binary {} .lt (.ident {} "n") (.intLit {} 9))
          (.assign {} "n"
            (.binary {} .add (.binary {} .mul (.ident {} "n") (.intLit {} 2)) (.intLit {} 1))) none,
        .ret {} (some (.ident {} "n"))] },
    { name := "both", access := .pub
      body := [
        .assign {} "b" (.binary {} .and (.binary {} .lt (.intLit {} 0) (.ident {} "n"))
          (.ident {} "b")),
        .ret {} (some (.ident {} "b"))] }]
  symbols.className := "Pair"
  symbols.methods := [
    { name := "cap", returnType := { name := "int" }
      parameters := [{ name := "n", type := { name := "int" } }] },
    { name := "both", returnType := { name := "boolean" }
      parameters := [{ name := "n", type := { name := "int" } },
        { name := "b", type := { name := "boolean" } }] }]

/-- The body of `both`, with the label that its operator has. -/
def bothBody (label : String) : List Assembly.Line := [
  .op (.const 0), .op (.load .int 1), .op (.ifCompare .lt "cmp_true_0"), .op (.const 0),
  .op (.goto "cmp_end_1"), .label "cmp_true_0", .op (.const 1), .label "cmp_end_1",
  .op (.store .int 3), .op (.load .int 3), .op (.store .int 3), .op (.load .int 3),
  .op (.ifZero label), .op (.load .int 2), .op (.store .int 3), .label label, .op (.load .int 3),
  .op (.store .int 2), .op (.load .int 2), .op (.retValue .int)]

/-- With the methods swapped the label has another number. -/
theorem compileUnit_method_order_pair :
    ∃ (a a' : Artifacts) (out out' : Assembly.Method) (ν : Lowering.Renumbering),
      compileUnit pairUnit (some 0) = .ok a ∧
      compileUnit (pairUnit.withMethods pairUnit.program.cls.methods.reverse) (some 0) = .ok a' ∧
      out.body = bothBody "and_end_1" ∧ out'.body = bothBody "and_end_0" ∧
      out' = out.relabel ν.names.label := by
  have hsome : (compileUnit pairUnit (some 0)).toOption.isSome = true := by decide +kernel
  have hbody : (unitAssembly pairUnit (some 0)).toOption.bind (·.methods[2]?.map (·.body)) =
      some (bothBody "and_end_1") := by
    decide +kernel
  have hbody' : (unitAssembly (pairUnit.withMethods pairUnit.program.cls.methods.reverse)
      (some 0)).toOption.bind (·.methods[1]?.map (·.body)) = some (bothBody "and_end_0") := by
    decide +kernel
  have hlength : (unitAssembly pairUnit (some 0)).toOption.map (·.methods.length) = some 3 := by
    decide +kernel
  cases ha : compileUnit pairUnit (some 0) with
  | error e => simp [ha, Except.toOption] at hsome
  | ok a =>
    obtain ⟨a', cls, asm, extra, ms, ms', added, outs, outs', hbuild, hbuild', _, hmethods, _, _, houts,
      _, _, hall⟩ := compileUnit_method_order pairUnit pairUnit.program.cls.methods.reverse
        (List.reverse_perm _) (some 0) a ha
    obtain ⟨m, m', out, out', ν, _, hout, _, hout', hν⟩ := hall 1 0 _ rfl rfl
    have hadded : added.length = 1 := by
      have hlen : asm.methods.length = 3 := by
        simpa [hbuild.assembled, Except.toOption] using hlength
      rw [hmethods, List.length_append, houts] at hlen
      exact Nat.add_right_cancel hlen
    have hget : asm.methods[2]? = some out := by
      rw [hmethods, List.getElem?_append_right (by omega), hadded]
      exact hout
    have hget' : (added ++ outs')[1]? = some out' := by
      rw [List.getElem?_append_right (by omega), hadded]
      exact hout'
    refine ⟨a, a', out, out', ν, rfl, hbuild'.compiled, ?_, ?_, hν.assembly⟩
    · simpa [hbuild.assembled, Except.toOption, hget] using hbody
    · simpa [hbuild'.assembled, Except.toOption, hget'] using hbody'

end JavaMinus
