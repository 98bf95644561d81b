import JavaMinus.Compile
import JavaMinus.Proofs.Lowering.ClassDerivation

/-!
# Stages of compilation

What a compilation that succeeds went through: the class, the slot tables of its methods and the
assembly of each method.
-/

namespace JavaMinus

open JavaMinus.Flat (bind_eq_ok pure_eq_ok guard_ok forall₂_of_mapM mapM_of_forall₂
  forall₂_append_left forall₂_compose)
open JavaMinus.Lowering (AddsConstructor LowersClass LowersMethod lowersClass_of_lowerProgram)
open JavaMinus.Source (CompilationUnit)

theorem lowerProgram_of_lowerUnit {u : CompilationUnit} {cls : Flat.Class}
    (h : lowerUnit u = .ok cls) : Lowering.lowerProgram u.program u.symbols = .ok cls := by
  unfold lowerUnit at h
  obtain ⟨_, h⟩ := guard_ok h
  obtain ⟨cls', hcls, h⟩ := bind_eq_ok.mp h
  obtain ⟨_, _, h⟩ := bind_eq_ok.mp h
  obtain rfl := pure_eq_ok.mp h
  exact hcls

theorem lowersClass_of_lowerUnit {u : CompilationUnit} {cls : Flat.Class}
    (h : lowerUnit u = .ok cls) : LowersClass u.program u.symbols cls :=
  lowersClass_of_lowerProgram (lowerProgram_of_lowerUnit h)

theorem forall₂_getElem? {α β : Type} {R : α → β → Prop} {as : List α} {bs : List β} {k : Nat} {a : α}
    {b : β} (h : List.Forall₂ R as bs) (ha : as[k]? = some a) (hb : bs[k]? = some b) : R a b := by
  obtain ⟨hk, rfl⟩ := List.getElem?_eq_some_iff.mp ha
  obtain ⟨hk', rfl⟩ := List.getElem?_eq_some_iff.mp hb
  exact h.get hk hk'

theorem exists_getElem?_of_forall₂ {α β : Type} {R : α → β → Prop} {as : List α} {bs : List β}
    {k : Nat} {a : α} (h : List.Forall₂ R as bs) (ha : as[k]? = some a) :
    ∃ b, bs[k]? = some b ∧ R a b := by
  obtain ⟨hk, rfl⟩ := List.getElem?_eq_some_iff.mp ha
  have hk' : k < bs.length := by
    rw [← h.length_eq]
    exact hk
  exact ⟨bs[k], List.getElem?_eq_getElem hk', h.get hk hk'⟩

theorem forall₂_of_zip {α β γ : Type} {R : α × β → γ → Prop} {as : List α} {bs : List β}
    {cs : List γ} (h : List.Forall₂ R (as.zip bs) cs) (hlen : bs.length = as.length) :
    List.Forall₂ (fun a c => ∃ b, R (a, b) c) as cs := by
  induction as generalizing bs cs with
  | nil =>
    cases h with
    | nil => exact .nil
  | cons a as ih =>
    cases bs with
    | nil => simp at hlen
    | cons b bs =>
      cases h with
      | cons hR hrest => exact .cons ⟨b, hR⟩ (ih hrest (by simpa using hlen))

structure EmitsClass (cls : Flat.Class) (asm : Assembly.Class) : Prop where
  single : cls.constructorCount ≤ 1
  addsConstructor : asm.addsConstructor = (cls.constructorCount == 0)
  methods : List.Forall₂ (fun m out => ∃ table, Assembly.Method.emit cls m table = .ok out)
    cls.methods asm.methods

/-- Each method is emitted with the table that stands at its place. -/
theorem emit_tables {cls : Flat.Class} {tables : List SlotTable} {asm : Assembly.Class}
    (h : Assembly.Class.emit cls tables = .ok asm) :
    tables.length = cls.methods.length ∧
      List.Forall₂ (fun p out => Assembly.Method.emit cls p.1 p.2 = .ok out)
        (cls.methods.zip tables) asm.methods := by
  unfold Assembly.Class.emit at h
  obtain ⟨_, _, h⟩ := bind_eq_ok.mp h
  obtain ⟨hlen, h⟩ := guard_ok h
  obtain ⟨fields, _, h⟩ := bind_eq_ok.mp h
  obtain ⟨methods, hmethods, h⟩ := bind_eq_ok.mp h
  obtain rfl := pure_eq_ok.mp h
  exact ⟨not_not.mp hlen, forall₂_of_mapM hmethods⟩

theorem emitsClass_of_emit {cls : Flat.Class} {tables : List SlotTable} {asm : Assembly.Class}
    (h : Assembly.Class.emit cls tables = .ok asm) : EmitsClass cls asm := by
  obtain ⟨hlen, hmethods⟩ := emit_tables h
  unfold Assembly.Class.emit at h
  obtain ⟨_, hsingle, h⟩ := bind_eq_ok.mp h
  obtain ⟨_, h⟩ := guard_ok h
  obtain ⟨fields, _, h⟩ := bind_eq_ok.mp h
  obtain ⟨methods, _, h⟩ := bind_eq_ok.mp h
  obtain rfl := pure_eq_ok.mp h
  refine ⟨?_, rfl, forall₂_of_zip hmethods hlen⟩
  unfold Flat.Class.checkConstructors at hsingle
  split at hsingle
  · simp at hsingle
  · omega

theorem mapM_zip_eq_ok {ε α β γ : Type} {f : α → Except ε β} {g : α → β → Except ε γ} {as : List α}
    {cs : List γ} :
    (∃ bs, as.mapM f = .ok bs ∧ (as.zip bs).mapM (fun p => g p.1 p.2) = .ok cs) ↔
      List.Forall₂ (fun a c => f a >>= g a = .ok c) as cs := by
  constructor
  · rintro ⟨bs, hbs, hcs⟩
    have hfirst := forall₂_of_mapM hbs
    have hsecond := forall₂_of_mapM hcs
    clear hbs hcs
    induction hfirst generalizing cs with
    | nil =>
      cases hsecond with
      | nil => exact .nil
    | cons ha _ ih =>
      cases hsecond with
      | cons hb hrest => exact .cons (bind_eq_ok.mpr ⟨_, ha, hb⟩) (ih hrest)
  · intro h
    induction h with
    | nil => exact ⟨[], rfl, rfl⟩
    | cons hc _ ih =>
      obtain ⟨b, hb, hc⟩ := bind_eq_ok.mp hc
      obtain ⟨bs, hbs, hcs⟩ := ih
      exact ⟨b :: bs, mapM_of_forall₂ (.cons hb (forall₂_of_mapM hbs)),
        mapM_of_forall₂ (.cons hc (forall₂_of_mapM hcs))⟩

/-- One method of a class, from its flat form to assembly. -/
def methodAssembly (cls : Flat.Class) (limit : Option Nat) (m : Flat.Method) :
    Except Error Assembly.Method := do
  let slots ← SlotTable.forMethod m limit
  Assembly.Method.emit cls m slots

/-- A class in assembly around given fields and methods. -/
def assembledClass (cls : Flat.Class) (fields : List Assembly.FieldLine)
    (methods : List Assembly.Method) : Assembly.Class where
  access := cls.access.keyword?.getD "public"
  name := cls.name
  superName := match cls.superClass with
    | some s => Assembly.resolveClass cls.imports s
    | none => "java/lang/Object"
  fields := fields
  addsConstructor := cls.constructorCount == 0
  methods := methods

/-- A class is assembled method by method. -/
theorem classAssembly_eq_ok {cls : Flat.Class} {limit : Option Nat} {asm : Assembly.Class} :
    (slotTables cls limit >>= Assembly.Class.emit cls) = .ok asm ↔
      cls.checkConstructors = .ok () ∧ ∃ fields outs,
        cls.fields.mapM (Assembly.Class.emitField cls.imports) = .ok fields ∧
        asm = assembledClass cls fields outs ∧
        List.Forall₂ (fun m out => methodAssembly cls limit m = .ok out) cls.methods outs := by
  constructor
  · intro h
    obtain ⟨tables, htables, h⟩ := bind_eq_ok.mp h
    unfold Assembly.Class.emit at h
    obtain ⟨_, hsingle, h⟩ := bind_eq_ok.mp h
    obtain ⟨_, h⟩ := guard_ok h
    obtain ⟨fields, hfields, h⟩ := bind_eq_ok.mp h
    obtain ⟨outs, houts, h⟩ := bind_eq_ok.mp h
    obtain rfl := pure_eq_ok.mp h
    exact ⟨hsingle, fields, outs, hfields, rfl, mapM_zip_eq_ok.mp ⟨tables, htables, houts⟩⟩
  · rintro ⟨hsingle, fields, outs, hfields, rfl, hall⟩
    obtain ⟨tables, htables, houts⟩ := mapM_zip_eq_ok.mpr hall
    have hlen : ¬ tables.length ≠ cls.methods.length :=
      not_not.mpr (forall₂_of_mapM htables).length_eq.symm
    refine bind_eq_ok.mpr ⟨tables, htables, ?_⟩
    unfold Assembly.Class.emit
    refine bind_eq_ok.mpr ⟨(), hsingle, (if_neg hlen).trans ?_⟩
    exact bind_eq_ok.mpr ⟨fields, hfields, bind_eq_ok.mpr ⟨outs, houts, rfl⟩⟩

def unitAssembly (u : CompilationUnit) (limit : Option Nat) : Except Error Assembly.Class := do
  let cls ← lowerUnit u
  let tables ← slotTables cls limit
  Assembly.Class.emit cls tables

theorem compileUnit_assembly {u : CompilationUnit} {limit : Option Nat} {a : Artifacts}
    (h : compileUnit u limit = .ok a) :
    ∃ asm, unitAssembly u limit = .ok asm ∧ a.assembly = asm.text := by
  unfold compileUnit at h
  obtain ⟨cls, hcls, h⟩ := bind_eq_ok.mp h
  obtain ⟨tables, htables, h⟩ := bind_eq_ok.mp h
  obtain ⟨asm, hasm, h⟩ := bind_eq_ok.mp h
  obtain rfl := pure_eq_ok.mp h
  refine ⟨asm, ?_, rfl⟩
  exact bind_eq_ok.mpr ⟨cls, hcls, bind_eq_ok.mpr ⟨tables, htables, hasm⟩⟩

theorem unitAssembly_stages {u : CompilationUnit} {limit : Option Nat} {asm : Assembly.Class}
    (h : unitAssembly u limit = .ok asm) :
    ∃ cls, LowersClass u.program u.symbols cls ∧ EmitsClass cls asm := by
  obtain ⟨cls, hcls, h⟩ := bind_eq_ok.mp h
  obtain ⟨tables, _, hasm⟩ := bind_eq_ok.mp h
  exact ⟨cls, lowersClass_of_lowerUnit hcls, emitsClass_of_emit hasm⟩

/-- The method of the assembly comes from this declaration. -/
def Compiles (u : CompilationUnit) (cls : Flat.Class) (decl : Source.Method)
    (out : Assembly.Method) : Prop :=
  ∃ f m f' table, LowersMethod { symbols := u.symbols } decl f m f' ∧
    Assembly.Method.emit cls m table = .ok out

/-- The methods of the assembly are those of the class in their order, behind the constructor that is
added if there is none. -/
theorem unitAssembly_methods {u : CompilationUnit} {limit : Option Nat} {asm : Assembly.Class}
    (h : unitAssembly u limit = .ok asm) :
    ∃ cls extra methods, LowersClass u.program u.symbols cls ∧ asm.methods = extra ++ methods ∧
      extra.length = (if u.program.cls.methods.any (·.isConstructor) then 0 else 1) ∧
      List.Forall₂ (Compiles u cls) u.program.cls.methods methods := by
  obtain ⟨cls, hcls, hasm⟩ := unitAssembly_stages h
  obtain ⟨added, ms, f', hmethods, hadded, hms⟩ := hcls.methods
  have hemits := hasm.methods
  rw [hmethods] at hemits
  obtain ⟨extra, methods, houts, hfirst, hrest⟩ := forall₂_append_left hemits
  refine ⟨cls, extra, methods, hcls, houts, ?_, ?_⟩
  · rw [← hfirst.length_eq]
    unfold AddsConstructor at hadded
    split at hadded
    · next hctor => simp [hadded, hctor]
    · next hctor =>
      obtain ⟨m, _, rfl⟩ := hadded
      simp [hctor]
  · refine forall₂_compose hms.forall₂ hrest ?_
    rintro decl m out ⟨f, f', hm⟩ ⟨table, hout⟩
    exact ⟨f, m, f', table, hm, hout⟩

end JavaMinus
