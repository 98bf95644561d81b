import JavaMinus.Proofs.Assembly.Sites

/-!
# Objects and their constructors

A new object is stored in a slot, taken from there again and handed to a constructor. Which class the
constructor belongs to is read off the type of the variable that holds the object: it is the class of
the object if the variable was made for it or is declared with that class.
-/

namespace JavaMinus.Assembly

open JavaMinus.Flat (Ty Operand Instr Code Cell)
open JavaMinus.Lowering (Scope Stands Declares slotOperand?_type classImports)
open JavaMinus.Source (Site CompilationUnit TypeName bodySites)

/-- The lines that make an object of class `cls` and run a constructor of class `owner` on it. -/
def constructLines (cls owner : String) (slot : Nat) : List Line :=
  [.op (.new cls), .op (.store .ref slot), .op (.load .ref slot),
    .op (.invoke .special ⟨owner, "<init>", "()V"⟩)]

/-- At an allocation the object is made, kept and initialised. The constructor is one of its own
class, unless the object goes straight into a variable or parameter that is declared with another
type. -/
def Constructs (σ : Scope) (imports : List String) (site : Site) (tail : List Line) : Prop :=
  ∀ cls into, site = .new cls into → ∃ owner slot rest,
    tail = constructLines (resolveClass imports cls) owner slot ++ rest ∧
    (Declares σ into (· = { name := cls }) → owner = resolveClass imports cls)

section Lines

variable {φ : Frame} {dest : Operand} {cell : Cell} {cls : String} {n n' : Nat} {block : List Line}

theorem emits_allocation (hcell : dest.cell? = some cell)
    (h : Emits φ (.assignTo dest (.call .new (.classRef cls) none [] dest.ty)) block n n') :
    ∃ slot, φ.slots.get? cell.name = some slot ∧
      block = [.op (.new (resolveClass φ.cls.imports cls)),
        .op (.store (.of dest.ty) slot.index)] := by
  unfold Instr.assignTo at h
  cases h with
  | assignElem => cases hcell
  | assignCell _ hcell' hslot hv =>
    obtain rfl := Option.some.inj (hcell'.symm.trans hcell)
    cases hv with
    | call _ hcalls =>
      cases hcalls with
      | newObject => exact ⟨_, hslot, rfl⟩
  | discard h => cases h

theorem loads_cell {lines : List Line} (hcell : dest.cell? = some cell) (h : Loads φ dest lines) :
    ∃ slot, φ.slots.get? cell.name = some slot ∧
      lines = [.op (.load (.of dest.ty) slot.index)] := by
  cases h with
  | lit | self | elem => cases hcell
  | cell hcell' hslot =>
    obtain rfl := Option.some.inj (hcell'.symm.trans hcell)
    exact ⟨_, hslot, rfl⟩

theorem emits_constructor (hcell : dest.cell? = some cell)
    (h : Emits φ (.call .special dest (some "<init>") [] .void) block n n') :
    ∃ slot owner, φ.slots.get? cell.name = some slot ∧ classOf? φ.cls dest.ty = some owner ∧
      block = [.op (.load (.of dest.ty) slot.index),
        .op (.invoke .special ⟨owner, "<init>", "()V"⟩)] := by
  have hcalls : ∃ hasValue lines, Calls φ .special dest (some "<init>") [] .void lines hasValue ∧
      (hasValue = false → block = lines) := by
    cases h with
    | callVoid _ h => exact ⟨_, _, h, fun _ => rfl⟩
    | discard h =>
      cases h with
      | call _ h => exact ⟨_, _, h, fun hvoid => absurd hvoid.symm Bool.false_ne_true⟩
  obtain ⟨hasValue, lines, hcalls, hblock⟩ := hcalls
  cases hcalls with
  | @named _ _ _ _ _ _ _ _ ref hdispatch hreceiver hargs href =>
    obtain rfl := Option.some.inj hdispatch
    obtain rfl := hblock rfl
    cases hargs with
    | nil =>
      cases hreceiver with
      | value _ hload =>
        obtain ⟨slot, hslot, rfl⟩ := loads_cell hcell hload
        have howner : ownerName? φ.cls .special dest = classOf? φ.cls dest.ty := by
          cases dest with
          | var | param => rfl
          | lit | elem | self | classRef => cases hcell
        obtain ⟨hof, hname, hdescriptor⟩ := linkage_method href
        obtain ⟨owner, name, descriptor⟩ := ref
        obtain rfl : "()V" = descriptor := Except.ok.inj hdescriptor
        obtain rfl : name = "<init>" := hname
        exact ⟨slot, owner, hslot, howner ▸ hof, rfl⟩

end Lines

/-- A first line that is a site has nothing before it. -/
theorem NoSites.head {before after rest : List Line} {line first : Line} (hbefore : NoSites before)
    (hfirst : first.isSite = true) (h : first :: rest = before ++ line :: after) :
    first = line ∧ rest = after := by
  cases before with
  | nil => exact List.cons.inj h
  | cons other _ =>
    obtain rfl := (List.cons.inj h).1
    rw [hbefore first (List.mem_cons_self ..)] at hfirst
    cases hfirst

/-- Of the types that can be declared only those of classes have constructors. -/
theorem object_of_classOf? {σ : Scope} {t : TypeName} {ty : Ty} {c : Flat.Class} {owner : String}
    (h : σ.typeOf t = .ok ty) (howner : classOf? c ty = some owner) :
    ∃ held, ty = .object held ∧ t = { name := held } := by
  obtain ⟨name, isArray⟩ := t
  unfold Scope.typeOf at h
  simp only at h
  split_ifs at h <;> cases isArray <;> cases h <;> cases howner
  exact ⟨name, rfl, rfl⟩

theorem constructs_of_marks {σ : Scope} {φ : Frame} {site : Site} {code : Code} {tail : List Line}
    (hstands : Stands σ site code) (hmarks : Marks φ code tail) :
    Constructs σ φ.cls.imports site tail := by
  rintro cls into rfl
  cases hstands with
  | @new _ _ dest cell rest hcell hty =>
    cases hmarks with
    | @head _ _ _ _ _ _ lines _ _ _ _ hi hblock hbefore _ hrest =>
      have hrest' : Expands φ (.instr (.call .special dest (some "<init>") [] .void) :: rest) lines :=
        hrest
      cases hrest' with
      | @instr _ _ _ _ _ rest' hspecial _ =>
        obtain ⟨slot, hslot, rfl⟩ := emits_allocation hcell hi
        obtain ⟨slot', owner, hslot', howner, rfl⟩ := emits_constructor hcell hspecial
        obtain rfl := Option.some.inj (hslot.symm.trans hslot')
        obtain ⟨rfl, rfl⟩ := hbefore.head rfl hblock
        -- the object is held in a variable made for it or in a declared one
        have hheld : ∃ held, dest.ty = .object held ∧
            (Declares σ into (· = { name := cls }) → held = cls) := by
          rcases hty with hty | ⟨name, hinto, hname⟩
          · exact ⟨cls, hty, fun _ => rfl⟩
          · obtain ⟨b, hr, hstorage, hb⟩ := slotOperand?_type hname
            obtain ⟨held, hty, htype⟩ := object_of_classOf? hb howner
            refine ⟨held, hty, fun hdeclares => ?_⟩
            have hsame := hdeclares name b hinto hr hstorage
            rw [htype] at hsame
            exact congrArg TypeName.name hsame
        obtain ⟨held, hobject, hown⟩ := hheld
        rw [hobject] at howner
        refine ⟨owner, slot.index, rest', ?_, fun hdeclares => ?_⟩
        · rw [hobject]
          rfl
        · rw [← Option.some.inj howner, hown hdeclares]

/-- Every object is initialised by a constructor of its own class, unless it is assigned to a variable
or parameter that is declared otherwise. The allocations of each method have their lines in the order
in which the method is laid out. At each of them the object is made, stored in a slot, loaded from this
slot and passed to a constructor. -/
theorem compileUnit_objects_constructed (u : CompilationUnit) (limit : Option Nat) (a : Artifacts)
    (h : compileUnit u limit = .ok a) :
    ∃ (asm : Class) (extra methods : List Method),
      unitAssembly u limit = .ok asm ∧ a.assembly = asm.text ∧ asm.methods = extra ++ methods ∧
      extra.length = (if u.program.cls.methods.any (·.isConstructor) then 0 else 1) ∧
      List.Forall₂ (fun decl m =>
        List.Forall₂ (Constructs (bodyScope u.symbols decl) (classImports u.program u.symbols))
          (bodySites decl.body) (tailsFrom Line.isSite m.body))
        u.program.cls.methods methods := by
  obtain ⟨asm, hunit, htext⟩ := compileUnit_assembly h
  obtain ⟨cls, extra, methods, hcls, hmethods, hextra, hall⟩ := unitAssembly_methods hunit
  refine ⟨asm, extra, methods, hunit, htext, hmethods, hextra, hall.imp ?_⟩
  rintro decl out ⟨f, m, f', table, hm, hout⟩
  refine sites_of_emit hm hout ?_ fun site code tail hstands hmarks => ?_
  · rintro site tail more hconstructs cls' into rfl
    obtain ⟨owner, slot, rest, rfl, howner⟩ := hconstructs cls' into rfl
    exact ⟨owner, slot, rest ++ more, by rw [List.append_assoc], howner⟩
  · rw [← hcls.imports]
    exact constructs_of_marks hstands hmarks

/-- `A x; x = new A(); f = new A();` with a field `f`. -/
def keepUnit : CompilationUnit where
  program.cls.name := "A"
  program.cls.methods := [
    { name := "keep"
      body := [.assign {} "x" (.newObject {} "A"), .assign {} "f" (.newObject {} "A")] }]
  symbols.className := "A"
  symbols.fields := [{ name := "f", type := { name := "A" } }]
  symbols.methods := [
    { name := "keep", returnType := { name := "void" }
      locals := [{ name := "x", type := { name := "A" } }] }]

/-- One object goes into the variable and one, by way of a temporary, into the field. -/
theorem compileUnit_objects_constructed_keep :
    ∃ a asm, compileUnit keepUnit none = .ok a ∧ unitAssembly keepUnit none = .ok asm ∧
      ∃ m ∈ asm.methods, ∃ first rest second rest',
        tailsFrom Line.isSite m.body =
          [constructLines "A" "A" first ++ rest, constructLines "A" "A" second ++ rest'] := by
  have hsome : (compileUnit keepUnit none).toOption.isSome = true := by decide +kernel
  cases ha : compileUnit keepUnit none with
  | error e => simp [ha, Except.toOption] at hsome
  | ok a =>
    obtain ⟨asm, extra, methods, hunit, _, hmethods, _, hall⟩ :=
      compileUnit_objects_constructed keepUnit none a ha
    obtain ⟨m, _, hm, _, rfl⟩ := List.forall₂_cons_left_iff.mp hall
    obtain ⟨_, _, hx, hsites, htails⟩ := List.forall₂_cons_left_iff.mp hm
    obtain ⟨_, _, hf, hnil, rfl⟩ := List.forall₂_cons_left_iff.mp hsites
    obtain rfl := List.forall₂_nil_left_iff.mp hnil
    obtain ⟨_, first, rest, rfl, hlocal⟩ := hx "A" (some "x") rfl
    obtain ⟨_, second, rest', rfl, hfield⟩ := hf "A" (some "f") rfl
    refine ⟨a, asm, rfl, hunit, m, by simp [hmethods], first, rest, second, rest', ?_⟩
    rw [htails, hlocal, hfield]
    · rfl
    · intro name b hname hb hstorage
      cases hname
      cases hb
      exact absurd rfl hstorage
    · intro name b hname hb _
      cases hname
      cases hb
      rfl

/-- `B b; b = new A();` in a class `A` that extends `B`. -/
def buildUnit : CompilationUnit where
  program.cls.name := "A"
  program.cls.superClass := some "B"
  program.cls.methods := [
    { name := "build", access := .pub, body := [.assign {} "b" (.newObject {} "A")] }]
  symbols.className := "A"
  symbols.superClass := some "B"
  symbols.methods := [
    { name := "build", returnType := { name := "void" }
      locals := [{ name := "b", type := { name := "B" } }] }]

def buildAssembly : Class where
  access := "public"
  name := "A"
  superName := "B"
  fields := []
  addsConstructor := false
  methods := [
    { access := .pub, isStatic := false, name := "<init>", descriptor := "()V", stackLimit := 1
      localsLimit := 1
      body := [.op (.load .ref 0), .op (.invoke .special ⟨"B", "<init>", "()V"⟩), .op .ret] },
    { access := .pub, isStatic := false, name := "build", descriptor := "()V", stackLimit := 1
      localsLimit := 2
      body := constructLines "A" "B" 1 ++ [.op .ret] }]

/-- An object of this class that is assigned to a variable of the superclass is initialised by a
constructor of the superclass. -/
theorem not_forall_objects_own_constructor :
    ¬ ∀ (u : CompilationUnit) (limit : Option Nat) (asm : Class), unitAssembly u limit = .ok asm →
      List.Forall₂ (fun decl m =>
        List.Forall₂ (fun site tail => ∀ cls into, site = Site.new cls into → cls ≠ "array" →
            Declares (bodyScope u.symbols decl) into (fun t => t = { name := cls } ∨
              (cls = u.symbols.className ∧ u.symbols.superClass = some t.name ∧ t.isArray = false)) →
            ∃ owner slot rest, tail = constructLines owner owner slot ++ rest)
          (bodySites decl.body) (tailsFrom Line.isSite m.body))
        u.program.cls.methods
        (asm.methods.drop (if u.program.cls.methods.any (·.isConstructor) then 0 else 1)) := by
  intro h
  have hall := h buildUnit none buildAssembly (by decide +kernel)
  obtain ⟨hm, _⟩ := List.forall₂_cons.mp hall
  obtain ⟨hnew, _⟩ := List.forall₂_cons.mp hm
  obtain ⟨owner, slot, rest, hlines⟩ := hnew "A" (some "b") rfl (by decide) <| by
    intro name b hname hb _
    cases hname
    cases hb
    exact .inr ⟨rfl, rfl, rfl⟩
  have hmade := congrArg (fun lines => lines[0]?) hlines
  have hinit := congrArg (fun lines => lines[3]?) hlines
  obtain rfl : "A" = owner := by simpa [constructLines] using hmade
  simp [constructLines] at hinit

end JavaMinus.Assembly
