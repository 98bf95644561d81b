import JavaMinus.Proofs.Compilation
import JavaMinus.Proofs.Lowering.FieldOperands

/-!
# Static methods

A static method has no current object. A program that uses a field in one is refused, so lowered static
code reads and writes no field. The tree may still name the current object there, and then it becomes an
operand all the same.
-/

namespace JavaMinus.Source

/-! ### Names in trees -/

mutual

/-- The names that the expression reads, names of classes included. -/
def Expr.names : Expr → List String
  | .ident _ name => [name]
  | .intLit .. | .boolLit .. | .self _ | .newObject .. => []
  | .paren _ e | .not _ e | .length _ e | .newArray _ e => e.names
  | .binary _ _ e e' | .index _ e e' => e.names ++ e'.names
  | .call _ e _ es => e.names ++ argNames es
termination_by structural e => e

def argNames : List Expr → List String
  | [] => []
  | e :: es => e.names ++ argNames es
termination_by structural es => es

end

theorem Expr.names_unparen (e : Expr) : e.unparen.names = e.names := by
  cases e with
  | paren _ e =>
    rw [Expr.unparen, Expr.names]
    exact names_unparen e
  | intLit | boolLit | ident | self | not | binary | index | length | call | newArray
  | newObject => rfl

mutual

/-- The names that the statement reads or assigns to. -/
def Stmt.names : Stmt → List String
  | .block _ body => bodyNames body
  | .branch _ cond s none => cond.names ++ s.names
  | .branch _ cond s (some other) => cond.names ++ s.names ++ other.names
  | .loop _ cond s => cond.names ++ s.names
  | .expr _ e | .ret _ (some e) => e.names
  | .assign _ name e => name :: e.names
  | .store _ name index e => name :: (index.names ++ e.names)
  | .ret _ none => []
termination_by structural s => s

def bodyNames : List Stmt → List String
  | [] => []
  | s :: rest => s.names ++ bodyNames rest
termination_by structural body => body

end

end JavaMinus.Source

namespace JavaMinus.Lowering

open JavaMinus.Flat (Ty Operand Instr Item Code)
open JavaMinus.Source (CompilationUnit SymbolTable argNames bodyNames bodyUsesSelf)

/-- In this scope the name does not mean a field. -/
def NoField (σ : Scope) (name : String) : Prop :=
  ∀ b, σ.symbols.resolve? σ.method name = some b → b.storage ≠ .field

section Names

variable {σ : Scope} {name : String} {f f' : Fresh}

theorem noField_of_slot {op : Operand} (h : σ.slotOperand? name = .ok (some op)) :
    NoField σ name := by
  intro b hb
  obtain ⟨b', hb', hstorage, _⟩ := slotOperand?_type h
  obtain rfl : b = b' := Option.some.inj (hb.symm.trans hb')
  exact hstorage

theorem noField_of_none (h : σ.symbols.resolve? σ.method name = none) : NoField σ name := by
  intro b hb
  rw [h] at hb
  cases hb

theorem LowersName.noField {l : Lowered} (h : LowersName σ name f l f')
    (hstatic : σ.isStatic = true) : NoField σ name := by
  cases h with
  | slot hslot => exact noField_of_slot hslot
  | field _ hfield => simp [isStatic_of_fieldOperand? hfield] at hstatic
  | cls hslot hfield _ => exact noField_of_none (resolve?_eq_none hslot hfield)

def Piece.names : Piece → List String
  | .expr e _ _ | .receiver _ e _ => e.names
  | .args es _ _ _ => argNames es
  | .call e _ es _ _ _ => e.names ++ argNames es

/-- Names of the tree that was lowered in a static method mean no fields. -/
theorem Lowers.noField {p : Piece} (h : Lowers σ p f f') (hstatic : σ.isStatic = true) :
    ∀ name ∈ p.names, NoField σ name := by
  induction h with
  | int | bool | self | newObject | noArgs =>
    intro name hname
    cases hname
  | name h =>
    intro name hname
    obtain rfl := List.mem_singleton.mp hname
    exact h.noField hstatic
  | paren _ ih | not _ ih | length _ ih | callValue _ _ ih | newArray _ ih => exact ih
  | valueReceiver _ _ _ _ _ ih => exact ih
  | logical _ _ _ ihl ihr | binary _ _ _ ihl ihr | index _ _ _ _ _ ihl ihr | arg _ _ _ ihl ihr
  | call _ _ _ ihl ihr =>
    intro name hname
    rcases List.mem_append.mp hname with hname | hname
    · exact ihl name hname
    · exact ihr name hname
  | selfReceiver hu =>
    intro name hname
    rw [Piece.names, ← Source.Expr.names_unparen, hu] at hname
    cases hname
  | classReceiver hu hfree _ =>
    intro name hname
    rw [Piece.names, ← Source.Expr.names_unparen, hu] at hname
    obtain rfl := List.mem_singleton.mp hname
    exact noField_of_none (by simpa [SymbolTable.isDeclared] using hfree)

theorem LowersCond.noField {cond : Source.Expr} {test : Code × Instr}
    (h : LowersCond σ cond test f f') (hstatic : σ.isStatic = true) :
    ∀ name ∈ cond.names, NoField σ name := by
  cases h with
  | direct h _ | value h => exact h.noField hstatic

theorem LowersStmt.noField {s : Source.Stmt} {code : Code} (h : LowersStmt σ s f code f')
    (hstatic : σ.isStatic = true) : ∀ name ∈ s.names, NoField σ name := by
  induction h with
  | done | ret =>
    intro name hname
    cases hname
  | seq _ _ ihs ihrest =>
    intro name hname
    rcases List.mem_append.mp hname with hname | hname
    · exact ihs name hname
    · exact ihrest name hname
  | callStmt hu h =>
    intro name hname
    rw [Source.Stmt.names, ← Source.Expr.names_unparen, hu] at hname
    exact h.noField hstatic name hname
  | exprStmt _ h =>
    intro name hname
    rw [Source.Stmt.names, ← Source.Expr.names_unparen] at hname
    exact h.noField hstatic name hname
  | assignNew hdest hu _ =>
    intro name hname
    rw [Source.Stmt.names, ← Source.Expr.names_unparen, hu] at hname
    obtain rfl := List.mem_singleton.mp hname
    exact noField_of_slot hdest
  | assignCall hdest hu h =>
    intro name hname
    rw [Source.Stmt.names, ← Source.Expr.names_unparen, hu] at hname
    rcases List.mem_cons.mp hname with rfl | hname
    · exact noField_of_slot hdest
    · exact h.noField hstatic name hname
  | retarget hdest h | copy hdest h _ =>
    intro name hname
    rcases List.mem_cons.mp hname with rfl | hname
    · exact noField_of_slot hdest
    · exact h.noField hstatic name hname
  | putField _ hfield _ => simp [isStatic_of_fieldOperand? hfield] at hstatic
  | store harr _ _ hi _ hv =>
    intro name hname
    rcases List.mem_cons.mp hname with rfl | hname
    · exact harr.noField hstatic
    rcases List.mem_append.mp hname with hname | hname
    · exact hi.noField hstatic name hname
    · exact hv.noField hstatic name hname
  | retValue h => exact h.noField hstatic
  | branch hcond _ _ ihd ihc =>
    intro name hname
    rcases List.mem_append.mp hname with hname | hname
    · rcases List.mem_append.mp hname with hname | hname
      · exact hcond.noField hstatic name hname
      · exact ihc name hname
    · exact ihd name hname
  | oneArmed hcond _ ihc | loop hcond _ ihc =>
    intro name hname
    rcases List.mem_append.mp hname with hname | hname
    · exact hcond.noField hstatic name hname
    · exact ihc name hname

end Names

/-! ### Methods -/

/-- What holds of a method if it is static. -/
structure StaticSafe (symbols : SymbolTable) (decl : Source.Method) (m : Flat.Method) : Prop where
  static : m.isStatic = decl.isEntry
  /-- Names in its body mean no fields. A body with such a name is refused. -/
  names : m.isStatic = true → ∀ name ∈ bodyNames decl.body, ∀ b,
    symbols.resolve? decl.name name = some b → b.storage ≠ .field
  fields : m.isStatic = true → ∀ s ∈ m.steps, s.instr.fields = []
  /-- The current object is no operand if the body does not name it. -/
  self : m.isStatic = true → bodyUsesSelf decl.body = false →
    ∀ s ∈ m.steps, ∀ op ∈ s.instr.mentions, ∀ cls, op ≠ .self cls

theorem LowersMethod.staticSafe {symbols : SymbolTable} {decl : Source.Method} {m : Flat.Method}
    {f f' : Fresh} (h : LowersMethod { symbols } decl f m f') : StaticSafe symbols decl m := by
  have hknown : ∃ result types, ∀ s ∈ m.steps, ∀ op ∈ s.instr.operands,
      Known (methodScope { symbols } decl result)
        (decl.isEntry = false ∨ bodyUsesSelf decl.body = true) types f.temps f'.temps op :=
    h.explained .inl .inr
  cases h with
  | @method result params body _ _ _ _ _ hbody hm =>
    have hstatic : m.isStatic = decl.isEntry := by
      rw [(Flat.Method.steps_of_assemble hm).1]
      rfl
    have hfields : m.isStatic = true → ∀ s ∈ m.steps, s.instr.fields = [] := by
      intro hm' s hs
      refine List.eq_nil_iff_forall_not_mem.mpr fun op hop => ?_
      obtain ⟨name, hname⟩ := fieldsNamed_of_assemble hm hbody.fieldsNamed.methodCode hs op hop
      have hobject : decl.isEntry = false := isStatic_of_fieldOperand? hname
      simp [hstatic, hobject] at hm'
    refine ⟨hstatic, ?_, hfields, ?_⟩
    · intro hm'
      exact hbody.noField (hstatic.symm.trans hm')
    · rintro hm' huses s hs op hop cls rfl
      rw [Instr.mentions, hfields hm' s hs, List.append_nil] at hop
      obtain ⟨_, _, hknown⟩ := hknown
      -- a name stands for a variable, so only the tree can have brought the current object
      cases hknown s hs _ hop with
      | self hown =>
        rw [hstatic.symm.trans hm', huses] at hown
        simp at hown
      | slot hslot =>
        rcases slotOperand?_cases hslot with ⟨_, _, _, hop⟩ | ⟨_, _, _, _, hop⟩ <;> cases hop

/-- Static code and the current object. The methods of a lowered class are those declared in their order,
behind a constructor that may be added; the entry method is the static one. In a static method no name
means a field, no field is read or written, and no operand is the current object unless the body names
it. -/
theorem lowerUnit_static_code (u : CompilationUnit) (cls : Flat.Class)
    (h : lowerUnit u = .ok cls) :
    ∃ extra methods, cls.methods = extra ++ methods ∧ (∀ m ∈ extra, m.isStatic = false) ∧
      List.Forall₂ (StaticSafe u.symbols) u.program.cls.methods methods := by
  obtain ⟨extra, ms, f', hmethods, hextra, hms⟩ := (lowersClass_of_lowerUnit h).methods
  refine ⟨extra, ms, hmethods, ?_, ?_⟩
  · intro m hm
    unfold AddsConstructor at hextra
    split at hextra
    · rw [hextra] at hm
      cases hm
    · obtain ⟨ctor, hctor, rfl⟩ := hextra
      obtain rfl := List.mem_singleton.mp hm
      rw [(Flat.Method.steps_of_assemble hctor).1]
  · refine hms.forall₂.imp ?_
    rintro decl m ⟨f, f', hm⟩
    exact hm.staticSafe

/-- `static void main(String[] args) { io.println(args.length); }` -/
def countUnit : CompilationUnit where
  program.cls.name := "Count"
  program.cls.methods := [
    { name := "main", access := .pub
      body := [.expr {} (.call {} (.ident {} "io") "println" [.length {} (.ident {} "args")])] }]
  symbols.className := "Count"
  symbols.imports := ["io"]
  symbols.methods := [
    { name := "main", returnType := { name := "void" }
      parameters := [{ name := "args", type := { name := "String", isArray := true } }] }]

theorem lowerUnit_static_code_count :
    ∃ cls m, lowerUnit countUnit = .ok cls ∧ m ∈ cls.methods ∧ m.isStatic = true ∧
      ∀ s ∈ m.steps, s.instr.fields = [] ∧ ∀ op ∈ s.instr.mentions, ∀ c, op ≠ .self c := by
  have hsome : (lowerUnit countUnit).toOption.isSome = true := by decide +kernel
  cases hcls : lowerUnit countUnit with
  | error e => simp [hcls, Except.toOption] at hsome
  | ok cls =>
    obtain ⟨extra, methods, hmethods, _, hsafe⟩ := lowerUnit_static_code countUnit cls hcls
    cases hsafe with
    | @cons _ m _ _ hm _ =>
      have hstatic : m.isStatic = true := hm.static
      refine ⟨cls, m, rfl, by simp [hmethods], hstatic, fun s hs => ⟨hm.fields hstatic s hs, ?_⟩⟩
      exact hm.self hstatic rfl s hs

/-- `static void main() { this.run(); } void run() { }` -/
def selfInMainUnit : CompilationUnit where
  program.cls.name := "Start"
  program.cls.methods := [
    { name := "main", access := .pub, body := [.expr {} (.call {} (.self {}) "run" [])] },
    { name := "run", access := .pub }]
  symbols.className := "Start"
  symbols.methods := [
    { name := "main", returnType := { name := "void" } },
    { name := "run", returnType := { name := "void" } }]

/-- The current object can be an operand of static code: nothing refuses a tree that names it there. -/
theorem not_forall_static_without_self :
    ¬ ∀ (u : CompilationUnit) (cls : Flat.Class), lowerUnit u = .ok cls →
      ∀ m ∈ cls.methods, m.isStatic = true →
        ∀ s ∈ m.steps, ∀ op ∈ s.instr.mentions, ∀ c, op ≠ .self c := by
  intro h
  have hself : (lowerUnit selfInMainUnit).toOption.any (fun cls => cls.methods.any fun m =>
      m.isStatic && m.steps.any fun s => s.instr.mentions.contains (.self "Start")) = true := by
    decide +kernel
  cases hcls : lowerUnit selfInMainUnit with
  | error e => simp [hcls, Except.toOption] at hself
  | ok cls =>
    simp only [hcls, Except.toOption, Option.any_some, List.any_eq_true, Bool.and_eq_true,
      List.contains_iff_mem] at hself
    obtain ⟨m, hm, hstatic, s, hs, hop⟩ := hself
    exact h selfInMainUnit cls hcls m hm hstatic s hs _ hop "Start" rfl

end JavaMinus.Lowering
