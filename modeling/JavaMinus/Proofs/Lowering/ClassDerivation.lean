import JavaMinus.Lowering.Class
import JavaMinus.Proofs.Flat.Assembled
import JavaMinus.Proofs.Lowering.StmtDerivation

/-!
# Derivations of class lowering

The rules for methods, lists of methods and whole classes. Methods are lowered in their order, each with
the counters that the one before it left.
-/

namespace JavaMinus.Lowering

open JavaMinus.Flat (Ty Code Header Param bind_eq_ok pure_eq_ok guard_ok forall₂_of_mapM)
open JavaMinus.Source (SymbolTable Program)

def methodCode (σ : Scope) (decl : Source.Method) (result : Ty) (body : Code) : Code :=
  closeBody result
    ((if decl.isConstructor then [superInit (methodScope σ decl result)] else []) ++ body)

def methodHeader (decl : Source.Method) (result : Ty) (params : List Param) : Header where
  name := decl.name
  access := decl.access
  isStatic := decl.isEntry
  isConstructor := decl.isConstructor
  params := params
  returnType := result

section Parameters

variable {σ : Scope} {decl : Source.Method} {d : Source.MethodSymbols} {params : List Param}

/-- The parameters of a method are those of the symbol table, in order. -/
theorem methodParams_listed (hd : σ.symbols.method? decl.name = some d)
    (h : methodParams σ decl = .ok params) :
    List.Forall₂ (fun sym p => sym.name = p.name ∧ σ.typeOf sym.type = .ok p.ty)
      d.parameters params := by
  unfold methodParams at h
  rw [hd] at h
  refine (forall₂_of_mapM h).imp fun sym p hp => ?_
  obtain ⟨ty, hty, hp⟩ := bind_eq_ok.mp hp
  obtain rfl := pure_eq_ok.mp hp
  exact ⟨rfl, hty⟩

theorem methodParams_map_name (hd : σ.symbols.method? decl.name = some d)
    (h : methodParams σ decl = .ok params) :
    d.parameters.map (·.name) = params.map (·.name) := by
  rw [← List.forall₂_eq_eq_eq, List.forall₂_map_left_iff, List.forall₂_map_right_iff]
  exact (methodParams_listed hd h).imp fun _ _ hp => hp.1

end Parameters

/-- `LowersMethod σ decl f m f'`: in scope `σ`, the declared method becomes `m`. -/
inductive LowersMethod (σ : Scope) (decl : Source.Method) (f : Fresh) : Flat.Method → Fresh → Prop
  | method {result params body m f'} :
      (decl.isConstructor = false → (σ.symbols.method? decl.name).isSome = true) →
      methodResult σ decl = .ok result → methodParams σ decl = .ok params →
      LowersStmt (methodScope σ decl result) (.block {} decl.body) f body f' →
      Flat.Method.assemble (methodHeader decl result params) (methodCode σ decl result body) =
        .ok m →
      LowersMethod σ decl f m f'

inductive LowersMethods (σ : Scope) : List Source.Method → Fresh → List Flat.Method → Fresh → Prop
  | nil {f} : LowersMethods σ [] f [] f
  | cons {decl decls m ms f f₁ f'} : LowersMethod σ decl f m f₁ → LowersMethods σ decls f₁ ms f' →
      LowersMethods σ (decl :: decls) f (m :: ms) f'

/-- What a method is made of: its result type, its parameters and the code of its body. -/
theorem lowerMethod_stages {σ : Scope} {decl : Source.Method} {m : Flat.Method} {f f' : Fresh}
    (h : Yields (lowerMethod σ decl) f m f') :
    ∃ result params body,
      (decl.isConstructor = false → (σ.symbols.method? decl.name).isSome = true) ∧
      methodResult σ decl = .ok result ∧ methodParams σ decl = .ok params ∧
      Yields (lowerStmts (methodScope σ decl result) decl.body) f body f' ∧
      Flat.Method.assemble (methodHeader decl result params) (methodCode σ decl result body) =
        .ok m := by
  unfold lowerMethod at h
  rcases yields_ite.mp h with ⟨_, h⟩ | ⟨hdecl, h⟩
  · obtain ⟨_, _, h, _⟩ := yields_bind.mp h
    exact absurd h yields_throw
  · simp only [yields_bind, yields_lift] at h
    obtain ⟨result, _, ⟨hresult, rfl⟩, params, _, ⟨hparams, rfl⟩, body, f₁, hbody, hm, rfl⟩ := h
    refine ⟨result, params, body, ?_, hresult, hparams, hbody, hm⟩
    intro hctor
    simpa [hctor, Option.isSome_iff_ne_none] using hdecl

theorem lowersMethod_of_yields {σ : Scope} {decl : Source.Method} {m : Flat.Method} {f f' : Fresh}
    (h : Yields (lowerMethod σ decl) f m f') : LowersMethod σ decl f m f' := by
  obtain ⟨result, params, body, hdecl, hresult, hparams, hbody, hm⟩ := lowerMethod_stages h
  exact .method hdecl hresult hparams (lowersStmts_of_yields _ _ _ _ _ _ hbody) hm

theorem lowersMethods_of_yields {σ : Scope} {decls : List Source.Method} {ms : List Flat.Method}
    {f f' : Fresh} (h : Yields (decls.mapM (lowerMethod σ)) f ms f') :
    LowersMethods σ decls f ms f' := by
  induction decls generalizing f ms with
  | nil =>
    obtain ⟨rfl, rfl⟩ := yields_pure.mp h
    exact .nil
  | cons decl decls ih =>
    rw [List.mapM_cons] at h
    simp only [yields_bind, yields_pure] at h
    obtain ⟨m, f₁, hm, rest, f₂, hrest, rfl, rfl⟩ := h
    exact .cons (lowersMethod_of_yields hm) (ih hrest)

theorem LowersMethod.isConstructor {σ : Scope} {decl : Source.Method} {m : Flat.Method}
    {f f' : Fresh} (h : LowersMethod σ decl f m f') : m.isConstructor = decl.isConstructor := by
  cases h with
  | method _ _ _ _ hm => rw [(Flat.Method.steps_of_assemble hm).1, methodHeader]

theorem LowersMethods.forall₂ {σ : Scope} {decls : List Source.Method} {ms : List Flat.Method}
    {f f' : Fresh} (h : LowersMethods σ decls f ms f') :
    List.Forall₂ (fun decl m => ∃ f f', LowersMethod σ decl f m f') decls ms := by
  induction h with
  | nil => exact .nil
  | cons hm _ ih => exact .cons ⟨_, _, hm⟩ ih

theorem LowersMethods.any_isConstructor {σ : Scope} {decls : List Source.Method}
    {ms : List Flat.Method} {f f' : Fresh} (h : LowersMethods σ decls f ms f') :
    ms.any (·.isConstructor) = decls.any (·.isConstructor) := by
  induction h with
  | nil => rfl
  | cons hm _ ih => rw [List.any_cons, List.any_cons, hm.isConstructor, ih]

def AddsConstructor (σ : Scope) (decls : List Source.Method) (extra : List Flat.Method) : Prop :=
  if decls.any (·.isConstructor) then extra = []
  else ∃ m, defaultConstructor σ = .ok m ∧ extra = [m]

theorem lowersMethods_of_lowerMethods {σ : Scope} {decls : List Source.Method}
    {methods : List Flat.Method} {f f' : Fresh} (h : Yields (lowerMethods σ decls) f methods f') :
    ∃ extra ms, methods = extra ++ ms ∧ AddsConstructor σ decls extra ∧
      LowersMethods σ decls f ms f' := by
  unfold lowerMethods at h
  obtain ⟨ms, f₁, hms, h⟩ := yields_bind.mp h
  have hmethods := lowersMethods_of_yields hms
  unfold AddsConstructor
  rcases yields_ite.mp h with ⟨hctor, h⟩ | ⟨hctor, h⟩
  · obtain ⟨rfl, rfl⟩ := yields_pure.mp h
    exact ⟨[], methods, rfl, by simp [hctor], hmethods⟩
  · simp only [yields_bind, yields_lift, yields_pure] at h
    obtain ⟨m, _, ⟨hm, rfl⟩, rfl, rfl⟩ := h
    exact ⟨[m], ms, rfl, by simp [hctor, hm], hmethods⟩

/-- A class with the counters at zero, as it is lowered. -/
structure LowersClass (program : Program) (symbols : SymbolTable) (cls : Flat.Class) : Prop where
  single : program.cls.methods.countP (·.isConstructor) ≤ 1
  name : cls.name = program.cls.name
  superClass : cls.superClass = program.cls.superClass.or symbols.superClass
  imports : cls.imports = classImports program symbols
  fields : lowerFields { symbols } = .ok cls.fields
  methods : ∃ extra ms f', cls.methods = extra ++ ms ∧
    AddsConstructor { symbols } program.cls.methods extra ∧
    LowersMethods { symbols } program.cls.methods {} ms f'

theorem lowersClass_of_lowerProgram {program : Program} {symbols : SymbolTable} {cls : Flat.Class}
    (h : lowerProgram program symbols = .ok cls) : LowersClass program symbols cls := by
  unfold lowerProgram at h
  obtain ⟨hsingle, h⟩ := guard_ok h
  simp only [bind_eq_ok, pure_eq_ok] at h
  obtain ⟨fields, hfields, methods, hmethods, rfl⟩ := h
  have hyields : Yields (lowerMethods { symbols } program.cls.methods) {} methods _ :=
    Prod.ext hmethods rfl
  obtain ⟨extra, ms, rfl, hextra, hms⟩ := lowersMethods_of_lowerMethods hyields
  exact ⟨by simpa using hsingle, rfl, rfl, rfl, hfields, extra, ms, _, rfl, hextra, hms⟩

theorem LowersClass.any_isConstructor {program : Program} {symbols : SymbolTable} {cls : Flat.Class}
    (h : LowersClass program symbols cls) : cls.methods.any (·.isConstructor) = true := by
  obtain ⟨extra, ms, f', hmethods, hextra, hms⟩ := h.methods
  rw [hmethods, List.any_append, hms.any_isConstructor]
  unfold AddsConstructor at hextra
  split at hextra
  · next hctor => simp [hctor]
  · obtain ⟨m, hm, rfl⟩ := hextra
    have hheader := (Flat.Method.steps_of_assemble hm).1
    rw [List.any_cons, show m.isConstructor = true by rw [hheader], Bool.true_or, Bool.true_or]

/-- A method of a lowered class comes from a declaration, or is the constructor that is added. -/
theorem LowersClass.method_cases {program : Program} {symbols : SymbolTable} {cls : Flat.Class}
    (h : LowersClass program symbols cls) {m : Flat.Method} (hm : m ∈ cls.methods) :
    defaultConstructor { symbols } = .ok m ∨
      ∃ decl ∈ program.cls.methods, ∃ f f', LowersMethod { symbols } decl f m f' := by
  obtain ⟨extra, ms, f', hmethods, hextra, hms⟩ := h.methods
  rw [hmethods, List.mem_append] at hm
  rcases hm with hm | hm
  · left
    unfold AddsConstructor at hextra
    split at hextra
    · simp [hextra] at hm
    · obtain ⟨ctor, hctor, rfl⟩ := hextra
      obtain rfl := List.mem_singleton.mp hm
      exact hctor
  · right
    obtain ⟨k, hlt, rfl⟩ := List.getElem_of_mem hm
    have hlt' : k < program.cls.methods.length := by
      rw [hms.forall₂.length_eq]
      exact hlt
    exact ⟨program.cls.methods[k], List.getElem_mem hlt', hms.forall₂.get hlt' hlt⟩

end JavaMinus.Lowering
