import JavaMinus.Proofs.Assembly.Sites

/-!
# Calls and the methods they name

The descriptor of a call is made from the operands that the call passes and from the place where its
result goes, the descriptor of a method from its declaration. The two agree where the arguments have
the declared types and the result goes into no variable of another type.
-/

namespace JavaMinus.Assembly

open JavaMinus.Flat (Ty Operand Code Param bind_eq_ok pure_eq_ok forall₂_compose)
open JavaMinus.Lowering (Scope Stands Declares callee? argTypes valueTy? methodParams methodResult
  methodHeader methodParams_listed classImports)
open JavaMinus.Source (Site Expr TypeName MethodSymbols CompilationUnit bodySites)

/-- The type that is declared for values of this type: the current object is an object of its
class. -/
def asDeclared : Ty → Ty
  | .self cls => .object cls
  | ty => ty

/-- There is one argument for each parameter, of a type that is accepted there. -/
def Accepts (σ : Scope) (accepted : Ty → TypeName → Prop) (args : List Expr)
    (params : List TypeName) : Prop :=
  List.Forall₂ (fun actual p => ∃ ty, actual = some ty ∧ accepted (asDeclared ty) p)
    (argTypes σ args params) params

/-- The method reference of a call, among these declarations and their methods. -/
structure Links (σ : Scope) (imports : List String) (defined : List (Source.Method × Method))
    (receiver : Expr) (method : String) (args : List Expr) (into : Option String)
    (ref : MethodRef) : Prop where
  name : ref.name = method
  types : ∀ d, callee? σ receiver method = some d → Declares σ into (· = d.returnType) →
    ∃ types result, argTypes σ args (d.parameters.map (·.type)) = types.map some ∧
      σ.typeOf d.returnType = .ok result ∧
      methodDescriptor imports types result = .ok ref.descriptor
  /-- Constructors have no result, whatever is declared for them. -/
  agrees : ∀ d, callee? σ receiver method = some d → Declares σ into (· = d.returnType) →
    Accepts σ (fun ty p => σ.typeOf p = .ok ty) args (d.parameters.map (·.type)) →
    ∀ p ∈ defined, p.1.name = method →
      (p.1.isConstructor = true → d.returnType = { name := "void" }) →
      ref.descriptor = p.2.descriptor

/-! ### Descriptors -/

theorem typeDescriptor_asDeclared (imports : List String) (ty : Ty) :
    typeDescriptor imports (asDeclared ty) = typeDescriptor imports ty := by
  cases ty <;> rfl

theorem methodDescriptor_asDeclared (imports : List String) (types : List Ty) (result : Ty) :
    methodDescriptor imports (types.map asDeclared) result =
      methodDescriptor imports types result := by
  unfold methodDescriptor
  rw [List.mapM_map]
  simp only [Function.comp_def, typeDescriptor_asDeclared]

theorem emit_descriptor {cls : Flat.Class} {m : Flat.Method} {slots : SlotTable} {out : Method}
    (h : Method.emit cls m slots = .ok out) :
    methodDescriptor cls.imports (m.params.map (·.ty))
      (if m.isConstructor then .void else m.returnType) = .ok out.descriptor := by
  unfold Method.emit at h
  obtain ⟨_, _, h⟩ := bind_eq_ok.mp h
  obtain ⟨descriptor, hdescriptor, h⟩ := bind_eq_ok.mp h
  obtain rfl := pure_eq_ok.mp h
  exact hdescriptor

theorem methodParams_types {σ : Scope} {decl : Source.Method} {d : MethodSymbols}
    {params : List Param} (hd : σ.symbols.method? decl.name = some d)
    (h : methodParams σ decl = .ok params) :
    List.Forall₂ (fun p ty => σ.typeOf p = .ok ty) (d.parameters.map (·.type))
      (params.map (·.ty)) := by
  rw [List.forall₂_map_left_iff, List.forall₂_map_right_iff]
  exact (methodParams_listed hd h).imp fun _ _ hp => hp.2

theorem methodResult_type {σ : Scope} {decl : Source.Method} {d : MethodSymbols} {result : Ty}
    (hd : σ.symbols.method? decl.name = some d)
    (hctor : decl.isConstructor = true → d.returnType = { name := "void" })
    (h : methodResult σ decl = .ok result) : σ.typeOf d.returnType = .ok result := by
  unfold methodResult at h
  rw [hd] at h
  cases hc : decl.isConstructor with
  | false => simpa [hc] using h
  | true =>
    obtain rfl : Ty.void = result := by simpa [hc] using h
    rw [hctor hc]
    rfl

/-- The descriptor of a method follows its declaration. -/
theorem descriptor_of_compiles {u : CompilationUnit} {cls : Flat.Class} {decl : Source.Method}
    {out : Method} {d : MethodSymbols} (h : Compiles u cls decl out)
    (hd : u.symbols.method? decl.name = some d)
    (hctor : decl.isConstructor = true → d.returnType = { name := "void" }) :
    ∃ types result,
      List.Forall₂ (fun p ty => Scope.typeOf { symbols := u.symbols } p = .ok ty)
        (d.parameters.map (·.type)) types ∧
      Scope.typeOf { symbols := u.symbols } d.returnType = .ok result ∧
      methodDescriptor cls.imports types result = .ok out.descriptor := by
  obtain ⟨f, m, f', table, hm, hout⟩ := h
  cases hm with
  | @method result params _ _ _ _ hresult hparams _ hm =>
    have htype := methodResult_type hd hctor hresult
    have hdescriptor := emit_descriptor hout
    rw [(Flat.Method.steps_of_assemble hm).1] at hdescriptor
    refine ⟨params.map (·.ty), result, methodParams_types hd hparams, htype, ?_⟩
    cases hc : decl.isConstructor with
    | false => simpa [methodHeader, hc] using hdescriptor
    | true =>
      rw [hctor hc] at htype
      obtain rfl : Ty.void = result := Except.ok.inj htype
      simpa [methodHeader, hc] using hdescriptor

/-! ### Calls -/

theorem callee?_declared {σ : Scope} {receiver : Expr} {method : String} {d : MethodSymbols}
    (h : callee? σ receiver method = some d) : σ.symbols.method? method = some d := by
  unfold callee? at h
  split at h
  · exact h
  · cases h

/-- Only values can be passed. -/
theorem LoadsAll.valueTypes {φ : Frame} {ops : List Operand} {lines : List Line}
    (h : LoadsAll φ ops lines) : ops.map valueTy? = (ops.map Operand.ty).map some := by
  induction h with
  | nil => rfl
  | @cons op rest _ _ hop _ ih =>
    have hvalue : valueTy? op = some op.ty := by
      cases op with
      | classRef =>
        cases hop with
        | cell hcell => cases hcell
      | lit | var | param | elem | self => rfl
    rw [List.map_cons, List.map_cons, List.map_cons, hvalue, ih]

/-- The line of a call names the method, with the types of the arguments and the declared result
type. -/
theorem invoke_of_marks {σ : Scope} {φ : Frame} {receiver : Expr} {method : String}
    {args : List Expr} {into : Option String} {code : Code} {tail : List Line}
    (hstands : Stands σ (.call receiver method args into) code) (hmarks : Marks φ code tail) :
    ∃ dispatch ref rest, tail = .op (.invoke dispatch ref) :: rest ∧ ref.name = method ∧
      ∀ d, callee? σ receiver method = some d → Declares σ into (· = d.returnType) →
        ∃ types result, argTypes σ args (d.parameters.map (·.type)) = types.map some ∧
          σ.typeOf d.returnType = .ok result ∧
          methodDescriptor φ.cls.imports types result = .ok ref.descriptor := by
  cases hstands with
  | @call _ _ _ _ _ _ invocation _ operands result hcall hinvocation hpasses =>
    cases hmarks with
    | @head _ _ _ _ _ after lines _ _ _ hcall' _ _ _ hline _ =>
      obtain rfl := Option.some.inj (hcall.symm.trans hcall')
      cases hline with
      | new => rcases hinvocation with h | h <;> cases h
      | @named _ dispatch _ _ _ _ _ ref hdispatch hargs href =>
        obtain ⟨_, hname, hdescriptor⟩ := linkage_method href
        refine ⟨dispatch, ref, after ++ lines, rfl, hname, fun d hd hinto => ?_⟩
        obtain ⟨ty, hty, hresult⟩ := hpasses.result d hd
        refine ⟨operands.map Operand.ty, ty, ?_, hty, ?_⟩
        · rw [← hpasses.args d hd, hargs.valueTypes]
        · have hreturns : resultType dispatch result = ty := by
            rw [← hresult hinto]
            rcases hinvocation with rfl | rfl <;> obtain rfl := Option.some.inj hdispatch <;> rfl
          rw [← hreturns]
          exact hdescriptor

/-- Arguments that are accepted as declared have the declared types. -/
theorem Accepts.types_eq {σ : Scope} {args : List Expr} {params : List TypeName}
    {types declared : List Ty} (h : Accepts σ (fun ty p => σ.typeOf p = .ok ty) args params)
    (htypes : argTypes σ args params = types.map some)
    (hdeclared : List.Forall₂ (fun p ty => σ.typeOf p = .ok ty) params declared) :
    types.map asDeclared = declared := by
  unfold Accepts at h
  rw [htypes, List.forall₂_map_left_iff] at h
  have hsame : List.Forall₂ (fun ty ty' => asDeclared ty = ty') types declared := by
    refine forall₂_compose h hdeclared ?_
    rintro ty p ty' ⟨_, hty, hp⟩ hp'
    obtain rfl := Option.some.inj hty
    exact Except.ok.inj (hp.symm.trans hp')
  rwa [← List.forall₂_eq_eq_eq, List.forall₂_map_left_iff]

theorem links_of_marks {u : CompilationUnit} {decl : Source.Method} {φ : Frame}
    {methods : List Method}
    (hall : List.Forall₂ (Compiles u φ.cls) u.program.cls.methods methods) {receiver : Expr}
    {method : String} {args : List Expr} {into : Option String} {code : Code} {tail : List Line}
    (hstands : Stands (bodyScope u.symbols decl) (.call receiver method args into) code)
    (hmarks : Marks φ code tail) :
    ∃ dispatch ref rest, tail = .op (.invoke dispatch ref) :: rest ∧
      Links (bodyScope u.symbols decl) φ.cls.imports (u.program.cls.methods.zip methods)
        receiver method args into ref := by
  obtain ⟨dispatch, ref, rest, htail, hname, htypes⟩ := invoke_of_marks hstands hmarks
  refine ⟨dispatch, ref, rest, htail, hname, htypes, ?_⟩
  rintro d hd hinto haccepts ⟨callee, out⟩ hmem rfl hctor
  have hcompiles := (List.forall₂_iff_zip.mp hall).2 hmem
  obtain ⟨types, result, hargs, hresult, hdescriptor⟩ := htypes d hd hinto
  obtain ⟨declared, result', hparams, hresult', hdescriptor'⟩ :=
    descriptor_of_compiles hcompiles (callee?_declared hd) hctor
  obtain rfl := Except.ok.inj (hresult.symm.trans hresult')
  rw [← haccepts.types_eq hargs hparams, methodDescriptor_asDeclared] at hdescriptor'
  exact Except.ok.inj (hdescriptor.symm.trans hdescriptor')

/-- Calls link to the methods they name. The calls of each method have their lines in the order in
which the method is laid out. A call on this class whose result goes into no variable of another type
has the types of its arguments and the declared result type in its line. If the arguments have the
declared types, this is the descriptor of each method of the class with this name. -/
theorem compileUnit_calls_link (u : CompilationUnit) (limit : Option Nat) (a : Artifacts)
    (h : compileUnit u limit = .ok a) :
    ∃ (asm : Class) (extra methods : List Method),
      unitAssembly u limit = .ok asm ∧ a.assembly = asm.text ∧ asm.methods = extra ++ methods ∧
      extra.length = (if u.program.cls.methods.any (·.isConstructor) then 0 else 1) ∧
      List.Forall₂ (fun decl m =>
        List.Forall₂ (fun site tail =>
            ∀ receiver method args into, site = Site.call receiver method args into →
              ∃ dispatch ref rest, tail = .op (.invoke dispatch ref) :: rest ∧
                Links (bodyScope u.symbols decl) (classImports u.program u.symbols)
                  (u.program.cls.methods.zip methods) receiver method args into ref)
          (bodySites decl.body) (tailsFrom Line.isSite m.body))
        u.program.cls.methods methods := by
  obtain ⟨asm, hunit, htext⟩ := compileUnit_assembly h
  obtain ⟨cls, extra, methods, hcls, hmethods, hextra, hall⟩ := unitAssembly_methods hunit
  refine ⟨asm, extra, methods, hunit, htext, hmethods, hextra, hall.imp ?_⟩
  rintro decl out ⟨f, m, f', table, hm, hout⟩
  refine sites_of_emit hm hout ?_ fun site code tail hstands hmarks => ?_
  · intro site tail more hlinks receiver method args into hsite
    obtain ⟨dispatch, ref, rest, rfl, href⟩ := hlinks receiver method args into hsite
    exact ⟨dispatch, ref, rest ++ more, rfl, href⟩
  · rintro receiver method args into rfl
    rw [← hcls.imports]
    exact links_of_marks hall hstands hmarks

/-- `x = this.make(1, x.make(2, this));` in a class with a method `A make(int n, A a)`. -/
def chainUnit : CompilationUnit where
  program.cls.name := "A"
  program.cls.methods := [
    { name := "make", body := [.ret {} (some (.ident {} "a"))] },
    { name := "run"
      body := [.assign {} "x" (.call {} (.self {}) "make"
        [.intLit {} 1, .call {} (.ident {} "x") "make" [.intLit {} 2, .self {}]])] }]
  symbols.className := "A"
  symbols.methods := [
    { name := "make", returnType := { name := "A" }
      parameters := [{ name := "n", type := { name := "int" } },
        { name := "a", type := { name := "A" } }] },
    { name := "run", returnType := { name := "void" }
      locals := [{ name := "x", type := { name := "A" } }] }]

theorem compileUnit_calls_link_chain :
    ∃ a asm extra make run, compileUnit chainUnit none = .ok a ∧
      unitAssembly chainUnit none = .ok asm ∧ asm.methods = extra ++ [make, run] ∧
      ∃ inner outer, tailsFrom Line.isSite run.body = [inner, outer] ∧
        ∀ tail ∈ [inner, outer], ∃ dispatch ref rest, tail = .op (.invoke dispatch ref) :: rest ∧
          ref.name = "make" ∧ ref.descriptor = make.descriptor := by
  have hsome : (compileUnit chainUnit none).toOption.isSome = true := by decide +kernel
  cases ha : compileUnit chainUnit none with
  | error e => simp [ha, Except.toOption] at hsome
  | ok a =>
    obtain ⟨asm, extra, methods, hunit, _, hmethods, _, hall⟩ :=
      compileUnit_calls_link chainUnit none a ha
    obtain ⟨make, _, _, hrest, rfl⟩ := List.forall₂_cons_left_iff.mp hall
    obtain ⟨run, _, hrun, hnil, rfl⟩ := List.forall₂_cons_left_iff.mp hrest
    obtain rfl := List.forall₂_nil_left_iff.mp hnil
    obtain ⟨inner, _, hinner, hsites, htails⟩ := List.forall₂_cons_left_iff.mp hrun
    obtain ⟨outer, _, houter, hnil, rfl⟩ := List.forall₂_cons_left_iff.mp hsites
    obtain rfl := List.forall₂_nil_left_iff.mp hnil
    obtain ⟨dispatch, ref, rest, hinner, hlinks⟩ := hinner _ _ _ _ rfl
    obtain ⟨dispatch', ref', rest', houter, hlinks'⟩ := houter _ _ _ _ rfl
    have hmake : (chainUnit.program.cls.methods.head (by decide), make) ∈
        chainUnit.program.cls.methods.zip [make, run] := List.mem_cons_self ..
    have hdeclares : Declares (bodyScope chainUnit.symbols
        (chainUnit.program.cls.methods.getLast (by decide))) (some "x") (· = { name := "A" }) := by
      intro name b hname hb _
      cases hname
      cases hb
      rfl
    have hagrees := hlinks.agrees _ rfl Stands.declares_none
      (.cons ⟨_, rfl, rfl⟩ (.cons ⟨_, rfl, rfl⟩ .nil)) _ hmake rfl
      fun hctor => absurd hctor Bool.false_ne_true
    have hagrees' := hlinks'.agrees _ rfl hdeclares
      (.cons ⟨_, rfl, rfl⟩ (.cons ⟨_, rfl, rfl⟩ .nil)) _ hmake rfl
      fun hctor => absurd hctor Bool.false_ne_true
    refine ⟨a, asm, extra, make, run, rfl, hunit, hmethods, inner, outer, htails, ?_⟩
    intro tail htail
    rcases List.mem_pair.mp htail with rfl | rfl
    · exact ⟨dispatch, ref, rest, hinner, hlinks.name, hagrees⟩
    · exact ⟨dispatch', ref', rest', houter, hlinks'.name, hagrees'⟩

/-- `this.take(this);` in a class `A` that extends `B` and has a method `void take(B b)`. -/
def giveUnit : CompilationUnit where
  program.cls.name := "A"
  program.cls.superClass := some "B"
  program.cls.methods := [
    { name := "take", access := .pub },
    { name := "give", access := .pub
      body := [.expr {} (.call {} (.self {}) "take" [.self {}])] }]
  symbols.className := "A"
  symbols.superClass := some "B"
  symbols.methods := [
    { name := "take", returnType := { name := "void" }
      parameters := [{ name := "b", type := { name := "B" } }] },
    { name := "give", returnType := { name := "void" } }]

def giveAssembly : Class where
  access := "public"
  name := "A"
  superName := "B"
  fields := []
  addsConstructor := false
  methods := [
    { access := .pub, isStatic := false, name := "<init>", descriptor := "()V", stackLimit := 1
      localsLimit := 1
      body := [.op (.load .ref 0), .op (.invoke .special ⟨"B", "<init>", "()V"⟩), .op .ret] },
    { access := .pub, isStatic := false, name := "take", descriptor := "(LB;)V", stackLimit := 0
      localsLimit := 2
      body := [.op .ret] },
    { access := .pub, isStatic := false, name := "give", descriptor := "()V", stackLimit := 2
      localsLimit := 1
      body := [.op (.load .ref 0), .op (.load .ref 0),
        .op (.invoke .virtual ⟨"A", "take", "(LA;)V"⟩), .op .ret] }]

/-- An object of this class where one of the superclass is expected does not take on the type of the
superclass. -/
theorem not_forall_calls_link :
    ¬ ∀ (u : CompilationUnit) (limit : Option Nat) (asm : Class), unitAssembly u limit = .ok asm →
      u.program.cls.name = u.symbols.className → (u.symbols.methods.map (·.name)).Nodup →
      List.Forall₂ (fun decl m =>
        List.Forall₂ (fun site tail => ∀ receiver method args into d callee,
            site = Site.call receiver method args into →
            callee? (bodyScope u.symbols decl) receiver method = some d →
            Accepts (bodyScope u.symbols decl)
              (fun ty p => Scope.typeOf { symbols := u.symbols } p = .ok ty ∨
                ty = .object u.symbols.className ∧ u.symbols.superClass = some p.name ∧
                  p.isArray = false)
              args (d.parameters.map (·.type)) →
            Declares (bodyScope u.symbols decl) into
              (fun t => t = d.returnType ∨ d.returnType = { name := u.symbols.className } ∧
                u.symbols.superClass = some t.name ∧ t.isArray = false) →
            callee ∈ asm.methods → callee.name = method →
            ∃ dispatch ref rest, tail = .op (.invoke dispatch ref) :: rest ∧
              ref.descriptor = callee.descriptor)
          (bodySites decl.body) (tailsFrom Line.isSite m.body))
        u.program.cls.methods
        (asm.methods.drop (if u.program.cls.methods.any (·.isConstructor) then 0 else 1)) := by
  intro h
  have hall := h giveUnit none giveAssembly (by decide +kernel) rfl (by decide)
  obtain ⟨_, hall⟩ := List.forall₂_cons.mp hall
  obtain ⟨hgive, _⟩ := List.forall₂_cons.mp hall
  obtain ⟨hcall, _⟩ := List.forall₂_cons.mp hgive
  have htake : giveAssembly.methods.get ⟨1, by decide⟩ ∈ giveAssembly.methods := List.get_mem _ _
  obtain ⟨dispatch, ref, rest, htail, hdescriptor⟩ := hcall _ _ _ _ _ _ rfl rfl
    (.cons ⟨_, rfl, .inr ⟨rfl, rfl, rfl⟩⟩ .nil) Stands.declares_none htake rfl
  cases htail
  exact absurd hdescriptor (by decide)

end JavaMinus.Assembly
