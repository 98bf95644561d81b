import JavaMinus.Proofs.Assembly.Returning
import JavaMinus.Proofs.Compilation
import JavaMinus.Proofs.Lowering.Instructions

/-!
# How compiled methods end

No run of a compiled method passes its last line, if the method has no result, is a constructor or
returns on every path. The last line is a return, except behind a choice whose branches both return:
there it is a line without effect, to which no run comes.
-/

namespace JavaMinus.Assembly

open JavaMinus.Behaviour
open JavaMinus.Flat (Instr Code Header labelsOf forall₂_append_left forall₂_compose)
open JavaMinus.Lowering (SelfContained LowersStmt Scope Fresh placeLabel superInit methodResult
  methodScope methodCode LowersMethod)
open JavaMinus.Source (SymbolTable CompilationUnit lastReturns)

/-! ### Emitted bodies -/

section Bodies

variable {header : Header} {code : Code} {m : Flat.Method} {cls : Flat.Class} {table : SlotTable}
  {out : Method}

theorem lead_of_selfContained (h : SelfContained code) :
    ∀ l ∈ labelsOf code, ¬ "cmp_".toList <+: l.toList := by
  intro l hl
  obtain ⟨p, hp, n, rfl⟩ := h.places l hl
  -- the first letter tells the places of lowered code apart from those of comparisons
  have hfirst : ∀ p ∈ Lowering.places, p.toList.head? ≠ some 'c' ∧ p.toList ≠ [] := by decide
  obtain ⟨hhead, hne⟩ := hfirst p hp
  rintro ⟨rest, hrest⟩
  have heq := congrArg List.head? hrest
  rw [placeLabel, String.toList_append, String.toList_append, List.append_assoc,
    List.head?_append_of_ne_nil _ hne] at heq
  exact hhead heq.symm

theorem emit_expands (hm : Flat.Method.assemble header code = .ok m)
    (hout : Method.emit cls m table = .ok out) (hcode : SelfContained code)
    (hlabels : (labelsOf code).Nodup) :
    ∃ lines, Expands ⟨cls, m, table⟩ code lines ∧ out.body = lines ++ trailing code ++ closing m ∧
      (lineLabels out.body).Nodup := by
  obtain ⟨blocks, σ, hemits, hbody⟩ := emit_body hout
  obtain ⟨lines, hlines, hlayout⟩ := hemits.expands (Flat.Method.steps_eq_attachLabels hm)
  have hsteps := Flat.Method.flatMap_labels hm
  refine ⟨lines, hlines, by simpa [hlayout] using hbody, ?_⟩
  rw [hbody]
  apply nodup_labels m hemits
  · rw [hsteps]
    exact hlabels
  · rw [hsteps]
    exact lead_of_selfContained hcode

/-- The last line of a method, in its body and in its text. -/
structure EndsIn (m : Method) (o : Op) : Prop where
  body : ∃ front, m.body = front ++ [.op o]
  text : ∃ head, m.text = head ++ (Line.op o).text ++ ".end method\n"

theorem endsIn_of_body {m : Method} {o : Op} {front : List Line} (h : m.body = front ++ [.op o]) :
    EndsIn m o := by
  refine ⟨⟨front, h⟩, ?_⟩
  unfold Method.text
  rw [h, List.map_append, String.join_append, List.map_singleton, String.join_cons,
    String.join_nil, String.append_empty, ← String.append_assoc]
  exact ⟨_, rfl⟩

theorem unreached_of_endsIn {m : Method} {o : Op} (h : EndsIn m o) (ho : o.isReturn = true) :
    Unreached m.body m.body.length := by
  obtain ⟨front, hbody⟩ := h.body
  rw [hbody]
  exact unreached_end (falls_of_isReturn ho)

theorem endsIn_return {c : Code} {value : Option Flat.Operand} {lines : List Line} {φ : Frame}
    (hcode : code = c ++ [.instr (.ret value)]) (hlines : Expands φ code lines)
    (hbody : out.body = lines ++ trailing code ++ closing m) :
    ∃ o, EndsIn out o ∧ o.isReturn = true := by
  subst hcode
  obtain ⟨a, front, o, rfl, ho, _, _⟩ := hlines.ends_ret
  have htrailing : trailing (c ++ [.instr (.ret value)]) = [] := trailing_instr c _ []
  rw [htrailing, List.append_nil] at hbody
  unfold closing at hbody
  split at hbody
  · exact ⟨.ret, endsIn_of_body hbody, rfl⟩
  · rw [List.append_nil] at hbody
    exact ⟨o, endsIn_of_body hbody, ho⟩

theorem closing_nil (hm : Flat.Method.assemble header code = .ok m) (hvoid : m.returnType ≠ .void)
    {value : Option Flat.Operand} (hmem : .instr (.ret value) ∈ code) : closing m = [] := by
  obtain ⟨extra, hinstrs, _⟩ := Flat.Method.instrs_of_assemble hm
  have hstep : .ret value ∈ m.steps.map (·.instr) := by
    rw [hinstrs]
    exact List.mem_append_left _ (Flat.mem_instrsOf.mpr hmem)
  obtain ⟨s, hs, heq⟩ := List.mem_map.mp hstep
  have hreturn : m.hasReturn = true := by
    refine List.any_eq_true.mpr ⟨s, hs, ?_⟩
    rw [heq]
    rfl
  simp [closing, hreturn, hvoid]

end Bodies

/-! ### Declared methods -/

def isVoid (symbols : SymbolTable) (decl : Source.Method) : Bool :=
  (symbols.method? decl.name).any fun m => m.returnType = { name := "void" }

/-- How a compiled method ends. -/
structure Ends (symbols : SymbolTable) (decl : Source.Method) (m : Method) : Prop where
  /-- No run passes the end of a method without result, of a constructor or of a method that returns
  on every path. -/
  unreached : isVoid symbols decl || decl.isConstructor || lastReturns true decl.body →
    Unreached m.body m.body.length
  /-- Without a result, in a constructor or behind a return statement the last line is a return. -/
  returns : isVoid symbols decl || decl.isConstructor || lastReturns false decl.body →
    ∃ o, EndsIn m o ∧ o.isReturn = true
  /-- Otherwise the last statement is a choice. The last line is one without effect, and no run comes
  to it. -/
  choice : lastReturns true decl.body →
    ¬ (isVoid symbols decl || decl.isConstructor || lastReturns false decl.body) →
    EndsIn m .nop ∧ Unreached m.body (m.body.length - 1)

theorem typeOf_eq_void {σ : Scope} {t : Source.TypeName} :
    σ.typeOf t = .ok .void ↔ t = { name := "void" } := by
  obtain ⟨name, isArray⟩ := t
  unfold Scope.typeOf
  by_cases hvoid : name = "void"
  · subst hvoid
    cases isArray <;> simp
  · have hne : Source.TypeName.mk name isArray ≠ { name := "void" } := by simp [hvoid]
    refine iff_of_false ?_ hne
    simp only [hvoid, if_false]
    split_ifs <;> cases isArray <;> simp

theorem methodResult_eq_void {symbols : SymbolTable} {decl : Source.Method} {result : Flat.Ty}
    (hdecl : decl.isConstructor = false → (symbols.method? decl.name).isSome = true)
    (h : methodResult { symbols } decl = .ok result) :
    result = .void ↔ (isVoid symbols decl || decl.isConstructor) = true := by
  unfold methodResult at h
  unfold isVoid
  cases hm : symbols.method? decl.name with
  | none =>
    rw [hm] at h hdecl
    obtain rfl := Except.ok.inj h
    cases hctor : decl.isConstructor with
    | true => simp
    | false => simp [hctor] at hdecl
  | some m =>
    rw [hm] at h
    cases hctor : decl.isConstructor with
    | true =>
      rw [hctor] at h
      obtain rfl := Except.ok.inj h
      simp
    | false =>
      rw [hctor] at h
      have htype : result = .void ↔ Scope.typeOf { symbols } m.returnType = .ok .void := by
        rw [show Scope.typeOf { symbols } m.returnType = .ok result from h, Except.ok.injEq]
      rw [htype, typeOf_eq_void]
      simp

section Declared

variable {symbols : SymbolTable} {decl : Source.Method} {result : Flat.Ty} {body : Code}

theorem methodCode_ends_ret {f f' : Fresh} {span : Source.Span}
    (hvoid : result = .void ↔ (isVoid symbols decl || decl.isConstructor) = true)
    (hbody : LowersStmt (methodScope { symbols } decl result) (.block span decl.body) f body f')
    (h : (isVoid symbols decl || decl.isConstructor || lastReturns false decl.body) = true) :
    ∃ c value, methodCode { symbols } decl result body = c ++ [.instr (.ret value)] := by
  by_cases hresult : result = .void
  · subst hresult
    exact Lowering.closeBody_void _
  · have hnone : (isVoid symbols decl || decl.isConstructor) = false := by
      rw [← Bool.not_eq_true, ← hvoid]
      exact hresult
    rw [hnone, Bool.false_or] at h
    rw [Lowering.methodCode_of_result hresult (Bool.or_eq_false_iff.mp hnone).2]
    exact hbody.ends_ret h

/-- Behind a choice whose branches return stands one line more, and control stays before it. -/
theorem keeps_before_nop {σ : Scope} {s : Source.Stmt} {f f' : Fresh} {header : Header}
    {m : Flat.Method} {φ : Frame} {lines : List Line} {out : Method}
    (hbody : LowersStmt σ s f body f') (hs : s.returns true = true) (hlast : s.returns false = false)
    (hm : Flat.Method.assemble header body = .ok m) (hresult : header.returnType ≠ .void)
    (hlines : Expands φ body lines) (hout : out.body = lines ++ trailing body ++ closing m)
    (hnodup : (lineLabels out.body).Nodup) :
    out.body = lines ++ [.op .nop] ∧ Keeps out.body 0 lines.length := by
  obtain ⟨value, hmem⟩ := hbody.mem_ret hs
  have hclosing : closing m = [] := by
    refine closing_nil hm ?_ hmem
    rw [(Flat.Method.steps_of_assemble hm).1]
    exact hresult
  obtain ⟨c, label, hcode⟩ := hbody.ends_label hs hlast
  have htrailing : trailing body = [.op .nop] := by simp [hcode, trailing]
  rw [hclosing, htrailing, List.append_nil] at hout
  refine ⟨hout, keeps_stmt hbody hs hlines ?_ hnodup⟩
  rw [hout]
  exact (Placed.whole _).left

theorem ends_of_lowersMethod {f f' : Fresh} {m : Flat.Method} {cls : Flat.Class} {table : SlotTable}
    {out : Method} (hm : LowersMethod { symbols } decl f m f')
    (hout : Method.emit cls m table = .ok out) : Ends symbols decl out := by
  cases hm with
  | @method result params body _ _ hdecl hresult _ hbody hm =>
    have hvoid := methodResult_eq_void hdecl hresult
    have hlabels : (labelsOf (methodCode { symbols } decl result body)).Nodup := by
      rw [Lowering.labelsOf_methodCode]
      exact hbody.numbered.nodup
    obtain ⟨lines, hlines, hout, hnodup⟩ :=
      emit_expands hm hout hbody.selfContained.methodCode hlabels
    have hreturns (h : isVoid symbols decl || decl.isConstructor || lastReturns false decl.body) :
        ∃ o, EndsIn out o ∧ o.isReturn = true := by
      obtain ⟨c, value, hcode⟩ := methodCode_ends_ret hvoid hbody h
      exact endsIn_return hcode hlines hout
    have hchoice (hs : lastReturns true decl.body)
        (h : ¬ (isVoid symbols decl || decl.isConstructor || lastReturns false decl.body)) :
        out.body = lines ++ [.op .nop] ∧ Keeps out.body 0 lines.length := by
      simp only [Bool.not_eq_true, Bool.or_eq_false_iff] at h
      obtain ⟨⟨hnone, hctor⟩, hlast⟩ := h
      have hresult : result ≠ .void := by
        rw [ne_eq, hvoid, hnone, hctor]
        simp
      rw [Lowering.methodCode_of_result hresult hctor] at hm hlines hout
      exact keeps_before_nop hbody hs hlast hm hresult hlines hout hnodup
    refine ⟨?_, hreturns, ?_⟩
    · intro h
      by_cases hends : isVoid symbols decl || decl.isConstructor || lastReturns false decl.body
      · obtain ⟨o, ho, hreturn⟩ := hreturns hends
        exact unreached_of_endsIn ho hreturn
      · have hs : lastReturns true decl.body := by
          simp only [Bool.or_eq_true, not_or] at hends h
          exact h.resolve_left (not_or.mpr hends.1)
        obtain ⟨hbody', hkeeps⟩ := hchoice hs hends
        exact hkeeps.unreached (by simp [hbody'])
    · intro hs hends
      obtain ⟨hbody', hkeeps⟩ := hchoice hs hends
      exact ⟨endsIn_of_body hbody', hkeeps.unreached (by simp [hbody'])⟩

end Declared

/-! ### Classes -/

theorem endsIn_defaultConstructor {σ : Scope} {m : Flat.Method} {cls : Flat.Class}
    {table : SlotTable} {out : Method} (hm : Lowering.defaultConstructor σ = .ok m)
    (hout : Method.emit cls m table = .ok out) : EndsIn out .ret := by
  have hsteps := Flat.Method.steps_eq_attachLabels hm
  -- its code is a call without a return, so emission adds the return
  have hreturn : m.hasReturn = false := by
    have hany : m.hasReturn =
        (m.steps.map fun s => (s.labels, s.instr)).any fun p => p.2.isReturn := by
      rw [List.any_map]
      rfl
    rw [hany, hsteps]
    rfl
  obtain ⟨lines, _, hbody, _⟩ := emit_expands hm hout (.instr rfl) (by simp [superInit])
  have hclosing : closing m = [.op .ret] := by simp [closing, hreturn]
  rw [hclosing] at hbody
  exact endsIn_of_body hbody

/-- Compiled methods are not left through their end. The methods of the assembly are those of the class
in their order, behind the constructor that is added if there is none. No run passes the end of a method
without result, of a constructor, or of a method that returns on every path. Its last line is a return,
unless it has a result and its last statement is a choice: then the last line is one without effect, and
no run comes to it. -/
theorem compileUnit_method_ends (u : CompilationUnit) (limit : Option Nat) (a : Artifacts)
    (h : compileUnit u limit = .ok a) :
    ∃ (asm : Class) (extra methods : List Method),
      unitAssembly u limit = .ok asm ∧ a.assembly = asm.text ∧ asm.addsConstructor = false ∧
      asm.methods = extra ++ methods ∧
      extra.length = (if u.program.cls.methods.any (·.isConstructor) then 0 else 1) ∧
      (∀ m ∈ extra, EndsIn m .ret ∧ Unreached m.body m.body.length) ∧
      List.Forall₂ (Ends u.symbols) u.program.cls.methods methods := by
  obtain ⟨asm, hunit, htext⟩ := compileUnit_assembly h
  obtain ⟨cls, hcls, hasm⟩ := unitAssembly_stages hunit
  obtain ⟨extra, ms, f', hmethods, hextra, hms⟩ := hcls.methods
  have hemits := hasm.methods
  rw [hmethods] at hemits
  obtain ⟨outs, methods, houts, hfirst, hrest⟩ := forall₂_append_left hemits
  refine ⟨asm, outs, methods, hunit, htext, ?_, houts, ?_, ?_, ?_⟩
  · rw [hasm.addsConstructor, Flat.Class.constructorCount, beq_eq_false_iff_ne, ne_eq,
      List.countP_eq_zero]
    -- lowering has added a constructor where there was none
    intro hnone
    obtain ⟨m, hmem, hctor⟩ := List.any_eq_true.mp hcls.any_isConstructor
    exact hnone m hmem hctor
  · rw [← hfirst.length_eq]
    unfold Lowering.AddsConstructor at hextra
    split at hextra
    · next hctor => simp [hextra, hctor]
    · next hctor =>
      obtain ⟨m, _, rfl⟩ := hextra
      simp [hctor]
  · intro m hmem
    unfold Lowering.AddsConstructor at hextra
    split at hextra
    · subst hextra
      cases hfirst with
      | nil => simp at hmem
    · obtain ⟨ctor, hctor, rfl⟩ := hextra
      cases hfirst with
      | cons hout hnil =>
        cases hnil with
        | nil =>
          obtain rfl := List.mem_singleton.mp hmem
          obtain ⟨table, hout⟩ := hout
          have hends := endsIn_defaultConstructor hctor hout
          exact ⟨hends, unreached_of_endsIn hends rfl⟩
  · refine forall₂_compose hms.forall₂ hrest ?_
    rintro decl m out ⟨_, _, hm⟩ ⟨table, hout⟩
    exact ends_of_lowersMethod hm hout

/-- `int choose(boolean c) { if (c) return 1; else return 2; }` -/
def chooseUnit : CompilationUnit where
  program.cls.name := "Choice"
  program.cls.methods := [
    { name := "choose", access := .pub
      body := [.branch {} (.ident {} "c") (.ret {} (some (.intLit {} 1)))
        (some (.ret {} (some (.intLit {} 2))))] }]
  symbols.className := "Choice"
  symbols.methods := [
    { name := "choose", returnType := { name := "int" }
      parameters := [{ name := "c", type := { name := "boolean" } }] }]

def chooseAssembly : Class where
  access := "public"
  name := "Choice"
  superName := "java/lang/Object"
  fields := []
  addsConstructor := false
  methods := [
    { access := .pub, isStatic := false, name := "<init>", descriptor := "()V", stackLimit := 1
      localsLimit := 1
      body := [.op (.load .ref 0), .op (.invoke .special ⟨"java/lang/Object", "<init>", "()V"⟩),
        .op .ret] },
    { access := .pub, isStatic := false, name := "choose", descriptor := "(Z)I", stackLimit := 1
      localsLimit := 2
      body := [.op (.load .int 1), .op (.ifNonzero "then_0"), .op (.const 2), .op (.retValue .int),
        .op (.goto "endif_0"), .label "then_0", .op (.const 1), .op (.retValue .int),
        .label "endif_0", .op .nop] }]

theorem compileUnit_method_ends_choose :
    ∃ a, compileUnit chooseUnit none = .ok a ∧ a.assembly = chooseAssembly.text ∧
      ∃ m ∈ chooseAssembly.methods, EndsIn m .nop ∧ Unreached m.body (m.body.length - 1) := by
  have hasm : unitAssembly chooseUnit none = .ok chooseAssembly := by decide +kernel
  have hsome : (compileUnit chooseUnit none).toOption.isSome = true := by decide +kernel
  cases ha : compileUnit chooseUnit none with
  | error e => simp [ha, Except.toOption] at hsome
  | ok a =>
    obtain ⟨asm, extra, methods, hunit, htext, _, hmethods, _, _, hends⟩ :=
      compileUnit_method_ends chooseUnit none a ha
    obtain rfl : chooseAssembly = asm := Except.ok.inj (hasm.symm.trans hunit)
    refine ⟨a, rfl, htext, ?_⟩
    cases hends with
    | @cons _ m _ _ hm _ =>
      refine ⟨m, ?_, hm.choice (by decide) (by decide)⟩
      rw [hmethods]
      simp

/-- Not every method that returns on every path has a last line that holds control back. -/
theorem not_forall_last_line_transfers :
    ¬ ∀ (u : CompilationUnit) (limit : Option Nat) (asm : Class), unitAssembly u limit = .ok asm →
      List.Forall₂
        (fun decl m =>
          isVoid u.symbols decl || decl.isConstructor || lastReturns true decl.body →
          ∃ front line, m.body = front ++ [line] ∧ line.falls = false)
        u.program.cls.methods
        (asm.methods.drop (if u.program.cls.methods.any (·.isConstructor) then 0 else 1)) := by
  intro h
  have hall := h chooseUnit none chooseAssembly (by decide +kernel)
  cases hall with
  | cons hends _ =>
    obtain ⟨front, line, hbody, hfalls⟩ := hends (by decide)
    have hlast := congrArg List.getLast? hbody
    rw [List.getLast?_concat] at hlast
    obtain rfl : Line.op .nop = line := Option.some.inj hlast
    exact absurd hfalls (by decide)

end JavaMinus.Assembly
