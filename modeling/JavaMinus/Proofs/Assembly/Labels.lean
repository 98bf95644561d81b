import JavaMinus.Proofs.Assembly.MethodEnds

/-!
# Labels and jumps of compiled methods

The labels of a compiled body are distinct, each one marks a line that does something, and no jump
leaves the body. Lowered code brings its own labels and emission invents others for comparisons whose
result is wanted as a value; both kinds are covered.
-/

namespace JavaMinus.Assembly

open JavaMinus.Flat (Instr Code Header labelsOf)
open JavaMinus.Lowering (SelfContained methodCode)
open JavaMinus.Source (CompilationUnit)

structure JumpsClosed (body : List Line) : Prop where
  distinct : (lineLabels body).Nodup
  /-- Some line behind a label is an instruction. -/
  followed : ∀ front name back, body = front ++ .label name :: back → ∃ o, Line.op o ∈ back
  targets : ∀ name ∈ lineJumps body, name ∈ lineLabels body

/-! ### Last lines -/

section Blocks

variable {φ : Frame} {lines : List Line}

theorem Calls.ends_op {invocation : Flat.Invocation} {target : Flat.Operand}
    {method : Option String} {args : List Flat.Operand} {result : Flat.Ty} {hasValue : Bool}
    (h : Calls φ invocation target method args result lines hasValue) :
    ∃ front o, lines = front ++ [.op o] := by
  cases h with
  | newArray | arrayLength | named => exact ⟨_, _, rfl⟩
  | newObject => exact ⟨[], _, rfl⟩

/-- A block ends in an instruction. Only inside it can a label of a comparison stand. -/
theorem Emits.ends_op {i : Instr} {n n' : Nat} (h : Emits φ i lines n n') :
    ∃ front o, lines = front ++ [.op o] := by
  cases h with
  | assignElem | assignCell | ret | branchCompare | branchNot | branchValue | putField
  | discard => exact ⟨_, _, rfl⟩
  | retNone | goto | nop => exact ⟨[], _, rfl⟩
  | callVoid _ h => exact h.ends_op

theorem Expands.ends_op {code : Code} (h : Expands φ code lines) (hne : code ≠ []) :
    ∃ front o, lines ++ trailing code = front ++ [.op o] := by
  induction h with
  | nil => exact absurd rfl hne
  | @label rest lines name hrest ih =>
    cases rest with
    | nil =>
      -- nothing follows the label, so emission has put a line without effect there
      cases hrest with
      | nil => exact ⟨[.label name], .nop, rfl⟩
    | cons item rest =>
      obtain ⟨front, o, hends⟩ := ih (List.cons_ne_nil _ _)
      have htrailing : trailing (.label name :: item :: rest) = trailing (item :: rest) := by
        rw [trailing, trailing, List.getLast?_cons_cons]
      rw [htrailing, List.cons_append, hends]
      exact ⟨.label name :: front, o, rfl⟩
  | @instr i block _ _ rest lines hi hrest ih =>
    have htrailing : trailing (.instr i :: rest) = trailing rest := trailing_instr [] i rest
    rw [htrailing, List.append_assoc]
    cases rest with
    | nil =>
      cases hrest with
      | nil =>
        obtain ⟨front, o, rfl⟩ := hi.ends_op
        exact ⟨front, o, by simp [trailing]⟩
    | cons item rest =>
      obtain ⟨front, o, hends⟩ := ih (List.cons_ne_nil _ _)
      rw [hends, ← List.append_assoc]
      exact ⟨block ++ front, o, rfl⟩

end Blocks

theorem followed_of_ends_op {body front back : List Line} {name : String}
    (h : body = [] ∨ ∃ before o, body = before ++ [.op o])
    (hbody : body = front ++ .label name :: back) : ∃ o, Line.op o ∈ back := by
  rcases h with rfl | ⟨before, o, rfl⟩
  · simp at hbody
  · refine ⟨o, ?_⟩
    have hlast := congrArg List.getLast? hbody
    rw [List.getLast?_concat, List.getLast?_append, List.getLast?_cons] at hlast
    cases hback : back.getLast? with
    | none => simp [hback] at hlast
    | some line =>
      obtain rfl : Line.op o = line := by simpa [hback] using hlast
      exact List.mem_of_getLast? hback

/-! ### Methods -/

section Methods

variable {m : Flat.Method} {cls : Flat.Class} {table : SlotTable} {out : Method}

theorem lineJumps_trailing (code : Code) : lineJumps (trailing code) = [] := by
  unfold trailing
  split <;> rfl

theorem lineJumps_closing (m : Flat.Method) : lineJumps (closing m) = [] := by
  unfold closing
  split <;> rfl

theorem jumpsClosed_of_emit {header : Header} {code : Code}
    (hm : Flat.Method.assemble header code = .ok m) (hout : Method.emit cls m table = .ok out)
    (hcode : SelfContained code) (hlabels : (labelsOf code).Nodup) : JumpsClosed out.body := by
  obtain ⟨lines, hlines, hbody, hnodup⟩ := emit_expands hm hout hcode hlabels
  refine ⟨hnodup, fun front name back => followed_of_ends_op ?_, ?_⟩
  · rw [hbody]
    unfold closing
    split
    · exact .inr ⟨_, .ret, rfl⟩
    · rw [List.append_nil]
      by_cases hne : code = []
      · subst hne
        cases hlines with
        | nil => exact .inl rfl
      · exact .inr (hlines.ends_op hne)
  · intro name hname
    rw [hbody, lineJumps_append, lineJumps_append, lineJumps_trailing, lineJumps_closing,
      List.append_nil, List.append_nil] at hname
    rw [hbody, lineLabels_append, lineLabels_append]
    exact List.mem_append_left _ (List.mem_append_left _ (hlines.inside hcode name hname))

theorem jumpsClosed_of_lowersMethod {symbols : Source.SymbolTable} {decl : Source.Method}
    {f f' : Lowering.Fresh} (hm : Lowering.LowersMethod { symbols } decl f m f')
    (hout : Method.emit cls m table = .ok out) : JumpsClosed out.body := by
  cases hm with
  | @method result params body _ _ _ _ _ hbody hm =>
    have hlabels : (labelsOf (methodCode { symbols } decl result body)).Nodup := by
      rw [Lowering.labelsOf_methodCode]
      exact hbody.numbered.nodup
    exact jumpsClosed_of_emit hm hout hbody.selfContained.methodCode hlabels

theorem jumpsClosed_defaultConstructor {σ : Lowering.Scope}
    (hm : Lowering.defaultConstructor σ = .ok m) (hout : Method.emit cls m table = .ok out) :
    JumpsClosed out.body :=
  jumpsClosed_of_emit hm hout (.instr rfl) (by simp [Lowering.superInit])

end Methods

/-! ### Classes -/

/-- Jumps of compiled methods are closed and their labels are unique. -/
theorem compileUnit_jumps_closed (u : CompilationUnit) (limit : Option Nat) (a : Artifacts)
    (h : compileUnit u limit = .ok a) :
    ∃ asm : Class, unitAssembly u limit = .ok asm ∧ a.assembly = asm.text ∧
      asm.addsConstructor = false ∧ ∀ m ∈ asm.methods, JumpsClosed m.body := by
  obtain ⟨asm, hunit, htext⟩ := compileUnit_assembly h
  obtain ⟨cls, hcls, hasm⟩ := unitAssembly_stages hunit
  refine ⟨asm, hunit, htext, ?_, ?_⟩
  · rw [hasm.addsConstructor, Flat.Class.constructorCount, beq_eq_false_iff_ne, ne_eq,
      List.countP_eq_zero]
    intro hnone
    obtain ⟨m, hmem, hctor⟩ := List.any_eq_true.mp hcls.any_isConstructor
    exact hnone m hmem hctor
  · intro out hout
    obtain ⟨k, hlt, rfl⟩ := List.getElem_of_mem hout
    have hlt' : k < cls.methods.length := by
      rw [hasm.methods.length_eq]
      exact hlt
    obtain ⟨table, hemit⟩ := hasm.methods.get hlt' hlt
    rcases hcls.method_cases (List.getElem_mem hlt') with hctor | ⟨decl, _, f, f', hm⟩
    · exact jumpsClosed_defaultConstructor hctor hemit
    · exact jumpsClosed_of_lowersMethod hm hemit

/-- `boolean search(int n, boolean b) { while (0 < n && !b) { b = n == 7; n = n - 1; } return b; }` -/
def searchUnit : CompilationUnit where
  program.cls.name := "Finder"
  program.cls.methods := [
    { name := "search", access := .pub
      body := [
        .loop {} (.binary {} .and (.binary {} .lt (.intLit {} 0) (.ident {} "n"))
            (.not {} (.ident {} "b")))
          (.block {} [
            .assign {} "b" (.binary {} .eq (.ident {} "n") (.intLit {} 7)),
            .assign {} "n" (.binary {} .sub (.ident {} "n") (.intLit {} 1))]),
        .ret {} (some (.ident {} "b"))] }]
  symbols.className := "Finder"
  symbols.methods := [
    { name := "search", returnType := { name := "boolean" }
      parameters := [{ name := "n", type := { name := "int" } },
        { name := "b", type := { name := "boolean" } }] }]

def searchBody : List Line := [
  .label "whilecond_0", .op (.const 0), .op (.load .int 1), .op (.ifCompare .lt "cmp_true_0"),
  .op (.const 0), .op (.goto "cmp_end_1"), .label "cmp_true_0", .op (.const 1), .label "cmp_end_1",
  .op (.store .int 3), .op (.load .int 3), .op (.store .int 4), .op (.load .int 4),
  .op (.ifZero "and_end_1"), .op (.load .int 2), .op (.const 1), .op (.arith .xor),
  .op (.store .int 5), .op (.load .int 5), .op (.store .int 4), .label "and_end_1",
  .op (.load .int 4), .op (.ifNonzero "whilebody_0"), .op (.goto "whileend_0"),
  .label "whilebody_0", .op (.load .int 1), .op (.const 7), .op (.ifCompare .eq "cmp_true_2"),
  .op (.const 0), .op (.goto "cmp_end_3"), .label "cmp_true_2", .op (.const 1), .label "cmp_end_3",
  .op (.store .int 2), .op (.load .int 1), .op (.const 1), .op (.arith .sub), .op (.store .int 1),
  .op (.goto "whilecond_0"), .label "whileend_0", .op (.load .int 2), .op (.retValue .int)]

theorem compileUnit_jumps_closed_search :
    ∃ a asm m, compileUnit searchUnit none = .ok a ∧ a.assembly = Class.text asm ∧
      m ∈ asm.methods ∧ m.body = searchBody ∧ JumpsClosed m.body := by
  have hbody : (unitAssembly searchUnit none).toOption.bind (·.methods[1]?.map (·.body)) =
      some searchBody := by
    decide +kernel
  have hsome : (compileUnit searchUnit none).toOption.isSome = true := by decide +kernel
  cases ha : compileUnit searchUnit none with
  | error e => simp [ha, Except.toOption] at hsome
  | ok a =>
    obtain ⟨asm, hunit, htext, _, hclosed⟩ := compileUnit_jumps_closed searchUnit none a ha
    have hmethod : asm.methods[1]?.map (·.body) = some searchBody := by
      simpa [hunit, Except.toOption] using hbody
    obtain ⟨m, hm, hmbody⟩ := Option.map_eq_some_iff.mp hmethod
    have hmem := List.mem_of_getElem? hm
    exact ⟨a, asm, m, rfl, htext, hmem, hmbody, hclosed m hmem⟩

end JavaMinus.Assembly
