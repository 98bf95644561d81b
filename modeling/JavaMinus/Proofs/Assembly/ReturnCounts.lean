import JavaMinus.Proofs.Assembly.MethodEnds
import JavaMinus.Proofs.Assembly.Reading
import JavaMinus.Proofs.Lowering.Instructions
import JavaMinus.Proofs.MethodOrder

/-!
# Counting returns

A return statement becomes one return instruction, wherever it stands in the body, and a return
instruction becomes one return opcode. Two places add returns of their own: lowering closes the body of
a method without result, and emission closes a method that has no return at all. Lowered methods never
get both.
-/

namespace JavaMinus.Source

mutual

/-- The number of return statements, at any depth. -/
def Stmt.returnCount : Stmt → Nat
  | .ret _ _ => 1
  | .block _ body => bodyReturnCount body
  | .branch _ _ s none => s.returnCount
  | .branch _ _ s (some other) => s.returnCount + other.returnCount
  | .loop _ _ s => s.returnCount
  | .expr .. | .assign .. | .store .. => 0
termination_by structural s => s

def bodyReturnCount : List Stmt → Nat
  | [] => 0
  | s :: rest => s.returnCount + bodyReturnCount rest
termination_by structural body => body

end

end JavaMinus.Source

namespace JavaMinus.Flat

def Method.returnCount (m : Method) : Nat :=
  (m.steps.map (·.instr)).countP Instr.isReturn

theorem Method.hasReturn_eq_false_iff (m : Method) : m.hasReturn = false ↔ m.returnCount = 0 := by
  unfold hasReturn returnCount
  rw [List.countP_eq_zero, List.any_eq_false]
  simp

end JavaMinus.Flat

namespace JavaMinus.Lowering

open JavaMinus.Assembly (isVoid)
open JavaMinus.Flat (Ty Operand Instr Code instrsOf)
open JavaMinus.Source (SymbolTable bodyReturnCount)

/-! ### Lowered code -/

def returnsIn (code : Code) : Nat :=
  (instrsOf code).countP Instr.isReturn

section Code

variable {c d : Code} {i rhs : Instr} {dest : Operand} {n : Nat} {test : Code × Instr}

theorem returnsIn_append (c d : Code) : returnsIn (c ++ d) = returnsIn c + returnsIn d := by
  simp [returnsIn]

theorem returnsIn_snoc (h : i.isReturn = false) : returnsIn (c ++ [.instr i]) = returnsIn c := by
  simp [returnsIn, h]

theorem returnsIn_logical {op : Source.BinOp} {l r : Lowered} :
    returnsIn (logicalCode op n dest l r) = returnsIn l.code + returnsIn r.code := by
  simp [returnsIn, Instr.isReturn, Instr.assignTo]

theorem returnsIn_branch :
    returnsIn (branchCode n test c d) = returnsIn test.1 + returnsIn d + returnsIn c := by
  simp [returnsIn, Instr.isReturn, Nat.add_assoc]

theorem returnsIn_loop : returnsIn (loopCode n test c) = returnsIn test.1 + returnsIn c := by
  simp [returnsIn, Instr.isReturn]

end Code

section Rules

variable {σ : Scope} {f f' : Fresh}

theorem LowersName.returnsIn {name : String} {l : Lowered} (h : LowersName σ name f l f') :
    returnsIn l.code = 0 := by
  cases h with
  | slot | cls | field => rfl

theorem LowersIndex.returnsIn {idx l : Lowered} (h : LowersIndex σ idx f l f')
    (hidx : Lowering.returnsIn idx.code = 0) : Lowering.returnsIn l.code = 0 := by
  cases h with
  | literal => exact (returnsIn_snoc rfl).trans hidx
  | other => exact hidx

/-- Expressions do not return. -/
theorem Lowers.returnsIn {p : Piece} (h : Lowers σ p f f') : returnsIn p.code = 0 := by
  induction h with
  | int | bool | self | selfReceiver | classReceiver | noArgs | newObject => rfl
  | name h => exact h.returnsIn
  | paren _ ih => exact ih
  | valueReceiver _ _ _ _ _ ih => exact ih
  | not _ ih | length _ ih | callValue _ _ ih | newArray _ ih => exact (returnsIn_snoc rfl).trans ih
  | logical _ _ _ ihl ihr => exact returnsIn_logical.trans (congrArg₂ (· + ·) ihl ihr)
  | binary _ _ _ ihl ihr =>
    refine (returnsIn_snoc rfl).trans ((returnsIn_append _ _).trans ?_)
    exact congrArg₂ (· + ·) ihl ihr
  | index _ _ _ _ hidx iha ihi =>
    refine (returnsIn_snoc rfl).trans ((returnsIn_append _ _).trans ?_)
    exact congrArg₂ (· + ·) iha (hidx.returnsIn ihi)
  | arg _ _ _ ihe ihrest => exact (returnsIn_append _ _).trans (congrArg₂ (· + ·) ihe ihrest)
  | call _ _ _ ihr ihargs => exact (returnsIn_append _ _).trans (congrArg₂ (· + ·) ihr ihargs)

theorem LowersCond.returnsIn {cond : Source.Expr} {test : Code × Instr}
    (h : LowersCond σ cond test f f') : Lowering.returnsIn test.1 = 0 := by
  cases h with
  | value h => exact h.returnsIn
  | direct h _ => exact (returnsIn_snoc rfl).symm.trans h.returnsIn

/-- Lowering keeps the returns of a statement. -/
theorem LowersStmt.returnsIn {s : Source.Stmt} {code : Code} (h : LowersStmt σ s f code f') :
    returnsIn code = s.returnCount := by
  induction h with
  | done | ret | assignNew => rfl
  | seq _ _ ihs ihrest => exact (returnsIn_append _ _).trans (congrArg₂ (· + ·) ihs ihrest)
  | callStmt _ h =>
    obtain ⟨_, _, _, _, rfl⟩ := h.exists_call
    exact (returnsIn_snoc rfl).trans h.returnsIn
  | exprStmt _ h => exact h.returnsIn
  | assignCall _ _ h | copy _ h _ | putField _ _ h => exact (returnsIn_snoc rfl).trans h.returnsIn
  | @retarget _ _ _ dest code temp rhs _ _ _ h =>
    have hcode : Lowering.returnsIn (code ++ [.instr (.assignTo temp rhs)]) = 0 := h.returnsIn
    rw [returnsIn_snoc rfl] at hcode ⊢
    exact hcode
  | @store _ _ _ _ _ _ _ _ l _ _ _ _ _ harr _ _ hi hidx hv =>
    have hvalue : Lowering.returnsIn l.code = 0 := hv.returnsIn
    rw [returnsIn_snoc rfl, returnsIn_append, returnsIn_append, harr.returnsIn,
      hidx.returnsIn hi.returnsIn, hvalue]
    rfl
  | retValue h =>
    rw [returnsIn_append]
    exact congrArg (· + 1) h.returnsIn
  | branch hcond _ _ ihd ihc =>
    rw [returnsIn_branch, hcond.returnsIn, ihd, ihc, Nat.zero_add]
    exact Nat.add_comm _ _
  | oneArmed hcond _ ihc =>
    rw [returnsIn_branch, hcond.returnsIn, ihc]
    exact Nat.zero_add _
  | loop hcond _ ihc =>
    rw [returnsIn_loop, hcond.returnsIn, ihc]
    exact Nat.zero_add _

end Rules

/-! ### Lowered methods -/

section Methods

variable {symbols : SymbolTable} {decl : Source.Method} {m : Flat.Method}

theorem endsInReturn_append {c : Code} (d : Code) (h : endsInReturn c = false) :
    endsInReturn (c ++ d) = endsInReturn d := by
  cases d with
  | nil => rw [List.append_nil, h, endsInReturn, List.getLast?_nil]
  | cons item rest =>
    unfold endsInReturn
    rw [List.getLast?_append_of_ne_nil _ (List.cons_ne_nil item rest)]

theorem methodCode_closed (σ : Scope) (decl : Source.Method) (result : Ty) (body : Code) :
    ∃ start, returnsIn start = 0 ∧ methodCode σ decl result body = start ++ body ++
      if result = .void && !endsInReturn body then [.instr (.ret none)] else [] := by
  obtain ⟨start, hstart, hnone, hends⟩ : ∃ start,
      (if decl.isConstructor then [superInit (methodScope σ decl result)] else []) = start ∧
        returnsIn start = 0 ∧ endsInReturn start = false := by
    cases decl.isConstructor with
    | true | false => exact ⟨_, rfl, rfl, rfl⟩
  refine ⟨start, hnone, ?_⟩
  unfold methodCode closeBody
  rw [hstart, endsInReturn_append body hends]
  split
  · rfl
  · exact (List.append_nil _).symm

theorem instrs_closed {header : Flat.Header} {code : Code} {closed : Bool}
    (hm : Flat.Method.assemble header (code ++ if closed then [.instr (.ret none)] else []) = .ok m) :
    ∃ front, front.countP Instr.isReturn = returnsIn code ∧
      m.steps.map (·.instr) = front ++ if closed then [.ret none] else [] := by
  cases closed with
  | true =>
    refine ⟨instrsOf code, rfl, ?_⟩
    rw [Flat.Method.map_instr hm]
    exact Flat.map_instr_attachLabels_snoc code (.ret none) []
  | false =>
    obtain ⟨extra, hinstrs, hextra⟩ := Flat.Method.instrs_of_assemble hm
    refine ⟨instrsOf code ++ extra, ?_, by simpa using hinstrs⟩
    rw [List.countP_append]
    rcases hextra with rfl | rfl <;> rfl

/-- The returns of a lowered method are those of its tree. Behind them stands one without a value if
the method has no result or is a constructor, and the code of its body does not end in a return. -/
def KeepsReturns (symbols : SymbolTable) (decl : Source.Method) (m : Flat.Method) : Prop :=
  ∃ f f' result body, Yields (lowerMethod { symbols } decl) f m f' ∧
    methodResult { symbols } decl = .ok result ∧
    Yields (lowerStmts (methodScope { symbols } decl result) decl.body) f body f' ∧
    ∃ front, front.countP Instr.isReturn = bodyReturnCount decl.body ∧
      m.steps.map (·.instr) = front ++
        if (isVoid symbols decl || decl.isConstructor) && !endsInReturn body then [.ret none] else []

theorem LoweredFrom.keepsReturns (h : LoweredFrom symbols decl m) : KeepsReturns symbols decl m := by
  obtain ⟨f, f', h⟩ := h
  obtain ⟨result, params, body, hdecl, hresult, _, hbody, hm⟩ := lowerMethod_stages h
  refine ⟨f, f', result, body, h, hresult, hbody, ?_⟩
  have hvoid : decide (result = .void) = (isVoid symbols decl || decl.isConstructor) := by
    rw [Bool.eq_iff_iff, decide_eq_true_eq]
    exact Assembly.methodResult_eq_void hdecl hresult
  obtain ⟨start, hstart, hcode⟩ := methodCode_closed { symbols } decl result body
  rw [hcode, hvoid] at hm
  obtain ⟨front, hfront, hinstrs⟩ := instrs_closed hm
  refine ⟨front, ?_, hinstrs⟩
  rw [hfront, returnsIn_append, hstart, Nat.zero_add]
  exact (lowersStmts_of_yields _ _ {} _ _ _ hbody).returnsIn

/-- The last instruction of a lowered method without result is a return. -/
theorem LowersMethod.endsInReturn {σ : Scope} {f f' : Fresh} (h : LowersMethod σ decl f m f')
    (hvoid : m.returnType = .void) : m.endsInReturn = true := by
  cases h with
  | @method result params body _ _ _ _ _ _ hm =>
    rw [(Flat.Method.steps_of_assemble hm).1] at hvoid
    obtain ⟨c, value, hcode⟩ : ∃ c value,
        methodCode σ decl result body = c ++ [.instr (.ret value)] := by
      cases hvoid
      exact closeBody_void _
    rw [hcode] at hm
    have hlast : (m.steps.map (·.instr)).getLast? = some (.ret value) := by
      rw [Flat.Method.map_instr hm, Flat.map_instr_attachLabels_snoc, List.getLast?_concat]
    rw [List.getLast?_map] at hlast
    obtain ⟨s, hs, hinstr⟩ := Option.map_eq_some_iff.mp hlast
    rw [Flat.Method.endsInReturn, hs, Option.any_some, hinstr]
    rfl

end Methods

end JavaMinus.Lowering

namespace JavaMinus.Assembly

open JavaMinus.Flat (Operand Instr Invocation)
open JavaMinus.Lowering (LoweredFrom KeepsReturns)
open JavaMinus.Source (CompilationUnit)

/-! ### Emitted lines -/

def Line.isReturn : Line → Bool
  | .label _ => false
  | .op o => o.isReturn

section Emitted

variable {φ : Frame} {lines : List Line}

theorem Loads.no_return {op : Operand} (h : Loads φ op lines) :
    lines.countP Line.isReturn = 0 := by
  induction h with
  | lit | self | cell => rfl
  | elem ty _ _ iha ihi => simp [iha, ihi, Line.isReturn, Op.isReturn]

theorem LoadsAll.no_return {ops : List Operand} (h : LoadsAll φ ops lines) :
    lines.countP Line.isReturn = 0 := by
  induction h with
  | nil => rfl
  | cons hop _ ih => rw [List.countP_append, hop.no_return, ih]

theorem Receives.no_return {dispatch : Dispatch} {target : Operand}
    (h : Receives φ dispatch target lines) : lines.countP Line.isReturn = 0 := by
  cases h with
  | static => rfl
  | value _ hload => exact hload.no_return

theorem Calls.no_return {invocation : Invocation} {target : Operand} {method : Option String}
    {args : List Operand} {result : Flat.Ty} {hasValue : Bool}
    (h : Calls φ invocation target method args result lines hasValue) :
    lines.countP Line.isReturn = 0 := by
  cases h with
  | newArray _ _ _ hsize => simp [hsize.no_return, Line.isReturn, Op.isReturn]
  | newObject => rfl
  | arrayLength _ _ _ htarget => simp [htarget.no_return, Line.isReturn, Op.isReturn]
  | named _ hreceiver hargs =>
    simp [hreceiver.no_return, hargs.no_return, Line.isReturn, Op.isReturn]

theorem Pushes.no_return {i : Instr} {n n' : Nat} (h : Pushes φ i lines n n') :
    i.isReturn = false ∧ lines.countP Line.isReturn = 0 := by
  cases h with
  | single _ h => exact ⟨rfl, h.no_return⟩
  | arith _ _ hl hr => exact ⟨rfl, by simp [hl.no_return, hr.no_return, Line.isReturn, Op.isReturn]⟩
  | compare _ _ hl hr =>
    exact ⟨rfl, by simp [hl.no_return, hr.no_return, compareLines, Line.isReturn, Op.isReturn]⟩
  | not _ h => exact ⟨rfl, by simp [h.no_return, Line.isReturn, Op.isReturn]⟩
  | getField _ hobject => exact ⟨rfl, by simp [hobject.no_return, Line.isReturn, Op.isReturn]⟩
  | call _ hcalls => exact ⟨rfl, hcalls.no_return⟩

theorem Emits.returns {i : Instr} {n n' : Nat} (h : Emits φ i lines n n') :
    lines.countP Line.isReturn = [i].countP Instr.isReturn := by
  cases h with
  | assignElem _ _ ha hi hv =>
    simp [ha.no_return, hi.no_return, hv.no_return.2, Line.isReturn, Op.isReturn, Instr.isReturn]
  | assignCell _ _ _ hv => simp [hv.no_return.2, Line.isReturn, Op.isReturn, Instr.isReturn]
  | retNone | nop | goto => rfl
  | ret _ hload | branchNot _ _ hload =>
    simp [hload.no_return, Line.isReturn, Op.isReturn, Instr.isReturn]
  | branchCompare _ _ _ hl hr | putField _ hl hr =>
    simp [hl.no_return, hr.no_return, Line.isReturn, Op.isReturn, Instr.isReturn]
  | branchValue _ hv => simp [hv.no_return.2, Line.isReturn, Op.isReturn, Instr.isReturn]
  | callVoid _ hcalls => simp [hcalls.no_return, Instr.isReturn]
  | discard hv => simp [hv.no_return.1, hv.no_return.2, Line.isReturn, Op.isReturn]

/-- A block of lines has a return if it comes from a return. -/
theorem EmitsAll.returns {steps : List Flat.Step} {blocks : List (List Line)} {σ σ' : EmitState}
    (h : EmitsAll φ steps blocks σ σ') :
    (layout steps blocks).countP Line.isReturn = (steps.map (·.instr)).countP Instr.isReturn := by
  induction h with
  | nil => rfl
  | @cons s rest block blocks σ σ₁ σ₂ hs _ ih =>
    have hlabels : (s.labels.map Line.label).countP Line.isReturn = 0 := by
      simp [List.countP_eq_zero, Line.isReturn]
    rw [layout, List.countP_append, List.countP_append, hlabels, (instruction_emits hs).returns, ih,
      Nat.zero_add, List.map_cons, ← List.countP_append]
    rfl

end Emitted

/-! ### Emitted methods -/

/-- The returns of an emitted method are those of its flat code, or the one line behind them if there
are none. -/
structure EmitsReturns (cls : Flat.Class) (m : Flat.Method) (out : Method) : Prop where
  body : ∃ front, front.countP Line.isReturn = m.returnCount ∧
    out.body = front ++ if m.returnCount = 0 then [.op .ret] else []
  text : Named cls m → readBody? (String.join (out.body.map Line.text)) = some out.body

theorem closing_of_lowered {m : Flat.Method}
    (h : m.returnType = .void → m.endsInReturn = true ∨ m.returnCount = 0) :
    closing m = if m.returnCount = 0 then [.op .ret] else [] := by
  unfold closing
  by_cases hnone : m.returnCount = 0
  · simp [hnone, m.hasReturn_eq_false_iff.mpr hnone]
  · have hreturn : m.hasReturn = true := by
      rw [← Bool.not_eq_false, m.hasReturn_eq_false_iff]
      exact hnone
    by_cases hvoid : m.returnType = .void
    · simp [hnone, hreturn, (h hvoid).resolve_right hnone]
    · simp [hnone, hreturn, hvoid]

theorem emitsReturns {cls : Flat.Class} {m : Flat.Method} {table : SlotTable} {out : Method}
    (h : m.returnType = .void → m.endsInReturn = true ∨ m.returnCount = 0)
    (hout : Method.emit cls m table = .ok out) : EmitsReturns cls m out := by
  obtain ⟨blocks, σ, hblocks, hbody⟩ := emit_body hout
  rw [closing_of_lowered h] at hbody
  exact ⟨⟨_, hblocks.returns, hbody⟩, readBody?_emit hout⟩

theorem returnCount_defaultConstructor {σ : Lowering.Scope} {m : Flat.Method}
    (h : Lowering.defaultConstructor σ = .ok m) : m.returnCount = 0 := by
  unfold Flat.Method.returnCount
  rw [Flat.Method.map_instr h]
  rfl

/-- Returns are neither lost nor doubled. The methods of a lowered class are those declared in their
order, behind a constructor that may be added and has no return. -/
theorem returns_counted (u : CompilationUnit) (cls : Flat.Class) (h : lowerUnit u = .ok cls) :
    (∃ extra ms, cls.methods = extra ++ ms ∧ (∀ m ∈ extra, m.returnCount = 0) ∧
      List.Forall₂ (KeepsReturns u.symbols) u.program.cls.methods ms) ∧
    ∀ m ∈ cls.methods, ∀ table out, Method.emit cls m table = .ok out → EmitsReturns cls m out := by
  obtain ⟨extra, ms, _, hmethods, _, hextra, hms, _⟩ :=
    Lowering.lowerProgram_reordered (lowerProgram_of_lowerUnit h) (.refl _)
  refine ⟨⟨extra, ms, hmethods, ?_, hms.imp fun _ _ hm => hm.keepsReturns⟩, ?_⟩
  · exact fun m hm => returnCount_defaultConstructor (hextra m hm)
  · intro m hm table out hout
    refine emitsReturns (fun hvoid => ?_) hout
    rcases (lowersClass_of_lowerUnit h).method_cases hm with hctor | ⟨decl, _, f, f', hlow⟩
    · exact .inr (returnCount_defaultConstructor hctor)
    · exact .inl (hlow.endsInReturn hvoid)

/-- `void wait(boolean b) { while (b) { if (b) return; } }` -/
def waitUnit : CompilationUnit where
  program.cls.name := "Gate"
  program.cls.methods := [
    { name := "wait", access := .pub
      body := [.loop {} (.ident {} "b") (.block {} [.branch {} (.ident {} "b") (.ret {} none) none])] }]
  symbols.className := "Gate"
  symbols.methods := [
    { name := "wait", returnType := { name := "void" }
      parameters := [{ name := "b", type := { name := "boolean" } }] }]

/-- The return inside the loop stays, and one is added behind the loop. -/
theorem returns_counted_wait :
    ∃ cls m out, lowerUnit waitUnit = .ok cls ∧ m ∈ cls.methods ∧ m.returnCount = 2 ∧
      (∃ decl ∈ waitUnit.program.cls.methods, KeepsReturns waitUnit.symbols decl m) ∧
      Method.emit cls m (SlotTable.oneSlotEach m) = .ok out ∧ EmitsReturns cls m out := by
  have hlowered : (lowerUnit waitUnit).toOption.any (fun cls =>
      cls.methods.map (·.returnCount) = [0, 2] &&
        cls.methods.all fun m => (Method.emit cls m (SlotTable.oneSlotEach m)).toOption.isSome) =
      true := by
    decide +kernel
  cases hcls : lowerUnit waitUnit with
  | error e => simp [hcls, Except.toOption] at hlowered
  | ok cls =>
    obtain ⟨⟨extra, ms, hmethods, hextra, hkept⟩, hemitted⟩ := returns_counted waitUnit cls hcls
    simp only [hcls, Except.toOption, Option.any_some, Bool.and_eq_true, decide_eq_true_eq,
      List.all_eq_true] at hlowered
    obtain ⟨hcounts, hemits⟩ := hlowered
    cases hkept with
    | @cons decl m _ ms hm hnil =>
      cases hnil with
      | nil =>
        have hmem : m ∈ cls.methods := by simp [hmethods]
        have hcount : m.returnCount = 2 := by
          have hlast := congrArg List.getLast? hcounts
          rw [hmethods, List.map_append] at hlast
          simpa using hlast
        cases hout : Method.emit cls m (SlotTable.oneSlotEach m) with
        | error e =>
          have hsome := hemits m hmem
          simp [hout] at hsome
        | ok out =>
          exact ⟨cls, m, out, rfl, hmem, hcount, ⟨_, List.mem_singleton_self _, hm⟩, hout,
            hemitted m hmem _ out hout⟩

end JavaMinus.Assembly
