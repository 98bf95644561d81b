import JavaMinus.Compile

/-!
# Parentheses, blocks and spans

Parentheses group operands, blocks group statements, and spans tell where a node came from. None of
them has a meaning of its own. The bare form of a tree has no parentheses, no blocks but the bodies of
branches and loops, and empty spans. Lowering gives the same for a tree and for its bare form, errors
and counters included, so units with the same bare form compile alike.
-/

namespace JavaMinus.Source

/-! ### Bare trees -/

mutual

/-- The expression without parentheses and spans. -/
def Expr.bare : Expr → Expr
  | .intLit _ v => .intLit {} v
  | .boolLit _ v => .boolLit {} v
  | .ident _ name => .ident {} name
  | .self _ => .self {}
  | .paren _ e => e.bare
  | .not _ e => .not {} e.bare
  | .binary _ op lhs rhs => .binary {} op lhs.bare rhs.bare
  | .index _ array index => .index {} array.bare index.bare
  | .length _ array => .length {} array.bare
  | .call _ receiver method args => .call {} receiver.bare method (bareArgs args)
  | .newArray _ size => .newArray {} size.bare
  | .newObject _ cls => .newObject {} cls
termination_by structural e => e

def bareArgs : List Expr → List Expr
  | [] => []
  | e :: rest => e.bare :: bareArgs rest
termination_by structural args => args

end

mutual

/-- The statements that a statement stands for. Those of a block take its place. The body of a branch or
loop is a list of statements; a branch that is not there has the empty one. -/
def Stmt.bare : Stmt → List Stmt
  | .block _ body => bareBody body
  | .branch _ cond thenBody none =>
    [.branch {} cond.bare (.block {} thenBody.bare) (some (.block {} []))]
  | .branch _ cond thenBody (some elseBody) =>
    [.branch {} cond.bare (.block {} thenBody.bare) (some (.block {} elseBody.bare))]
  | .loop _ cond body => [.loop {} cond.bare (.block {} body.bare)]
  | .expr _ e => [.expr {} e.bare]
  | .assign _ target value => [.assign {} target value.bare]
  | .store _ target index value => [.store {} target index.bare value.bare]
  | .ret _ value => [.ret {} (value.map Expr.bare)]
termination_by structural s => s

def bareBody : List Stmt → List Stmt
  | [] => []
  | s :: rest => s.bare ++ bareBody rest
termination_by structural body => body

end

def Method.bare (m : Method) : Method :=
  { m with span := {}, body := bareBody m.body }

def Class.bare (c : Class) : Class :=
  { c with span := {}, methods := c.methods.map Method.bare }

def Import.bare (i : Import) : Import :=
  { i with span := {} }

def Program.bare (p : Program) : Program where
  imports := p.imports.map Import.bare
  cls := p.cls.bare

end JavaMinus.Source

namespace JavaMinus.Lowering

open JavaMinus.Source (Expr Stmt Program SymbolTable bareArgs bareBody)
open JavaMinus.Flat (Ty Operand Code)

/-! ### Expressions -/

/-- A receiver is told apart by the node below its parentheses. -/
theorem receiverOf_bare (σ : Scope) (method : String) (lowered : LowerM Lowered) :
    ∀ e : Expr, receiverOf σ method e.bare lowered = receiverOf σ method e lowered
  | .paren _ e => receiverOf_bare σ method lowered e
  | .intLit .. | .boolLit .. | .ident .. | .self .. | .not .. | .binary .. | .index .. | .length ..
  | .call .. | .newArray .. | .newObject .. => rfl

mutual

theorem lowerExpr_bare (σ : Scope) :
    ∀ (e : Expr) (hint : Option Ty), lowerExpr σ e.bare hint = lowerExpr σ e hint
  | .intLit .., _ | .boolLit .., _ | .ident .., _ | .self .., _ | .newObject .., _ => rfl
  | .paren _ e, hint => lowerExpr_bare σ e hint
  | .not _ e, _ | .length _ e, _ | .newArray _ e, _ => by
    simp only [Expr.bare, lowerExpr, lowerExpr_bare σ e]
  | .binary _ _ lhs rhs, _ | .index _ lhs rhs, _ => by
    simp only [Expr.bare, lowerExpr, lowerExpr_bare σ lhs, lowerExpr_bare σ rhs]
  | .call _ receiver method args, _ => by
    have hargs : lowerArgs σ (bareArgs args) = lowerArgs σ args := funext (lowerArgs_bare σ args)
    simp only [Expr.bare, lowerExpr, receiverOf_bare, lowerExpr_bare σ receiver, hargs]

theorem lowerArgs_bare (σ : Scope) :
    ∀ (es : List Expr) (params : List Source.TypeName),
      lowerArgs σ (bareArgs es) params = lowerArgs σ es params
  | [], _ => rfl
  | e :: rest, _ => by
    simp only [bareArgs, lowerArgs, lowerExpr_bare σ e, lowerArgs_bare σ rest]

end

theorem lowerCall_bare (σ : Scope) (receiver : Expr) (method : String) (args : List Expr)
    (usage : CallUse) :
    lowerCall σ receiver.bare method (bareArgs args) usage = lowerCall σ receiver method args usage := by
  have hargs : lowerArgs σ (bareArgs args) = lowerArgs σ args := funext (lowerArgs_bare σ args)
  rw [lowerCall, receiverOf_bare, lowerExpr_bare, hargs, lowerCall]

theorem lowerCondition_bare (σ : Scope) (cond : Expr) :
    lowerCondition σ cond.bare = lowerCondition σ cond := by
  rw [lowerCondition, lowerExpr_bare, lowerCondition]

/-! ### Statements -/

section Statements

variable (σ : Scope)

theorem lowerExprStmt_bare : ∀ e : Expr, lowerExprStmt σ e.bare = lowerExprStmt σ e
  | .paren _ e => lowerExprStmt_bare e
  | .call _ receiver method args => by
    simp only [Expr.bare, lowerExprStmt, Expr.unparen, lowerCall_bare]
  | .intLit .. | .boolLit .. | .ident .. | .self .. | .not .. | .binary .. | .index .. | .length ..
  | .newArray .. | .newObject .. => by
    -- any other expression is lowered as it stands
    change (do return (← lowerExpr σ (Expr.bare _) none).code) = _
    rw [lowerExpr_bare]
    rfl

theorem assignToSlot_bare (dest : Operand) :
    ∀ value : Expr, assignToSlot σ dest value.bare = assignToSlot σ dest value
  | .paren span value => by
    rw [Expr.bare, assignToSlot_bare dest value]
    -- parentheses count neither for the form of the value nor for its code
    unfold assignToSlot
    rw [Expr.unparen, lowerExpr]
  | .call _ receiver method args => by
    simp only [Expr.bare, assignToSlot, Expr.unparen, lowerCall_bare]
  | .newObject .. => rfl
  | .intLit .. | .boolLit .. | .ident .. | .self .. | .not .. | .binary .. | .index .. | .length ..
  | .newArray .. => by
    unfold assignToSlot
    rw [lowerExpr_bare]
    rfl

theorem lowerAssign_bare (target : String) (value : Expr) :
    lowerAssign σ target value.bare = lowerAssign σ target value := by
  simp only [lowerAssign, assignToSlot_bare, lowerExpr_bare]

theorem lowerStore_bare (target : String) (index value : Expr) :
    lowerStore σ target index.bare value.bare = lowerStore σ target index value := by
  simp only [lowerStore, lowerExpr_bare]

theorem lowerReturn_bare (value : Option Expr) :
    lowerReturn σ (value.map Expr.bare) = lowerReturn σ value := by
  cases value with
  | none => rfl
  | some e => simp only [Option.map_some, lowerReturn, lowerExpr_bare]

theorem lowerStmts_append (front back : List Stmt) :
    lowerStmts σ (front ++ back) = do
      let c ← lowerStmts σ front
      let d ← lowerStmts σ back
      return c ++ d := by
  induction front with
  | nil => simp only [List.nil_append, lowerStmts, pure_bind, bind_pure]
  | cons s rest ih =>
    simp only [List.cons_append, lowerStmts, ih, bind_assoc, pure_bind, List.append_assoc]

theorem lowerStmts_singleton (s : Stmt) : lowerStmts σ [s] = lowerStmt σ s := by
  simp only [lowerStmts, pure_bind, List.append_nil, bind_pure]

end Statements

mutual

/-- A statement is lowered to the code of the statements that it stands for, in their order. -/
theorem lowerStmt_bare (σ : Scope) : ∀ s : Stmt, lowerStmts σ s.bare = lowerStmt σ s
  | .block _ body => by
    rw [Stmt.bare, lowerStmt]
    exact lowerStmts_bare σ body
  | .branch _ cond thenBody none => by
    simp only [Stmt.bare, lowerStmts_singleton, lowerStmt, lowerCondition_bare,
      lowerStmt_bare σ thenBody, lowerStmts, pure_bind]
  | .branch _ cond thenBody (some elseBody) => by
    simp only [Stmt.bare, lowerStmts_singleton, lowerStmt, lowerCondition_bare,
      lowerStmt_bare σ thenBody, lowerStmt_bare σ elseBody]
  | .loop _ cond body => by
    simp only [Stmt.bare, lowerStmts_singleton, lowerStmt, lowerCondition_bare,
      lowerStmt_bare σ body]
  | .expr _ e => by
    rw [Stmt.bare, lowerStmts_singleton, lowerStmt, lowerExprStmt_bare, lowerStmt]
  | .assign _ target value => by
    rw [Stmt.bare, lowerStmts_singleton, lowerStmt, lowerAssign_bare, lowerStmt]
  | .store _ target index value => by
    rw [Stmt.bare, lowerStmts_singleton, lowerStmt, lowerStore_bare, lowerStmt]
  | .ret _ value => by
    rw [Stmt.bare, lowerStmts_singleton, lowerStmt, lowerReturn_bare, lowerStmt]

theorem lowerStmts_bare (σ : Scope) :
    ∀ body : List Stmt, lowerStmts σ (bareBody body) = lowerStmts σ body
  | [] => rfl
  | s :: rest => by
    rw [bareBody, lowerStmts_append, lowerStmt_bare σ s, lowerStmts_bare σ rest, lowerStmts]

end

/-! ### Classes -/

theorem lowerMethod_bare (σ : Scope) (decl : Source.Method) :
    lowerMethod σ decl.bare = lowerMethod σ decl := by
  simp only [lowerMethod, Source.Method.bare, lowerStmts_bare]
  rfl

theorem lowerMethods_bare (σ : Scope) (decls : List Source.Method) :
    lowerMethods σ (decls.map Source.Method.bare) = lowerMethods σ decls := by
  have hmethods : (decls.map Source.Method.bare).mapM (lowerMethod σ) = decls.mapM (lowerMethod σ) := by
    rw [List.mapM_map]
    congr 1
    funext decl
    exact lowerMethod_bare σ decl
  rw [lowerMethods, hmethods, List.any_map, lowerMethods]
  rfl

theorem classImports_bare (program : Program) (symbols : SymbolTable) :
    classImports program.bare symbols = classImports program symbols := by
  rw [classImports, Program.bare, List.foldl_map, classImports]
  rfl

theorem lowerProgram_bare (program : Program) (symbols : SymbolTable) :
    lowerProgram program.bare symbols = lowerProgram program symbols := by
  have hcount : program.bare.cls.methods.countP (·.isConstructor) =
      program.cls.methods.countP (·.isConstructor) := by
    rw [Program.bare, Source.Class.bare, List.countP_map]
    rfl
  simp only [lowerProgram, hcount, classImports_bare]
  simp only [Program.bare, Source.Class.bare, lowerMethods_bare]

end JavaMinus.Lowering

namespace JavaMinus

open JavaMinus.Source (CompilationUnit)

theorem lowerUnit_of_bare {u v : CompilationUnit} (hsymbols : u.symbols = v.symbols)
    (herrors : u.errorCount = v.errorCount) (htree : u.program.bare = v.program.bare) :
    lowerUnit u = lowerUnit v := by
  have hprogram : Lowering.lowerProgram u.program u.symbols =
      Lowering.lowerProgram v.program v.symbols :=
    calc Lowering.lowerProgram u.program u.symbols
      _ = Lowering.lowerProgram u.program.bare u.symbols := (Lowering.lowerProgram_bare _ _).symm
      _ = Lowering.lowerProgram v.program.bare v.symbols := by rw [htree, hsymbols]
      _ = Lowering.lowerProgram v.program v.symbols := Lowering.lowerProgram_bare _ _
  unfold lowerUnit
  rw [herrors, hprogram]

/-- Parentheses, blocks and spans are invisible. Two units with the same symbols and as many error
reports, whose trees have the same bare form, compile to the same texts or fail with the same error. -/
theorem compileUnit_bare_eq (u v : CompilationUnit) (limit : Option Nat)
    (hsymbols : u.symbols = v.symbols) (herrors : u.errorCount = v.errorCount)
    (htree : u.program.bare = v.program.bare) : compileUnit u limit = compileUnit v limit := by
  unfold compileUnit
  rw [lowerUnit_of_bare hsymbols herrors htree]

/-- A class with one method `grow`, of one parameter `n`. -/
def growUnit (body : List Source.Stmt) : CompilationUnit where
  program.cls.name := "Grower"
  program.cls.methods := [{ name := "grow", access := .pub, body := body }]
  symbols.className := "Grower"
  symbols.methods := [
    { name := "grow", returnType := { name := "int" }
      parameters := [{ name := "n", type := { name := "int" } }] }]

def growBody : List Source.Stmt := [
  .loop {} (.binary {} .lt (.ident {} "n") (.intLit {} 9))
    (.assign {} "n" (.call {} (.self {}) "grow" [.ident {} "n"])),
  .expr {} (.call {} (.self {}) "grow" [.intLit {} 1]),
  .ret {} (some (.ident {} "n"))]

def groupedGrowBody : List Source.Stmt := [
  .block ⟨0, 40⟩ [],
  .loop ⟨1, 20⟩ (.paren ⟨2, 7⟩ (.binary ⟨3, 6⟩ .lt (.ident {} "n") (.intLit {} 9)))
    (.block ⟨8, 20⟩ [.block ⟨9, 19⟩ [
      .assign ⟨10, 18⟩ "n"
        (.paren ⟨11, 18⟩ (.call ⟨12, 17⟩ (.paren ⟨13, 14⟩ (.self {})) "grow"
          [.paren ⟨15, 16⟩ (.ident {} "n")]))]]),
  .block ⟨21, 40⟩ [
    .expr ⟨22, 30⟩ (.paren ⟨23, 30⟩ (.call {} (.self {}) "grow" [.intLit {} 1])),
    .ret ⟨31, 39⟩ (some (.paren ⟨32, 38⟩ (.paren ⟨33, 37⟩ (.ident {} "n"))))]]

/-- Calls in parentheses keep the forms that calls have as statements and as assigned values. -/
theorem compileUnit_bare_eq_grow : ∃ texts,
    compileUnit (growUnit groupedGrowBody) (some 0) = .ok texts ∧
      compileUnit (growUnit growBody) (some 0) = .ok texts := by
  have hsame := compileUnit_bare_eq (growUnit groupedGrowBody) (growUnit growBody) (some 0) rfl rfl rfl
  have hcompiles : (compileUnit (growUnit growBody) (some 0)).toOption.isSome = true := by
    decide +kernel
  cases htexts : compileUnit (growUnit growBody) (some 0) with
  | error e => simp [htexts, Except.toOption] at hcompiles
  | ok texts => exact ⟨texts, hsame.trans htexts, rfl⟩

end JavaMinus
