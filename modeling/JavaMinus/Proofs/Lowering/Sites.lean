import JavaMinus.Proofs.Lowering.ClassDerivation
import JavaMinus.Proofs.Lowering.Types

/-!
# Calls and allocations

The calls and allocations of a tree stand in its flat code in the order of evaluation, each as one
instruction. What the instruction passes on has the types that the tree gives its arguments, and a
call of a declared method has the declared result type, unless the result goes straight into a
variable: then the type of the variable decides.
-/

namespace JavaMinus

/-- The ends of a list that start with an element of this kind, longest first. -/
def tailsFrom {α : Type} (p : α → Bool) : List α → List (List α)
  | [] => []
  | a :: rest => if p a then (a :: rest) :: tailsFrom p rest else tailsFrom p rest

section Tails

variable {α : Type} {p : α → Bool} {a : α} {as bs : List α}

theorem tailsFrom_cons_of_not (h : p a = false) : tailsFrom p (a :: as) = tailsFrom p as := by
  simp [tailsFrom, h]

theorem tailsFrom_cons (h : p a = true) : tailsFrom p (a :: as) = (a :: as) :: tailsFrom p as := by
  simp [tailsFrom, h]

theorem tailsFrom_eq_nil (h : ∀ a ∈ as, p a = false) : tailsFrom p as = [] := by
  induction as with
  | nil => rfl
  | cons a as ih =>
    rw [tailsFrom_cons_of_not (h a (List.mem_cons_self ..))]
    exact ih fun b hb => h b (List.mem_cons_of_mem _ hb)

theorem tailsFrom_append :
    tailsFrom p (as ++ bs) = (tailsFrom p as).map (· ++ bs) ++ tailsFrom p bs := by
  induction as with
  | nil => rfl
  | cons a as ih =>
    rw [List.cons_append]
    cases h : p a with
    | false => rw [tailsFrom_cons_of_not h, tailsFrom_cons_of_not h, ih]
    | true => rw [tailsFrom_cons h, tailsFrom_cons h, ih, List.map_cons, List.cons_append,
        List.cons_append]

end Tails

end JavaMinus

namespace JavaMinus.Source

/-! ### Sites of a tree -/

/-- A call or the allocation of an object; `into` is the variable to which it is assigned as it
stands. -/
inductive Site where
  | call (receiver : Expr) (method : String) (args : List Expr) (into : Option String)
  | new (cls : String) (into : Option String)

mutual

/-- The calls and allocations of an expression, in order of evaluation. -/
def Expr.sites : Expr → List Site
  | .intLit .. | .boolLit .. | .ident .. | .self _ => []
  | .paren _ e | .not _ e | .length _ e | .newArray _ e => e.sites
  | .binary _ _ lhs rhs => lhs.sites ++ rhs.sites
  | .index _ array index => array.sites ++ index.sites
  | .call _ receiver method args =>
    receiver.sites ++ sitesOf args ++ [.call receiver method args none]
  | .newObject _ cls => [.new cls none]
termination_by structural e => e

def sitesOf : List Expr → List Site
  | [] => []
  | e :: rest => e.sites ++ sitesOf rest
termination_by structural es => es

end

/-- The sites of an expression that is assigned to a variable. -/
def Expr.sitesInto (name : String) (e : Expr) : List Site :=
  match e.unparen with
  | .call _ receiver method args =>
    receiver.sites ++ sitesOf args ++ [.call receiver method args (some name)]
  | .newObject _ cls => [.new cls (some name)]
  | _ => e.sites

mutual

/-- The sites of a statement in the order in which its code is laid out: the second branch of a
choice comes before the first. -/
def Stmt.sites : Stmt → List Site
  | .block _ body => bodySites body
  | .expr _ e => e.sites
  | .assign _ name e => e.sitesInto name
  | .store _ _ index e => index.sites ++ e.sites
  | .ret _ none => []
  | .ret _ (some e) => e.sites
  | .branch _ cond s (some other) => cond.sites ++ other.sites ++ s.sites
  | .branch _ cond s none => cond.sites ++ s.sites
  | .loop _ cond body => cond.sites ++ body.sites
termination_by structural s => s

def bodySites : List Stmt → List Site
  | [] => []
  | s :: rest => s.sites ++ bodySites rest
termination_by structural body => body

end

theorem Expr.sites_unparen : ∀ e : Expr, e.unparen.sites = e.sites
  | .paren _ e => by
    rw [Expr.unparen, Expr.sites]
    exact sites_unparen e
  | .intLit .. | .boolLit .. | .ident .. | .self .. | .not .. | .binary .. | .index .. | .length ..
  | .call .. | .newArray .. | .newObject .. => rfl

end JavaMinus.Source

namespace JavaMinus.Lowering

open JavaMinus.Source (Expr Stmt Site TypeName sitesOf bodySites)
open JavaMinus.Flat (Ty Operand Instr Item Code Invocation Cell forall₂_append_left)

/-! ### Sites of flat code -/

/-- Calls of methods and allocations of objects. Only arrays are given a size. -/
def isSiteCall (invocation : Invocation) (target : Operand) (args : List Operand) : Bool :=
  match invocation with
  | .static | .virtual => true
  | .new => target != .classRef "array" || args.isEmpty
  | .special | .arrayLength => false

/-- The call or allocation inside an instruction. -/
def siteCall? : Instr → Option Instr
  | .call invocation target method args result =>
    if isSiteCall invocation target args then some (.call invocation target method args result)
    else none
  | .assign _ _ rhs => siteCall? rhs
  | .branch cond _ => siteCall? cond
  | _ => none

def isSite : Item → Bool
  | .label _ => false
  | .instr i => (siteCall? i).isSome

/-- The local variable or parameter that takes the value, if there is one, is declared with a type of
this kind. -/
def Declares (σ : Scope) (into : Option String) (kind : TypeName → Prop) : Prop :=
  ∀ name b, into = some name → σ.symbols.resolve? σ.method name = some b → b.storage ≠ .field →
    kind b.symbol.type

/-- The operands and the result of a call have the types that the tree gives them. -/
structure Passes (σ : Scope) (receiver : Expr) (method : String) (args : List Expr)
    (into : Option String) (operands : List Operand) (result : Ty) : Prop where
  args : ∀ d, callee? σ receiver method = some d →
    operands.map valueTy? = argTypes σ args (d.parameters.map (·.type))
  result : ∀ d, callee? σ receiver method = some d →
    ∃ ty, σ.typeOf d.returnType = .ok ty ∧ (Declares σ into (· = d.returnType) → result = ty)

/-- The code starts with the instruction of the site. The object of an allocation goes into a variable,
on which its constructor is called. -/
inductive Stands (σ : Scope) : Site → Code → Prop
  | call {receiver : Expr} {method : String} {args : List Expr} {into : Option String} {i : Instr}
      {rest : Code} {invocation : Invocation} {target : Operand} {operands : List Operand}
      {result : Ty}
      (hcall : siteCall? i = some (.call invocation target (some method) operands result))
      (hinvocation : invocation = .static ∨ invocation = .virtual)
      (hpasses : Passes σ receiver method args into operands result) :
      Stands σ (.call receiver method args into) (.instr i :: rest)
  | new {cls : String} {into : Option String} {dest : Operand} {cell : Cell} {rest : Code}
      (hcell : dest.cell? = some cell)
      (hty : dest.ty = .object cls ∨
        ∃ name, into = some name ∧ σ.slotOperand? name = .ok (some dest)) :
      Stands σ (.new cls into) (constructInto dest cls ++ rest)

/-- The code has these sites, in this order. -/
def Sited (σ : Scope) (sites : List Site) (code : Code) : Prop :=
  List.Forall₂ (Stands σ) sites (tailsFrom isSite code)

namespace Stands

variable {σ : Scope} {c : Code}

theorem append {site : Site} (h : Stands σ site c) (d : Code) : Stands σ site (c ++ d) := by
  cases h with
  | call hcall hinvocation hpasses => exact .call hcall hinvocation hpasses
  | new hcell hty =>
    rw [List.append_assoc]
    exact .new hcell hty

theorem declares_none {kind : TypeName → Prop} : Declares σ none kind := by
  intro name b h
  cases h

/-- What goes nowhere in particular may go into a variable. -/
theorem callInto {receiver : Expr} {method : String} {args : List Expr}
    (h : Stands σ (.call receiver method args none) c) (into : Option String) :
    Stands σ (.call receiver method args into) c := by
  cases h with
  | call hcall hinvocation hpasses =>
    refine .call hcall hinvocation ⟨hpasses.args, fun d hd => ?_⟩
    obtain ⟨ty, hty, hresult⟩ := hpasses.result d hd
    exact ⟨ty, hty, fun _ => hresult declares_none⟩

theorem newInto {cls : String} (h : Stands σ (.new cls none) c) (into : Option String) :
    Stands σ (.new cls into) c := by
  cases h with
  | new hcell hty =>
    rcases hty with hty | ⟨name, hnone, _⟩
    · exact .new hcell (.inl hty)
    · cases hnone

end Stands

namespace Sited

variable {σ : Scope} {sites sites' : List Site} {site : Site} {c d : Code} {i rhs : Instr}
  {test : Code × Instr} {n : Nat}

theorem nil : Sited σ [] [] :=
  List.Forall₂.nil

theorem append (hc : Sited σ sites c) (hd : Sited σ sites' d) :
    Sited σ (sites ++ sites') (c ++ d) := by
  unfold Sited
  rw [tailsFrom_append]
  refine List.rel_append ?_ hd
  rw [List.forall₂_map_right_iff]
  exact hc.imp fun _ _ h => h.append d

theorem label (name : String) (hc : Sited σ sites c) : Sited σ sites (.label name :: c) := by
  unfold Sited
  rw [tailsFrom_cons_of_not rfl]
  exact hc

theorem instr (hi : siteCall? i = none) (hc : Sited σ sites c) :
    Sited σ sites (.instr i :: c) := by
  unfold Sited
  rw [tailsFrom_cons_of_not (by rw [isSite, hi]; rfl)]
  exact hc

/-- Code without sites in front or behind changes nothing. -/
theorem before (hc : Sited σ [] c) (hd : Sited σ sites d) : Sited σ sites (c ++ d) :=
  hc.append hd

theorem after (hc : Sited σ sites c) (hd : Sited σ [] d) : Sited σ sites (c ++ d) := by
  have hall := hc.append hd
  rwa [List.append_nil] at hall

theorem snoc (hc : Sited σ sites c) (hi : siteCall? i = none) : Sited σ sites (c ++ [.instr i]) :=
  hc.after (nil.instr hi)

/-- One more site at the end. -/
theorem snocSite (hc : Sited σ sites c) (hi : (siteCall? i).isSome = true)
    (hsite : Stands σ site [.instr i]) : Sited σ (sites ++ [site]) (c ++ [.instr i]) := by
  have hitem : isSite (.instr i) = true := hi
  refine hc.append ?_
  unfold Sited
  rw [tailsFrom_cons hitem]
  exact .cons hsite .nil

theorem construct {cls : String} {dest : Operand} (h : Stands σ site (constructInto dest cls)) :
    Sited σ [site] (constructInto dest cls) := by
  have hnew : isSite (.instr (.assignTo dest (.call .new (.classRef cls) none [] dest.ty))) = true := by
    simp [isSite, siteCall?, Instr.assignTo, isSiteCall]
  unfold Sited
  rw [constructInto, tailsFrom_cons hnew, tailsFrom_cons_of_not rfl]
  exact .cons h .nil

theorem into (name : String) {e : Expr} (h : Sited σ e.sites c) : Sited σ (e.sitesInto name) c := by
  rw [← e.sites_unparen] at h
  unfold Expr.sitesInto
  split
  · next span receiver method args hu =>
    rw [hu, Expr.sites] at h
    obtain ⟨front, last, htails, hfront, hlast⟩ := forall₂_append_left h
    unfold Sited
    rw [htails]
    cases hlast with
    | cons hcall hnil =>
      cases hnil with
      | nil => exact List.rel_append hfront (.cons (hcall.callInto _) .nil)
  · next span cls hu =>
    rw [hu, Expr.sites] at h
    unfold Sited at h ⊢
    generalize tailsFrom isSite c = tails at h
    cases h with
    | cons hnew hnil =>
      cases hnil with
      | nil => exact .cons (hnew.newInto _) .nil
  · rw [← e.sites_unparen]
    exact h

theorem branch (htest : Sited σ sites test.1) (hi : siteCall? test.2 = none)
    {others : List Site} (hd : Sited σ others d) (hc : Sited σ sites' c) :
    Sited σ (sites ++ others ++ sites') (branchCode n test c d) := by
  have hempty : Sited σ [] [] := nil
  have hjump : Sited σ [] [.instr (.branch test.2 (placeLabel "then" n))] := hempty.instr hi
  have hleave := (hempty.label (placeLabel "then" n)).instr (i := .goto (placeLabel "endif" n)) rfl
  exact ((((htest.after hjump).append hd).after hleave).append hc).after (hempty.label _)

theorem loop (htest : Sited σ sites test.1) (hi : siteCall? test.2 = none)
    (hc : Sited σ sites' c) : Sited σ (sites ++ sites') (loopCode n test c) := by
  have hempty : Sited σ [] [] := nil
  have hleave := (hempty.label (placeLabel "whilebody" n)).instr
    (i := .goto (placeLabel "whileend" n)) rfl
  have hjump := hleave.instr (i := .branch test.2 (placeLabel "whilebody" n)) hi
  have hback := (hempty.label (placeLabel "whileend" n)).instr
    (i := .goto (placeLabel "whilecond" n)) rfl
  exact ((((hempty.label _).before htest).after hjump).append hc).after hback

end Sited

/-! ### Expressions -/

section Expressions

variable {σ : Scope} {sites : List Site} {f f' : Fresh}

/-- The code of a lowered expression has these sites, also if its last instruction is given another
destination. -/
structure Laid (σ : Scope) (sites : List Site) (l : Lowered) : Prop where
  code : Sited σ sites l.code
  retarget : ∀ code dest rhs, l = .computed code dest rhs →
    ∀ dest', Sited σ sites (code ++ [.instr (.assignTo dest' rhs)])
  direct : ∀ code dest rhs, l = .computed code dest rhs → siteCall? rhs = none →
    Sited σ sites code

theorem Laid.of_code {l : Lowered} (hl : l.fresh = false) (h : Sited σ sites l.code) :
    Laid σ sites l := by
  have hne : ∀ code dest rhs, l ≠ .computed code dest rhs := by
    rintro code dest rhs rfl
    cases hl
  exact ⟨h, fun code dest rhs heq => absurd heq (hne code dest rhs),
    fun code dest rhs heq => absurd heq (hne code dest rhs)⟩

theorem Laid.computed {code : Code} {dest : Operand} {rhs : Instr} (h : Sited σ sites code)
    (hrhs : siteCall? rhs = none) : Laid σ sites (.computed code dest rhs) := by
  refine ⟨h.snoc hrhs, fun code' _ rhs' heq dest' => ?_, fun code' _ rhs' heq _ => ?_⟩
  · obtain ⟨rfl, _, rfl⟩ := computed_inj heq
    exact h.snoc hrhs
  · obtain ⟨rfl, _, rfl⟩ := computed_inj heq
    exact h

theorem Laid.call {code : Code} {dest : Operand} {call : Instr} {site : Site}
    (h : Sited σ sites code) (hcall : siteCall? call = some call)
    (hsite : ∀ i, siteCall? i = some call → Stands σ site [.instr i]) :
    Laid σ (sites ++ [site]) (.computed code dest call) := by
  have hsited (dest : Operand) : Sited σ (sites ++ [site]) (code ++ [.instr (.assignTo dest call)]) :=
    h.snocSite (by rw [Instr.assignTo, siteCall?, hcall]; rfl) (hsite _ hcall)
  refine ⟨hsited dest, fun code' _ rhs' heq dest' => ?_, fun code' _ rhs' heq hnone => ?_⟩
  · obtain ⟨rfl, _, rfl⟩ := computed_inj heq
    exact hsited dest'
  · obtain ⟨rfl, _, rfl⟩ := computed_inj heq
    rw [hcall] at hnone
    cases hnone

/-- The instruction of a call passes on what the tree says. -/
theorem Lowers.stands {e : Expr} {method : String} {es : List Expr} {usage : CallUse}
    {code : Code} {instr : Instr} (h : Lowers σ (.call e method es usage code instr) f f')
    (into : Option String)
    (husage : ∀ ty, usage = .assigned ty → ∃ name dest, into = some name ∧
      σ.slotOperand? name = .ok (some dest) ∧ dest.ty = ty) :
    siteCall? instr = some instr ∧
      ∀ i, siteCall? i = some instr → Stands σ (.call e method es into) [.instr i] := by
  obtain ⟨invocation, target, operands, result, rfl, hinvocation, hargs, hresult⟩ := h.typed
  refine ⟨?_, fun i hi => .call hi hinvocation ⟨?_, ?_⟩⟩
  · rcases hinvocation with rfl | rfl <;> rfl
  · intro d hd
    rw [hargs, hd]
    rfl
  · intro d hd
    rw [hd] at hresult
    obtain ⟨ty, hty, rfl⟩ := declaredResult_ok hresult
    refine ⟨ty, hty, fun hdeclares => ?_⟩
    cases usage with
    | statement | value => rfl
    | assigned ty' =>
      obtain ⟨name, dest, hinto, hslot, rfl⟩ := husage ty' rfl
      obtain ⟨b, hr, hstorage, hb⟩ := slotOperand?_type hslot
      rw [hdeclares name b hinto hr hstorage, hty] at hb
      exact (Except.ok.inj hb).symm

def Piece.Sited (σ : Scope) : Piece → Prop
  | .expr e _ l => Laid σ e.sites l
  | .receiver _ e r => Lowering.Sited σ e.sites r.code
  | .args es _ code _ => Lowering.Sited σ (sitesOf es) code
  | .call e _ es _ code _ => Lowering.Sited σ (e.sites ++ sitesOf es) code

theorem LowersName.sited {name : String} {l : Lowered} (h : LowersName σ name f l f') :
    Laid σ [] l := by
  cases h with
  | slot | cls => exact .of_code rfl .nil
  | field => exact .computed .nil rfl

theorem LowersIndex.sited {idx l : Lowered} (h : LowersIndex σ idx f l f')
    (hidx : Sited σ sites idx.code) : Sited σ sites l.code := by
  cases h with
  | literal => exact hidx.snoc rfl
  | other => exact hidx

theorem Sited.logical {op : Source.BinOp} {n : Nat} {dest : Operand} {l r : Lowered}
    {sites' : List Site} (hl : Sited σ sites l.code) (hr : Sited σ sites' r.code) :
    Sited σ (sites ++ sites') (logicalCode op n dest l r) := by
  have hempty : Sited σ [] [] := .nil
  have hskip : siteCall? (.branch (skipTest op dest) (skipLabel op n)) = none := by
    unfold skipTest
    split <;> rfl
  have hfirst := hl.after ((hempty.instr hskip).instr (i := .assignTo dest (.single l.result)) rfl)
  have hlast := (hempty.label (skipLabel op n)).instr (i := .assignTo dest (.single r.result)) rfl
  exact (hfirst.append hr).after hlast

theorem Stands.temp {cls : String} {ty : Ty} (hty : σ.objectType cls = .ok ty) :
    Stands σ (.new cls none) (constructInto (σ.temp f ty) cls) := by
  obtain rfl := objectType_ok hty
  have hstands : Stands σ (.new cls none) (constructInto (σ.temp f (.object cls)) cls ++ []) :=
    .new rfl (.inl rfl)
  rwa [List.append_nil] at hstands

theorem Lowers.sited {p : Piece} (h : Lowers σ p f f') : p.Sited σ := by
  induction h with
  | int | bool | self => exact .of_code rfl .nil
  | name h => exact h.sited
  | paren _ ih => exact ih
  | not _ ih | length _ ih | newArray _ ih => exact .computed ih.code rfl
  | logical _ _ _ ihl ihr => exact .of_code rfl (ihl.code.logical ihr.code)
  | binary _ _ _ ihl ihr => exact .computed (ihl.code.append ihr.code) rfl
  | index _ _ _ _ hidx iha ihi => exact .computed (iha.code.append (hidx.sited ihi.code)) rfl
  | callValue hcall _ ih =>
    obtain ⟨hself, hstands⟩ := hcall.stands none (by simp)
    exact .call ih hself hstands
  | newObject hty => exact .of_code rfl (.construct (.temp hty))
  | @selfReceiver _ e _ _ hu | @classReceiver _ e _ _ _ hu _ _ =>
    have hsites : e.sites = [] := by rw [← e.sites_unparen, hu, Expr.sites]
    simp only [Piece.Sited, hsites]
    exact .nil
  | valueReceiver _ _ _ _ _ ih => exact ih.code
  | noArgs => exact .nil
  | arg _ _ _ ihe ihrest => exact ihe.code.append ihrest
  | call _ _ _ ihr ihargs => exact ihr.append ihargs

end Expressions

/-! ### Statements -/

section Statements

variable {σ : Scope} {f f' : Fresh}

theorem siteCall?_of_isTest {i : Instr} (h : isTest i = true) : siteCall? i = none := by
  cases i with
  | binary | not => rfl
  | assign | call | ret | goto | branch | getField | putField | single | nop => cases h

theorem LowersCond.sited {cond : Expr} {test : Code × Instr} (h : LowersCond σ cond test f f') :
    Sited σ cond.sites test.1 ∧ siteCall? test.2 = none := by
  cases h with
  | direct h htest =>
    have hnone := siteCall?_of_isTest htest
    exact ⟨h.sited.direct _ _ _ rfl hnone, hnone⟩
  | value h => exact ⟨h.sited.code, rfl⟩

theorem Stands.slot {name cls : String} {dest : Operand}
    (h : σ.slotOperand? name = .ok (some dest)) :
    Stands σ (.new cls (some name)) (constructInto dest cls) := by
  have hcell : ∃ cell, dest.cell? = some cell := by
    rcases slotOperand?_cases h with ⟨_, _, _, rfl⟩ | ⟨_, _, _, _, rfl⟩ <;> exact ⟨_, rfl⟩
  obtain ⟨cell, hcell⟩ := hcell
  have hstands : Stands σ (.new cls (some name)) (constructInto dest cls ++ []) :=
    .new hcell (.inr ⟨name, rfl, h⟩)
  rwa [List.append_nil] at hstands

theorem LowersStmt.sited {s : Stmt} {code : Code} (h : LowersStmt σ s f code f') :
    Sited σ s.sites code := by
  induction h with
  | done => exact .nil
  | seq _ _ ihs ihrest => exact ihs.append ihrest
  | @callStmt _ e _ _ _ _ _ _ _ _ hu h =>
    obtain ⟨hself, hstands⟩ := h.stands none (by simp)
    have hcode : Sited σ (_ ++ _) _ := h.sited
    rw [Stmt.sites, ← e.sites_unparen, hu, Expr.sites]
    exact hcode.snocSite (by rw [hself]; rfl) (hstands _ hself)
  | @exprStmt _ e _ _ _ _ h =>
    rw [Stmt.sites, ← e.sites_unparen]
    exact h.sited.code
  | assignNew hdest hu _ =>
    rw [Stmt.sites, Expr.sitesInto, hu]
    exact .construct (.slot hdest)
  | @assignCall _ name _ dest _ _ _ _ _ _ _ _ hdest hu h =>
    obtain ⟨hself, hstands⟩ := h.stands (some name) (by
      rintro ty ⟨⟩
      exact ⟨name, dest, rfl, hdest, rfl⟩)
    have hcode : Sited σ (_ ++ _) _ := h.sited
    rw [Stmt.sites, Expr.sitesInto, hu]
    exact hcode.snocSite (by rw [Instr.assignTo, siteCall?, hself]; rfl) (hstands _ hself)
  | retarget _ h => exact Sited.into _ (h.sited.retarget _ _ _ rfl _)
  | copy _ h _ | putField _ _ h => exact Sited.into _ (h.sited.code.snoc rfl)
  | store harr _ _ hi hidx hv =>
    exact ((harr.sited.code.before (hidx.sited hi.sited.code)).append hv.sited.code).snoc rfl
  | ret => exact Sited.nil.instr rfl
  | retValue h => exact h.sited.code.snoc rfl
  | branch hcond _ _ ihd ihc => exact .branch hcond.sited.1 hcond.sited.2 ihd ihc
  | @oneArmed _ cond s test c f _ _ hcond _ ihc =>
    have hall : Sited σ (cond.sites ++ [] ++ s.sites) (branchCode f.labels test c []) :=
      .branch hcond.sited.1 hcond.sited.2 .nil ihc
    rwa [List.append_nil] at hall
  | loop hcond _ ihc => exact .loop hcond.sited.1 hcond.sited.2 ihc

theorem Sited.methodCode {decl : Source.Method} {result : Ty} {sites : List Site} {body : Code}
    {inner : Scope} (h : Sited inner sites body) :
    Sited inner sites (methodCode σ decl result body) := by
  have hfront : Sited inner sites
      ((if decl.isConstructor then [superInit (methodScope σ decl result)] else []) ++ body) := by
    refine Sited.before ?_ h
    split
    · exact Sited.nil.instr rfl
    · exact .nil
  unfold Lowering.methodCode closeBody
  by_cases hclose : (decide (result = .void) && !endsInReturn
      ((if decl.isConstructor then [superInit (methodScope σ decl result)] else []) ++ body)) = true
  · rw [if_pos hclose]
    exact hfront.snoc rfl
  · rw [if_neg hclose]
    exact hfront

end Statements

end JavaMinus.Lowering
