import JavaMinus.Proofs.Lowering.ClassDerivation
import JavaMinus.Proofs.Lowering.Names

/-!
# Control flow of lowered code

Lowered code jumps to labels of its own only. Its labels are named after the place they mark, so they
differ from those that are made up later. A body that returns on every path has returns in its code,
and ends in one if its last statement is a return.
-/

namespace JavaMinus.Source

mutual

/-- A return, or a block that ends in such a statement. If choices count, also a choice between two
such statements. -/
def Stmt.returns (choices : Bool) : Stmt → Bool
  | .ret _ _ => true
  | .block _ body => lastReturns choices body
  | .branch _ _ s (some other) => choices && s.returns choices && other.returns choices
  | .branch _ _ _ none | .expr .. | .assign .. | .store .. | .loop .. => false
termination_by structural s => s

def lastReturns (choices : Bool) : List Stmt → Bool
  | [] => false
  | s :: rest => if rest.isEmpty then s.returns choices else lastReturns choices rest
termination_by structural body => body

end

end JavaMinus.Source

namespace JavaMinus.Lowering

open JavaMinus.Flat (Instr Item Code labelsOf)

def target? : Instr → Option String
  | .goto label => some label
  | .branch _ label => some label
  | _ => none

def itemTarget? : Item → Option String
  | .label _ => none
  | .instr i => target? i

def jumpsOf (code : Code) : List String :=
  code.filterMap itemTarget?

@[simp] theorem jumpsOf_nil : jumpsOf [] = [] := rfl

@[simp] theorem jumpsOf_append (c d : Code) : jumpsOf (c ++ d) = jumpsOf c ++ jumpsOf d :=
  List.filterMap_append

@[simp] theorem jumpsOf_label (label : String) (rest : Code) :
    jumpsOf (.label label :: rest) = jumpsOf rest := rfl

@[simp] theorem jumpsOf_instr (i : Instr) (rest : Code) :
    jumpsOf (.instr i :: rest) = (target? i).toList ++ jumpsOf rest := by
  cases h : target? i with
  | none => simp [jumpsOf, itemTarget?, h]
  | some l => simp [jumpsOf, itemTarget?, h]

/-- The places that labels of lowered code mark. -/
def places : List String :=
  ["and_end", "or_end", "then", "endif", "whilecond", "whilebody", "whileend"]

/-- Code whose jumps stay inside it. -/
structure SelfContained (code : Code) : Prop where
  targets : ∀ l ∈ jumpsOf code, l ∈ labelsOf code
  places : ∀ l ∈ labelsOf code, ∃ p ∈ places, ∃ n, l = placeLabel p n

namespace SelfContained

variable {c d : Code} {n : Nat} {test : Code × Instr}

theorem nil : SelfContained [] :=
  ⟨by simp, by simp⟩

theorem append (hc : SelfContained c) (hd : SelfContained d) : SelfContained (c ++ d) := by
  constructor
  · intro l hl
    rw [jumpsOf_append, List.mem_append] at hl
    rw [Flat.labelsOf_append, List.mem_append]
    exact hl.imp (hc.targets l) (hd.targets l)
  · intro l hl
    rw [Flat.labelsOf_append, List.mem_append] at hl
    rcases hl with hl | hl
    · exact hc.places l hl
    · exact hd.places l hl

theorem instr {i : Instr} (h : target? i = none) : SelfContained [.instr i] :=
  ⟨by simp [h], by simp⟩

theorem snoc (hc : SelfContained c) {i : Instr} (h : target? i = none) :
    SelfContained (c ++ [.instr i]) :=
  hc.append (instr h)

theorem init {i : Instr} (h : SelfContained (c ++ [.instr i])) : SelfContained c := by
  constructor
  · intro l hl
    simpa using h.targets l (by simp [hl])
  · intro l hl
    exact h.places l (by simpa using hl)

theorem logical {op : Source.BinOp} {dest : Flat.Operand} {l r : Lowered}
    (hl : SelfContained l.code) (hr : SelfContained r.code) :
    SelfContained (logicalCode op n dest l r) := by
  constructor
  · intro label hlabel
    simp only [logicalCode, jumpsOf_append, jumpsOf_instr, jumpsOf_label, jumpsOf_nil, target?,
      Instr.assignTo, Option.toList_none, Option.toList_some, List.mem_append, List.mem_cons,
      List.not_mem_nil, or_false, false_or] at hlabel
    simp only [logicalCode, Flat.labelsOf_append, Flat.labelsOf_instr, Flat.labelsOf_label,
      Flat.labelsOf_nil, List.mem_append, List.mem_cons, List.not_mem_nil, or_false]
    rcases hlabel with (hlabel | rfl) | hlabel
    · exact .inl (.inl (hl.targets label hlabel))
    · exact .inr rfl
    · exact .inl (.inr (hr.targets label hlabel))
  · intro label hlabel
    simp only [logicalCode, Flat.labelsOf_append, Flat.labelsOf_instr, Flat.labelsOf_label,
      Flat.labelsOf_nil, List.mem_append, List.mem_cons, List.not_mem_nil, or_false] at hlabel
    rcases hlabel with (hlabel | hlabel) | rfl
    · exact hl.places label hlabel
    · exact hr.places label hlabel
    · refine ⟨_, ?_, n, skipLabel_eq op n⟩
      split <;> simp [Lowering.places]

theorem branch (htest : SelfContained test.1) (hc : SelfContained c) (hd : SelfContained d) :
    SelfContained (branchCode n test c d) := by
  constructor
  · intro label hlabel
    simp only [branchCode, jumpsOf_append, jumpsOf_instr, jumpsOf_label, jumpsOf_nil, target?,
      Option.toList_some, List.mem_append, List.mem_cons, List.not_mem_nil, or_false] at hlabel
    simp only [branchCode, Flat.labelsOf_append, Flat.labelsOf_instr, Flat.labelsOf_label,
      Flat.labelsOf_nil, List.mem_append, List.mem_cons, List.not_mem_nil, or_false]
    rcases hlabel with (((hlabel | rfl) | hlabel) | rfl) | hlabel
    · exact .inl (.inl (.inl (.inl (htest.targets label hlabel))))
    · exact .inl (.inl (.inr rfl))
    · exact .inl (.inl (.inl (.inr (hd.targets label hlabel))))
    · exact .inr rfl
    · exact .inl (.inr (hc.targets label hlabel))
  · intro label hlabel
    simp only [branchCode, Flat.labelsOf_append, Flat.labelsOf_instr, Flat.labelsOf_label,
      Flat.labelsOf_nil, List.mem_append, List.mem_cons, List.not_mem_nil, or_false] at hlabel
    rcases hlabel with (((hlabel | hlabel) | rfl) | hlabel) | rfl
    · exact htest.places label hlabel
    · exact hd.places label hlabel
    · exact ⟨"then", by decide, n, rfl⟩
    · exact hc.places label hlabel
    · exact ⟨"endif", by decide, n, rfl⟩

theorem loop (htest : SelfContained test.1) (hc : SelfContained c) :
    SelfContained (loopCode n test c) := by
  constructor
  · intro label hlabel
    simp only [loopCode, jumpsOf_append, jumpsOf_instr, jumpsOf_label, jumpsOf_nil, target?,
      Option.toList_some, List.mem_append, List.mem_cons, List.not_mem_nil, or_false,
      false_or] at hlabel
    simp only [loopCode, Flat.labelsOf_append, Flat.labelsOf_instr, Flat.labelsOf_label,
      Flat.labelsOf_nil, List.mem_append, List.mem_cons, List.not_mem_nil, or_false]
    rcases hlabel with ((hlabel | rfl | rfl) | hlabel) | rfl
    · exact .inl (.inl (.inl (.inr (htest.targets label hlabel))))
    · exact .inl (.inl (.inr rfl))
    · exact .inr rfl
    · exact .inl (.inr (hc.targets label hlabel))
    · exact .inl (.inl (.inl (.inl rfl)))
  · intro label hlabel
    simp only [loopCode, Flat.labelsOf_append, Flat.labelsOf_instr, Flat.labelsOf_label,
      Flat.labelsOf_nil, List.mem_append, List.mem_cons, List.not_mem_nil, or_false] at hlabel
    rcases hlabel with (((rfl | hlabel) | rfl) | hlabel) | rfl
    · exact ⟨"whilecond", by decide, n, rfl⟩
    · exact htest.places label hlabel
    · exact ⟨"whilebody", by decide, n, rfl⟩
    · exact hc.places label hlabel
    · exact ⟨"whileend", by decide, n, rfl⟩

end SelfContained

/-! ### Expressions and statements -/

theorem LowersName.selfContained {σ : Scope} {name : String} {l : Lowered} {f f' : Fresh}
    (h : LowersName σ name f l f') : SelfContained l.code := by
  cases h with
  | slot | cls => exact .nil
  | field => exact .instr rfl

theorem LowersIndex.selfContained {σ : Scope} {idx l : Lowered} {f f' : Fresh}
    (h : LowersIndex σ idx f l f') (hidx : SelfContained idx.code) : SelfContained l.code := by
  cases h with
  | literal => exact hidx.snoc rfl
  | other => exact hidx

theorem Lowers.selfContained {σ : Scope} {p : Piece} {f f' : Fresh} (h : Lowers σ p f f') :
    SelfContained p.code := by
  induction h with
  | int | bool | self | selfReceiver | classReceiver | noArgs => exact .nil
  | name h => exact h.selfContained
  | paren _ ih => exact ih
  | valueReceiver _ _ _ _ _ ih => exact ih
  | not _ ih | length _ ih | callValue _ _ ih | newArray _ ih => exact ih.snoc rfl
  | newObject => exact (SelfContained.instr rfl).snoc rfl
  | logical _ _ _ ihl ihr => exact SelfContained.logical ihl ihr
  | binary _ _ _ ihl ihr => exact (ihl.append ihr).snoc rfl
  | index _ _ _ _ hidx iha ihi => exact (iha.append (hidx.selfContained ihi)).snoc rfl
  | arg _ _ _ ihe ihrest => exact ihe.append ihrest
  | call _ _ _ ihr ihargs => exact ihr.append ihargs

theorem LowersCond.selfContained {σ : Scope} {cond : Source.Expr} {test : Code × Instr}
    {f f' : Fresh} (h : LowersCond σ cond test f f') : SelfContained test.1 := by
  cases h with
  | value h => exact h.selfContained
  | @direct code dest rhs _ _ h _ =>
    have hall : SelfContained (code ++ [.instr (.assignTo dest rhs)]) := h.selfContained
    exact hall.init

theorem LowersStmt.selfContained {σ : Scope} {s : Source.Stmt} {code : Code} {f f' : Fresh}
    (h : LowersStmt σ s f code f') : SelfContained code := by
  induction h with
  | done => exact .nil
  | ret => exact .instr rfl
  | assignNew => exact (SelfContained.instr rfl).snoc rfl
  | seq _ _ ihs ihrest => exact ihs.append ihrest
  | callStmt _ h =>
    have hcode : SelfContained (Piece.code (.call _ _ _ _ _ _)) := h.selfContained
    obtain ⟨_, _, _, _, rfl⟩ := h.exists_call
    exact hcode.snoc rfl
  | assignCall _ _ h =>
    have hcode : SelfContained (Piece.code (.call _ _ _ _ _ _)) := h.selfContained
    exact hcode.snoc rfl
  | exprStmt _ h => exact h.selfContained
  | copy _ h _ | putField _ _ h | retValue h =>
    have hcode : SelfContained (Piece.code (.expr _ _ _)) := h.selfContained
    exact hcode.snoc rfl
  | @retarget _ _ _ dest code temp rhs _ _ _ h =>
    have hall : SelfContained (code ++ [.instr (.assignTo temp rhs)]) := h.selfContained
    exact hall.init.snoc rfl
  | store harr _ _ hi hidx hv =>
    have hindex := hidx.selfContained hi.selfContained
    have hvalue : SelfContained (Piece.code (.expr _ _ _)) := hv.selfContained
    exact ((harr.selfContained.append hindex).append hvalue).snoc rfl
  | branch hcond _ _ ihd ihc => exact .branch hcond.selfContained ihc ihd
  | oneArmed hcond _ ihc => exact .branch hcond.selfContained ihc .nil
  | loop hcond _ ihc => exact .loop hcond.selfContained ihc

/-! ### Returns -/

variable {σ : Scope} {s : Source.Stmt} {code : Code} {f f' : Fresh}

theorem LowersStmt.mem_ret (h : LowersStmt σ s f code f') (hs : s.returns true = true) :
    ∃ value, .instr (.ret value) ∈ code := by
  induction h with
  | @seq span s' rest c d _ _ _ _ _ ihs ihrest =>
    cases rest with
    | nil =>
      obtain ⟨value, hmem⟩ := ihs hs
      exact ⟨value, List.mem_append_left _ hmem⟩
    | cons _ _ =>
      obtain ⟨value, hmem⟩ := ihrest hs
      exact ⟨value, List.mem_append_right _ hmem⟩
  | ret => exact ⟨none, List.mem_singleton_self _⟩
  | retValue => exact ⟨_, List.mem_append_right _ (List.mem_singleton_self _)⟩
  | branch _ _ _ _ ihc =>
    simp only [Source.Stmt.returns, Bool.true_and, Bool.and_eq_true] at hs
    obtain ⟨value, hmem⟩ := ihc hs.1
    exact ⟨value, by simp [branchCode, hmem]⟩
  | done => simp [Source.Stmt.returns, Source.lastReturns] at hs
  | callStmt | exprStmt | assignNew | assignCall | retarget | copy | putField | store | oneArmed
  | loop => simp [Source.Stmt.returns] at hs

theorem LowersStmt.ends_ret (h : LowersStmt σ s f code f') (hs : s.returns false = true) :
    ∃ c value, code = c ++ [.instr (.ret value)] := by
  induction h with
  | @seq span s' rest c d _ _ _ _ hrest ihs ihrest =>
    cases rest with
    | nil =>
      cases hrest with
      | done =>
        rw [List.append_nil]
        exact ihs hs
    | cons _ _ =>
      obtain ⟨front, value, rfl⟩ := ihrest hs
      exact ⟨c ++ front, value, (List.append_assoc _ _ _).symm⟩
  | ret => exact ⟨[], none, rfl⟩
  | retValue => exact ⟨_, _, rfl⟩
  | done => simp [Source.Stmt.returns, Source.lastReturns] at hs
  | branch | callStmt | exprStmt | assignNew | assignCall | retarget | copy | putField | store
  | oneArmed | loop => simp [Source.Stmt.returns] at hs

theorem LowersStmt.ends_label (h : LowersStmt σ s f code f') (hs : s.returns true = true)
    (hret : s.returns false = false) : ∃ c label, code = c ++ [.label label] := by
  induction h with
  | @seq span s' rest c d _ _ _ _ hrest ihs ihrest =>
    cases rest with
    | nil =>
      cases hrest with
      | done =>
        rw [List.append_nil]
        exact ihs hs hret
    | cons _ _ =>
      obtain ⟨front, label, rfl⟩ := ihrest hs hret
      exact ⟨c ++ front, label, (List.append_assoc _ _ _).symm⟩
  | branch => exact ⟨_, _, rfl⟩
  | ret | retValue => simp [Source.Stmt.returns] at hret
  | done => simp [Source.Stmt.returns, Source.lastReturns] at hs
  | callStmt | exprStmt | assignNew | assignCall | retarget | copy | putField | store | oneArmed
  | loop => simp [Source.Stmt.returns] at hs

/-! ### Methods -/

section Methods

variable {σ : Scope} {decl : Source.Method} {result : Flat.Ty} {body : Code}

theorem closeBody_void (code : Code) :
    ∃ c value, closeBody .void code = c ++ [.instr (.ret value)] := by
  unfold closeBody
  split
  · exact ⟨code, none, rfl⟩
  · next h =>
    have hends : endsInReturn code = true := by simpa using h
    unfold endsInReturn at hends
    split at hends
    · next i hlast =>
      cases i with
      | ret value =>
        obtain ⟨c, rfl⟩ := List.getLast?_eq_some_iff.mp hlast
        exact ⟨c, value, rfl⟩
      | assign | binary | not | call | goto | branch | getField | putField | single | nop =>
        simp [Instr.isReturn] at hends
    · simp at hends

theorem SelfContained.closeBody {code : Code} (h : SelfContained code) :
    SelfContained (closeBody result code) := by
  unfold Lowering.closeBody
  split
  · exact h.snoc rfl
  · exact h

theorem methodCode_of_result (hresult : result ≠ .void) (hctor : decl.isConstructor = false) :
    methodCode σ decl result body = body := by
  simp [methodCode, closeBody, hresult, hctor]

theorem labelsOf_methodCode : labelsOf (methodCode σ decl result body) = labelsOf body := by
  unfold methodCode closeBody
  split <;> split <;> simp [superInit]

theorem SelfContained.methodCode (h : SelfContained body) :
    SelfContained (methodCode σ decl result body) := by
  refine SelfContained.closeBody (SelfContained.append ?_ h)
  split
  · exact .instr rfl
  · exact .nil

end Methods

end JavaMinus.Lowering
