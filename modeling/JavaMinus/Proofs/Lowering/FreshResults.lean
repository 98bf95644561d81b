import JavaMinus.Proofs.Lowering.FieldOperands
import JavaMinus.Proofs.Lowering.Freshness
import JavaMinus.Proofs.Slots.Storage

/-!
# Fresh results

An expression that is computed ends in an assignment to a temporary, and a flag says so. On the strength
of the flag an assignment statement lets that last instruction write its own variable, and a branch tests
the right-hand side without the temporary. Either way the temporary is gone, so no other instruction may
know it. None does: it is drawn after all operands of the expression have been lowered, and what was
lowered before a temporary is drawn cannot bear its name.
-/

namespace JavaMinus.Flat

/-- The name stands nowhere in the instruction: it is not written and not read, and no operand bears it,
be it inside an array element or a field. -/
structure Instr.Avoids (name : String) (i : Instr) : Prop where
  unwritten : i.defines? ≠ some name
  unread : name ∉ i.reads
  unmentioned : ∀ op ∈ i.mentions, op.name? ≠ some name

theorem Instr.mentions_of_defines? {i : Instr} {name : String} (h : i.defines? = some name) :
    ∃ op ∈ i.mentions, op.name? = some name := by
  cases i with
  | assign dest ty rhs =>
    refine ⟨dest, ?_, h⟩
    exact List.mem_append_left _ (List.mem_append_left _ dest.mem_parts)
  | binary | not | call | ret | goto | branch | getField | putField | single | nop => cases h

theorem Instr.Avoids.of_mentions {i : Instr} {name : String}
    (h : ∀ op ∈ i.mentions, op.name? ≠ some name) : i.Avoids name where
  unwritten := by
    intro hdef
    obtain ⟨op, hop, hname⟩ := mentions_of_defines? hdef
    exact h op hop hname
  unread := by
    intro hread
    obtain ⟨op, hop, hname⟩ := reads_operands hread
    exact h op (List.mem_append_left _ hop) hname
  unmentioned := h

end JavaMinus.Flat

namespace JavaMinus.Lowering

open JavaMinus.Source (Expr)
open JavaMinus.Flat (Ty Operand Instr Code operandsOf)

section Names

variable {σ : Scope} {own : Prop} {types : Nat → Ty} {lo : Nat} {g : Fresh} {op : Operand}
  {name : String}

theorem ne_nextTemp_of_resolve? {b : Source.Binding}
    (h : σ.symbols.resolve? σ.method name = some b) : name ≠ tempName (σ.nextTemp g) := by
  rintro rfl
  have hfree := isDeclared_nextTemp σ g
  simp [Source.SymbolTable.isDeclared, h] at hfree

/-- An operand that is known before a temporary is drawn does not bear its name. -/
theorem Known.name?_ne_nextTemp (h : Known σ own types lo g.temps op) :
    op.name? ≠ some (tempName (σ.nextTemp g)) := by
  intro hname
  cases h with
  | lit | cls | elem | self => simp [Operand.name?, Scope.self] at hname
  | slot hslot =>
    obtain ⟨_, hb, _⟩ := slotOperand?_type hslot
    obtain rfl := Option.some.inj ((name?_of_slot hslot).symm.trans hname)
    exact ne_nextTemp_of_resolve? hb rfl
  | temp _ hk _ => exact tempName_ne_nextTemp hk (Option.some.inj hname)

theorem name?_ne_nextTemp_of_field (h : σ.fieldOperand? name = .ok (some op)) :
    op.name? ≠ some (tempName (σ.nextTemp g)) := by
  obtain ⟨_, _, hfield, rfl⟩ := fieldOperand?_cases h
  intro hname
  exact ne_nextTemp_of_resolve? hfield (Option.some.inj hname)

theorem Explained.avoids {ops : List Operand} {i : Instr} (h : Explained σ own lo g.temps ops)
    (hops : ∀ op ∈ i.operands, op ∈ ops) (hfields : FieldsNamed σ i) :
    i.Avoids (tempName (σ.nextTemp g)) := by
  obtain ⟨types, hknown⟩ := h
  refine .of_mentions ?_
  intro op hop
  rcases List.mem_append.mp hop with hop | hop
  · exact (hknown op (hops op hop)).name?_ne_nextTemp
  · obtain ⟨_, hfield⟩ := hfields op hop
    exact name?_ne_nextTemp_of_field hfield

end Names

section Bindings

variable {σ : Scope} {e : Expr} {hint : Option Ty} {l : Lowered} {f f' : Fresh}

/-- The temporary of a fresh result is drawn last, when everything else in the code is known. -/
theorem Lowers.drawn_last (h : Lowers σ (.expr e hint l) f f') (hl : l.fresh = true) :
    ∃ code ty rhs g, l = .computed code (σ.temp g ty) rhs ∧ f' = σ.drawn g ∧ f.temps ≤ g.temps ∧
      Explained σ True f.temps g.temps (operandsOf code ++ rhs.operands) := by
  have hknown {p : Piece} {f f' : Fresh} (h : Lowers σ p f f') :
      Explained σ True f.temps f'.temps p.operands := h.explained (fun _ => trivial) fun _ => trivial
  generalize hp : Piece.expr e hint l = p at h
  -- the induction is for parentheses only, which pass on the result of the expression inside
  induction h generalizing e hint with
  | paren _ ih =>
    cases hp
    exact ih rfl
  | name h =>
    cases hp
    cases h with
    | slot | cls => simp [Lowered.value] at hl
    | field _ hfield =>
      exact ⟨_, _, _, _, rfl, rfl, Nat.le_refl _, .getField hfield fun _ => trivial⟩
  | int | bool | self =>
    cases hp
    simp [Lowered.value] at hl
  | logical | newObject =>
    cases hp
    simp at hl
  | not h =>
    cases hp
    exact ⟨_, _, _, _, rfl, rfl, h.upto.temps, hknown h⟩
  | @binary _ op _ _ _ _ _ _ _ _ _ hlhs hrhs =>
    cases hp
    have hparts := (hknown hlhs).binary op (hknown hrhs) hlhs.upto.temps hrhs.upto.temps
    exact ⟨_, _, _, _, rfl, rfl, (hlhs.upto.trans hrhs.upto).temps, hparts⟩
  | @index _ _ _ _ _ elem _ _ _ _ _ _ harr _ _ hi hidx =>
    cases hp
    have hindex := hidx.explained hi.upto.temps (hknown hi)
    have hupto := hi.upto.trans hidx.upto
    have hparts := (hknown harr).elemValue elem hindex harr.upto.temps hupto.temps
    exact ⟨_, _, _, _, rfl, rfl, (harr.upto.trans hupto).temps, hparts⟩
  | length h =>
    cases hp
    exact ⟨_, _, _, _, rfl, rfl, h.upto.temps, (hknown h).length⟩
  | callValue h _ =>
    cases hp
    exact ⟨_, _, _, _, rfl, rfl, h.upto.temps, hknown h⟩
  | newArray h =>
    cases hp
    exact ⟨_, _, _, _, rfl, rfl, h.upto.temps, (hknown h).newArray⟩
  | selfReceiver | classReceiver | valueReceiver | noArgs | arg | call => cases hp

end Bindings

/-- A fresh result can be given another destination. It is the temporary handed out last, the last
instruction assigns it, and its name stands nowhere else in the code, not even in the value assigned.
So taking off the binding yields that assignment and leaves the code before it, and there is no second
binding to take off. -/
theorem lowerExpr_fresh_binding (σ : Scope) (e : Expr) (hint : Option Ty) (f f' : Fresh) (l : Lowered)
    (h : Yields (lowerExpr σ e hint) f l f') (hfresh : l.fresh = true) :
    ∃ name ty rhs before earlier,
      l.result = .var name ty ∧ l.code = before ++ [.instr (.assign l.result ty rhs)] ∧
      (∀ temps, Draws σ (lowerExpr σ e hint) f temps f' ↔ temps = earlier ++ [name]) ∧
      name ∉ earlier ∧
      (∀ i, .instr i ∈ before → i.Avoids name) ∧ rhs.Avoids name ∧
      l.takeBinding? =
        some (.assign l.result ty rhs, { l with code := before, fresh := false }) ∧
      Lowered.takeBinding? { l with code := before, fresh := false } = none := by
  have hlow := lowers_of_yields σ e hint f l f' h
  obtain ⟨code, ty, rhs, g, rfl, rfl, hupto, hknown⟩ := hlow.drawn_last hfresh
  obtain ⟨hfields, hvalue⟩ := CodeFieldsNamed.binding hlow.fieldsNamed
  refine ⟨tempName (σ.nextTemp g), ty, rhs, code, σ.freeTemps f.temps g.temps, rfl, rfl, ?_, ?_, ?_,
    ?_, takeBinding?_computed code _ rhs, takeBinding?_of_not_fresh rfl⟩
  · intro temps
    rw [(lowerExpr_built σ e hint).draws_iff h, freeTemps_drawn σ hupto]
  · intro hmem
    obtain ⟨⟨n, _, hn, heq⟩, _⟩ := mem_freeTemps.mp hmem
    exact tempName_ne_nextTemp hn heq.symm
  · intro i hi
    refine hknown.avoids (fun op hop => ?_) (hfields i hi)
    exact List.mem_append_left _ (List.mem_flatMap.mpr ⟨_, hi, hop⟩)
  · exact hknown.avoids (fun op hop => List.mem_append_right _ hop) hvalue

/-- A method with a parameter `a` and a local variable named like a temporary, in a class with a field
`limit`. -/
def limitScope : Scope where
  symbols := {
    className := "Gauge"
    fields := [{ name := "limit", type := { name := "int" } }]
    methods := [{
      name := "reached"
      returnType := { name := "boolean" }
      parameters := [{ name := "a", type := { name := "int", isArray := true } }]
      locals := [{ name := "t2", type := { name := "int" } }] }] }
  method := "reached"
  returnType := .bool

/-- `(!(a[0] < limit))` -/
def limitTest : Expr :=
  .paren {} (.not {} (.paren {}
    (.binary {} .lt (.index {} (.ident {} "a") (.intLit {} 0)) (.ident {} "limit"))))

def limitLowered : Lowered :=
  .computed
    [.instr (.assignTo (.var "t1" .int) (.single (.int 0))),
      .instr (.assignTo (.var "t3" .int)
        (.single (.elem (.param 1 "a" .intArray) (.var "t1" .int) .int))),
      .instr (.assignTo (.var "t4" .int) (.getField (.self "Gauge") (.var "limit" .int))),
      .instr (.assignTo (.var "t5" .bool) (.binary .lt (.var "t3" .int) (.var "t4" .int)))]
    (.var "t6" .bool) (.not (.var "t5" .bool))

/-- The flag is passed on through parentheses, and the declared `t2` is not handed out. -/
theorem lowerExpr_fresh_binding_limit :
    Yields (lowerExpr limitScope limitTest (some .bool)) {} limitLowered { temps := 6 } ∧
      limitLowered.fresh = true ∧ ∃ rhs before earlier,
        limitLowered.code = before ++ [.instr (.assign (.var "t6" .bool) .bool rhs)] ∧
        Draws limitScope (lowerExpr limitScope limitTest (some .bool)) {} (earlier ++ ["t6"])
          { temps := 6 } ∧
        (∀ i, .instr i ∈ before → i.Avoids "t6") ∧ rhs.Avoids "t6" := by
  obtain ⟨name, ty, rhs, before, earlier, hresult, hcode, hdraws, _, hbefore, hrhs, _⟩ :=
    lowerExpr_fresh_binding limitScope limitTest (some .bool) {} { temps := 6 } limitLowered rfl rfl
  obtain ⟨rfl, rfl⟩ := Operand.var.inj hresult
  exact ⟨rfl, rfl, rhs, before, earlier, hcode, (hdraws _).mpr rfl, hbefore, hrhs⟩

end JavaMinus.Lowering
