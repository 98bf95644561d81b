import JavaMinus.Proofs.Lowering.Cells
import Mathlib.Data.List.Forall2

/-!
# Lowered expressions compute their values

The code of an expression, run wherever it stands in a larger code, does what the evaluation of the
tree does to the world and leaves its value in the result operand. If the last instruction binds a
fresh temporary, the code before it followed by the bound instruction already gives the value; this
is what assignments and conditions build on.
-/

namespace JavaMinus.Lowering

open JavaMinus.Behaviour
open JavaMinus.Source (Expr BinOp Activation Callee evalExpr evalArgs evalCallee methodNamed)
open JavaMinus.Flat (Ty Operand Instr Item Code labelsOf stepCode? evalAll)

theorem evalExpr_unparen (t : Source.SymbolTable) (method : String) (ω : Oracle) (a : Activation) :
    ∀ e : Expr, evalExpr t method ω a e.unparen = evalExpr t method ω a e
  | .paren _ e => by
    rw [Expr.unparen, evalExpr]
    exact evalExpr_unparen t method ω a e
  | .intLit .. | .boolLit .. | .ident .. | .self .. | .not .. | .binary .. | .index .. | .length ..
  | .call .. | .newArray .. | .newObject .. => rfl

/-! ### Runs through the code of an expression -/

/-- The code at `pc` runs through and writes no variable but temporaries above number `n`. -/
structure Ran (σ : Scope) (ω : Oracle) (P : Code) (n pc : Nat) (code : Code) (g : Activation)
    (w : World) (g' : Activation) (w' : World) : Prop where
  reaches : Reaches (stepCode? (platform ω) P) ⟨pc, g, w⟩ ⟨pc + code.length, g', w'⟩
  keeps : Keeps σ n g g'

/-- The code runs through, and then the instruction has the value. -/
def Evaluates (σ : Scope) (ω : Oracle) (P : Code) (n pc : Nat) (code : Code) (rhs : Instr)
    (g : Activation) (w : World) (v : Value) (w' : World) : Prop :=
  ∃ g₁ w₁, Ran σ ω P n pc code g w g₁ w₁ ∧ rhs.value (platform ω) g₁ w₁ = some (v, w')

/-- The code runs through, and then the operand has the value as long as only temporaries above
number `m` change. -/
def Delivers (σ : Scope) (ω : Oracle) (P : Code) (n m pc : Nat) (code : Code) (op : Operand)
    (g : Activation) (w : World) (v : Value) (w' : World) : Prop :=
  ∃ g', Ran σ ω P n pc code g w g' w' ∧ Holds σ ω m g' op v

section Runs

variable {σ : Scope} {ω : Oracle} {P : Code} {n m k pc : Nat} {c d : Code} {op : Operand}
  {rhs : Instr} {g g₁ g' : Activation} {w w₁ w' : World} {v : Value}

theorem Ran.nil : Ran σ ω P n pc [] g w g w :=
  ⟨.refl, .refl σ n g⟩

theorem Ran.append (hc : Ran σ ω P n pc c g w g₁ w₁)
    (hd : Ran σ ω P m (pc + c.length) d g₁ w₁ g' w') (hnm : n ≤ m) :
    Ran σ ω P n pc (c ++ d) g w g' w' where
  reaches := by
    rw [List.length_append, ← Nat.add_assoc]
    exact hc.reaches.trans hd.reaches
  keeps := hc.keeps.trans (hd.keeps.mono hnm)

theorem Delivers.nil (h : Holds σ ω m g op v) : Delivers σ ω P n m pc [] op g w v w :=
  ⟨g, .nil, h⟩

theorem Evaluates.delivers {f : Fresh} {ty : Ty} (h : Evaluates σ ω P n pc c rhs g w v w')
    (hplaced : Placed P pc (Lowered.computed c (σ.temp f ty) rhs).code) (hn : n ≤ f.temps) :
    Delivers σ ω P n (σ.nextTemp f) pc (Lowered.computed c (σ.temp f ty) rhs).code (σ.temp f ty)
      g w v w' := by
  obtain ⟨g₁, w₁, hrun, hvalue⟩ := h
  have hbind : Ran σ ω P n (pc + c.length) [.instr (.assignTo (σ.temp f ty) rhs)] g₁ w₁
      (σ.setTemp f g₁ v) w' :=
    ⟨reaches_assign hplaced.right.get (writes_temp σ ω f ty g₁ v) hvalue, .setTemp f hn v⟩
  exact ⟨_, hrun.append hbind (Nat.le_refl n), holds_setTemp (Nat.le_refl _) ty g₁ v⟩

theorem evalAll_of_holds {ops : List Operand} {vs : List Value}
    (h : List.Forall₂ (Holds σ ω n g) ops vs) (w : World) :
    evalAll (platform ω) g ops w = some (vs, w) := by
  induction h with
  | nil => rfl
  | cons hop _ ih =>
    simp only [evalAll, bind_eq_some, pure_eq_some]
    exact ⟨_, w, hop.now w, _, w, ih, rfl, rfl⟩

end Runs

/-! ### Receivers -/

/-- What a lowered receiver stands for. -/
inductive Receives (σ : Scope) (ω : Oracle) (n : Nat) (g : Activation) : Receiver → Callee → Prop
  | cls {code owner} :
      Receives σ ω n g { code, invocation := .static, target := .classRef owner } (.cls owner)
  | object {code target v} : Holds σ ω n g target v →
      Receives σ ω n g { code, invocation := .virtual, target } (.object v)

theorem Receives.keep {σ : Scope} {ω : Oracle} {n : Nat} {g g' : Activation} {r : Receiver}
    {callee : Callee} (h : Receives σ ω n g r callee) (hk : Keeps σ n g g') :
    Receives σ ω n g' r callee := by
  cases h with
  | cls => exact .cls
  | object h => exact .object (h.keep hk)

theorem value_call {σ : Scope} {ω : Oracle} {n m : Nat} {g : Activation} {r : Receiver}
    {callee : Callee} {method : String} {ops : List Operand} {vs : List Value} {ty : Ty}
    {v : Value} {w w' : World} (hr : Receives σ ω n g r callee)
    (hargs : List.Forall₂ (Holds σ ω m g) ops vs)
    (hcall : perform ω (callee.call method vs) w = some (v, w')) :
    (Instr.call r.invocation r.target (some method) ops ty).value (platform ω) g w =
      some (v, w') := by
  have hvalues := evalAll_of_holds hargs w
  cases hr with
  | cls =>
    simp only [Instr.value, Flat.callValue, Flat.invoke, Flat.evalReceiver, bind_eq_some,
      expect_eq_some]
    exact ⟨_, _, ⟨rfl, rfl⟩, _, _, pure_eq_some.mpr ⟨rfl, rfl⟩, _, _, hvalues, _, _, ⟨rfl, rfl⟩, hcall⟩
  | @object code target x htarget =>
    have hmethod : byName.method? .virtual target method ops ty = some (methodNamed "" method) := by
      cases target with
      | classRef name => exact absurd htarget Holds.not_classRef
      | lit | var | param | elem | self => rfl
    simp only [Instr.value, Flat.callValue, Flat.invoke, Flat.evalReceiver, bind_eq_some,
      expect_eq_some]
    exact ⟨_, _, ⟨rfl, rfl⟩, _, _, ⟨x, w, htarget.now w, pure_eq_some.mpr ⟨rfl, rfl⟩⟩, _, _, hvalues,
      _, _, ⟨hmethod, rfl⟩, hcall⟩

/-! ### Soundness of pieces -/

/-- A piece does what the tree says, wherever its code stands in `P`. -/
def Piece.Sound (σ : Scope) (ω : Oracle) (P : Code) : Piece → Fresh → Fresh → Prop
  | .expr e _ l, f, f' =>
      (∀ pc a g w v w', Placed P pc l.code → Agrees σ a g →
        evalExpr σ.symbols σ.method ω a e w = some (v, w') →
        Delivers σ ω P f.temps f'.temps pc l.code l.result g w v w') ∧
      -- here the binding need not stand behind the code
      ∀ code dest rhs, l = .computed code dest rhs →
        ∀ pc a g w v w', Placed P pc code → Agrees σ a g →
          evalExpr σ.symbols σ.method ω a e w = some (v, w') →
          Evaluates σ ω P f.temps pc code rhs g w v w'
  | .receiver _ e r, f, f' => ∀ pc a g w callee w', Placed P pc r.code → Agrees σ a g →
      evalCallee σ.symbols σ.method e (evalExpr σ.symbols σ.method ω a e) w = some (callee, w') →
      ∃ g', Ran σ ω P f.temps pc r.code g w g' w' ∧ Receives σ ω f'.temps g' r callee
  | .args es _ code ops, f, f' => ∀ pc a g w vs w', Placed P pc code → Agrees σ a g →
      evalArgs σ.symbols σ.method ω a es w = some (vs, w') →
      ∃ g', Ran σ ω P f.temps pc code g w g' w' ∧ List.Forall₂ (Holds σ ω f'.temps g') ops vs
  | .call e method es _ code instr, f, _ => ∀ pc a g w v w', Placed P pc code → Agrees σ a g →
      (do
        let callee ← evalCallee σ.symbols σ.method e (evalExpr σ.symbols σ.method ω a e)
        let values ← evalArgs σ.symbols σ.method ω a es
        perform ω (callee.call method values)) w = some (v, w') →
      Evaluates σ ω P f.temps pc code instr g w v w'

section Cases

variable {σ : Scope} {ω : Oracle} {P : Code} {e : Expr} {hint : Option Ty} {f f₁ f' : Fresh}

theorem sound_computed {code : Code} {ty : Ty} {rhs : Instr} (hf : f.Upto f')
    (h : ∀ pc a g w v w', Placed P pc code → Agrees σ a g →
      evalExpr σ.symbols σ.method ω a e w = some (v, w') →
      Evaluates σ ω P f.temps pc code rhs g w v w') :
    (Piece.expr e hint (.computed code (σ.temp f' ty) rhs)).Sound σ ω P f (σ.drawn f') := by
  refine ⟨?_, ?_⟩
  · intro pc a g w v w' hplaced ha heval
    exact (h pc a g w v w' hplaced.left ha heval).delivers hplaced hf.temps
  · intro code' dest' rhs' heq
    obtain ⟨rfl, _, rfl⟩ := computed_inj heq
    exact h

theorem sound_settled {l : Lowered} (hl : l.fresh = false)
    (h : ∀ pc a g w v w', Placed P pc l.code → Agrees σ a g →
      evalExpr σ.symbols σ.method ω a e w = some (v, w') →
      Delivers σ ω P f.temps f'.temps pc l.code l.result g w v w') :
    (Piece.expr e hint l).Sound σ ω P f f' := by
  refine ⟨h, ?_⟩
  rintro code dest rhs rfl
  simp [Lowered.computed] at hl

theorem sound_name {span : Source.Span} {name : String} {l : Lowered}
    (h : LowersName σ name f l f') : (Piece.expr (.ident span name) hint l).Sound σ ω P f f' := by
  cases h with
  | slot hslot =>
    apply sound_settled rfl
    intro pc a g w v w' _ ha heval
    obtain ⟨rfl, hholds⟩ := holds_slot hslot ha heval
    exact .nil hholds
  | field _ hfield =>
    apply sound_computed (.refl f)
    intro pc a g w v w' _ ha heval
    obtain ⟨sym, ty, hr, rfl⟩ := fieldOperand?_cases hfield
    simp only [evalExpr, Source.readName, hr, bind_eq_some, expect_eq_some] at heval
    obtain ⟨object, _, ⟨hself, rfl⟩, hget⟩ := heval
    refine ⟨g, _, .nil, ?_⟩
    have hobject : Holds σ ω 0 g σ.self object := .self (ha.self.trans hself)
    simp only [Instr.value, bind_eq_some, expect_eq_some]
    exact ⟨object, _, hobject.now _, _, _, ⟨rfl, rfl⟩, hget⟩
  | cls hslot hfield hknown =>
    apply sound_settled rfl
    intro pc a g w v w' _ _ heval
    simp only [evalExpr, Source.readName] at heval
    -- a class name has no value, whatever it resolves to
    cases hr : σ.symbols.resolve? σ.method name with
    | none => simp [hr] at heval
    | some b =>
      obtain ⟨storage, sym⟩ := b
      cases storage with
      | localVar | param =>
        cases hty : σ.typeOf sym.type <;>
          simp [Scope.slotOperand?, hr, hty, bind, Except.bind, pure, Except.pure] at hslot
      | field =>
        cases hs : σ.isStatic with
        | true => simp [Scope.fieldOperand?, hr, hs] at hfield
        | false =>
          cases hty : σ.typeOf sym.type <;>
            simp [Scope.fieldOperand?, hr, hs, hty, bind, Except.bind, pure, Except.pure] at hfield

theorem sound_not {span : Source.Span} {l : Lowered} (hl : Lowers σ (.expr e (some .bool) l) f f')
    (ih : (Piece.expr e (some .bool) l).Sound σ ω P f f') :
    (Piece.expr (.not span e) hint (.computed l.code (σ.temp f' .bool) (.not l.result))).Sound
      σ ω P f (σ.drawn f') := by
  apply sound_computed hl.upto
  intro pc a g w v w' hplaced ha heval
  simp only [evalExpr, bind_eq_some, expect_eq_some] at heval
  obtain ⟨x, w₁, hx, hneg, rfl⟩ := heval
  obtain ⟨g₁, hrun, hholds⟩ := ih.1 pc a g w x w' hplaced ha hx
  refine ⟨g₁, w', hrun, ?_⟩
  simp only [Instr.value, bind_eq_some, expect_eq_some]
  exact ⟨x, w', hholds.now w', hneg, rfl⟩

theorem sound_binary {span : Source.Span} {op : BinOp} {lhs rhs : Expr} {l r : Lowered}
    (hop : op.isLogical = false) (hl : Lowers σ (.expr lhs (some .int) l) f f₁)
    (hr : Lowers σ (.expr rhs (some .int) r) f₁ f')
    (ihl : (Piece.expr lhs (some .int) l).Sound σ ω P f f₁)
    (ihr : (Piece.expr rhs (some .int) r).Sound σ ω P f₁ f') :
    (Piece.expr (.binary span op lhs rhs) hint
      (.computed (l.code ++ r.code) (σ.temp f' (Instr.binaryType op))
        (.binary op l.result r.result))).Sound σ ω P f (σ.drawn f') := by
  apply sound_computed (hl.upto.trans hr.upto)
  intro pc a g w v w' hplaced ha heval
  simp only [evalExpr, hop, Bool.false_eq_true, if_false, bind_eq_some, expect_eq_some] at heval
  obtain ⟨x, w₁, hx, y, w₂, hy, hv, rfl⟩ := heval
  obtain ⟨g₁, hrun₁, hholds₁⟩ := ihl.1 pc a g w x w₁ hplaced.left ha hx
  obtain ⟨g₂, hrun₂, hholds₂⟩ :=
    ihr.1 _ a g₁ w₁ y w' hplaced.right (hrun₁.keeps.agrees ha) hy
  refine ⟨g₂, w', hrun₁.append hrun₂ hl.upto.temps, ?_⟩
  simp only [Instr.value, bind_eq_some, expect_eq_some]
  exact ⟨x, w', hholds₁ g₂ hrun₂.keeps w', y, w', hholds₂.now w', hv, rfl⟩

theorem value_skipTest (op : BinOp) {dest : Operand} {g : Activation} {w : World} {x : Value}
    {b : Bool} (hdest : dest.eval (platform ω) g w = some (x, w)) (hb : x.truth? = some b) :
    ∃ y, (skipTest op dest).value (platform ω) g w = some (y, w) ∧
      y.truth? = some (op.settledBy b) := by
  unfold skipTest BinOp.settledBy
  split
  · refine ⟨.ofBool !b, ?_, Value.truth?_ofBool _⟩
    simp only [Instr.value, bind_eq_some, expect_eq_some]
    exact ⟨x, w, hdest, by rw [Value.negation?, hb]; rfl, rfl⟩
  · exact ⟨x, hdest, hb⟩

/-- Where the parts of a short-circuit operation stand: `p` is the end of the left operand and `q`
that of the right one. -/
theorem placed_logicalCode {op : BinOp} {n pc : Nat} {dest : Operand} {l r : Lowered}
    (h : Placed P pc (logicalCode op n dest l r)) :
    ∃ p q, p = pc + l.code.length ∧ q = p + 2 + r.code.length ∧
      pc + (logicalCode op n dest l r).length = q + 2 ∧
      Placed P pc l.code ∧ P[p]? = some (.instr (.assignTo dest (.single l.result))) ∧
      P[p + 1]? = some (.instr (.branch (skipTest op dest) (skipLabel op n))) ∧
      Placed P (p + 2) r.code ∧ P[q]? = some (.instr (.assignTo dest (.single r.result))) ∧
      Placed P (q + 1) [.label (skipLabel op n)] := by
  have htwo := h.left.left.right
  have hright := h.left.right
  have hend := h.right
  rw [List.length_append, ← Nat.add_assoc] at hright
  rw [List.length_append, List.length_append, ← Nat.add_assoc, ← Nat.add_assoc] at hend
  refine ⟨_, _, rfl, rfl, ?_, h.left.left.left, htwo.get, htwo.tail.get, hright, hend.get, hend.tail⟩
  simp only [logicalCode, List.length_append, List.length_cons, List.length_nil]
  omega

theorem sound_logical {span : Source.Span} {op : BinOp} {lhs rhs : Expr} {l r : Lowered}
    (hP : (labelsOf P).Nodup) (hop : op.isLogical = true)
    (hl : Lowers σ (.expr lhs (some .bool) l) f.labelled f₁)
    (hr : Lowers σ (.expr rhs (some .bool) r) (σ.drawn f₁) f')
    (ihl : (Piece.expr lhs (some .bool) l).Sound σ ω P f.labelled f₁)
    (ihr : (Piece.expr rhs (some .bool) r).Sound σ ω P (σ.drawn f₁) f') :
    (Piece.expr (.binary span op lhs rhs) hint
      { result := σ.temp f₁ .bool,
        code := logicalCode op f.labels (σ.temp f₁ .bool) l r }).Sound σ ω P f f' := by
  apply sound_settled rfl
  intro pc a g w v w' hplaced ha heval
  simp only [evalExpr, hop, if_true, bind_eq_some, expect_eq_some] at heval
  obtain ⟨x, w₁, hx, b, w₂, ⟨hb, rfl⟩, hrest⟩ := heval
  have htemps : f.temps ≤ f₁.temps := hl.upto.temps
  have hlater : σ.nextTemp f₁ ≤ f'.temps := hr.upto.temps
  obtain ⟨p, q, hp, hq, hlen, hleft, hcopy, htest, hright, hset, hlabel⟩ := placed_logicalCode hplaced
  -- the left operand goes into the temporary of the result, which is then tested
  obtain ⟨g₁, hrun₁, hholds₁⟩ := ihl.1 pc a g w x w₂ hleft ha hx
  have hcopied : Reaches (stepCode? (platform ω) P) ⟨pc, g, w⟩ ⟨p + 1, σ.setTemp f₁ g₁ x, w₂⟩ := by
    have hreach := hrun₁.reaches
    rw [← hp] at hreach
    exact hreach.trans (reaches_assign hcopy (writes_temp σ ω f₁ _ g₁ x) (hholds₁.now w₂))
  have hkeeps : Keeps σ f.temps g (σ.setTemp f₁ g₁ x) :=
    hrun₁.keeps.trans (.setTemp f₁ htemps x)
  have hresult : Holds σ ω f'.temps (σ.setTemp f₁ g₁ x) (σ.temp f₁ .bool) x :=
    holds_setTemp hlater _ _ _
  obtain ⟨y, hy, hyb⟩ := value_skipTest op (hresult.now w₂) hb
  show Delivers σ ω P f.temps f'.temps pc (logicalCode op f.labels (σ.temp f₁ .bool) l r)
    (σ.temp f₁ .bool) g w v w'
  cases hsettled : op.settledBy b with
  | true =>
    simp only [hsettled, if_true, pure_eq_some] at hrest
    obtain ⟨rfl, rfl⟩ := hrest
    rw [hsettled] at hyb
    refine ⟨σ.setTemp f₁ g₁ v, ⟨?_, hkeeps⟩, hresult⟩
    rw [hlen]
    exact hcopied.trans (Flat.reaches_taken hP htest hy hyb hlabel)
  | false =>
    simp only [hsettled, Bool.false_eq_true, if_false] at hrest
    rw [hsettled] at hyb
    have hpast := hcopied.trans (Flat.reaches_untaken htest hy hyb)
    -- the right operand is evaluated and takes the place of the left one
    obtain ⟨g₂, hrun₂, hholds₂⟩ := ihr.1 (p + 2) a _ w₂ v w' hright (hkeeps.agrees ha) hrest
    have hreach := hrun₂.reaches
    rw [← hq] at hreach
    have hsaved := reaches_assign hset (writes_temp σ ω f₁ _ g₂ v) (hholds₂.now w')
    refine ⟨σ.setTemp f₁ g₂ v, ⟨?_, ?_⟩, holds_setTemp hlater _ _ _⟩
    · rw [hlen]
      exact ((hpast.trans hreach).trans hsaved).trans (Flat.reaches_label hlabel.get)
    · have hdrawn : f.temps ≤ (σ.drawn f₁).temps :=
        Nat.le_trans htemps (Nat.le_of_lt (lt_nextTemp σ f₁))
      exact (hkeeps.trans (hrun₂.keeps.mono hdrawn)).trans (.setTemp f₁ htemps v)

theorem delivers_index {idx l : Lowered} {n pc : Nat} {g : Activation} {w w' : World} {v : Value}
    (h : LowersIndex σ idx f l f') (hn : n ≤ f.temps) (hplaced : Placed P pc l.code)
    (hidx : Placed P pc idx.code →
      Delivers σ ω P n f.temps pc idx.code idx.result g w v w') :
    Delivers σ ω P n f'.temps pc l.code l.result g w v w' := by
  cases h with
  | literal =>
    obtain ⟨g₁, hrun, hholds⟩ := hidx hplaced.left
    have hev : Evaluates σ ω P n pc idx.code (.single idx.result) g w v w' :=
      ⟨g₁, w', hrun, hholds.now w'⟩
    exact hev.delivers hplaced hn
  | other => exact hidx hplaced

theorem sound_index {span : Source.Span} {array index : Expr} {arr idx l : Lowered} {elem : Ty}
    {f₂ : Fresh} (harr : Lowers σ (.expr array (some .intArray) arr) f f₁)
    (hi : Lowers σ (.expr index (some .int) idx) f₁ f₂) (hidx : LowersIndex σ idx f₂ l f')
    (iharr : (Piece.expr array (some .intArray) arr).Sound σ ω P f f₁)
    (ihi : (Piece.expr index (some .int) idx).Sound σ ω P f₁ f₂) :
    (Piece.expr (.index span array index) hint
      (.computed (arr.code ++ l.code) (σ.temp f' elem)
        (.single (.elem arr.result l.result elem)))).Sound σ ω P f (σ.drawn f') := by
  apply sound_computed (harr.upto.trans (hi.upto.trans hidx.upto))
  intro pc a g w v w' hplaced ha heval
  simp only [evalExpr, bind_eq_some] at heval
  obtain ⟨x, w₁, hx, i, w₂, hiv, hget⟩ := heval
  obtain ⟨g₁, hrun₁, hholds₁⟩ := iharr.1 pc a g w x w₁ hplaced.left ha hx
  have ha₁ := hrun₁.keeps.agrees ha
  obtain ⟨g₂, hrun₂, hholds₂⟩ := delivers_index hidx hi.upto.temps hplaced.right
    fun hp => ihi.1 _ a g₁ w₁ i w₂ hp ha₁ hiv
  refine ⟨g₂, w₂, hrun₁.append hrun₂ harr.upto.temps, ?_⟩
  simp only [Instr.value, Operand.eval, bind_eq_some]
  exact ⟨x, w₂, hholds₁ g₂ hrun₂.keeps w₂, i, w₂, hholds₂.now w₂, hget⟩

theorem sound_length {span : Source.Span} {array : Expr} {arr : Lowered}
    (harr : Lowers σ (.expr array (some .intArray) arr) f f')
    (iharr : (Piece.expr array (some .intArray) arr).Sound σ ω P f f') :
    (Piece.expr (.length span array) hint
      (.computed arr.code (σ.temp f' .int) (.call .arrayLength arr.result none [] .int))).Sound
      σ ω P f (σ.drawn f') := by
  apply sound_computed harr.upto
  intro pc a g w v w' hplaced ha heval
  simp only [evalExpr, bind_eq_some] at heval
  obtain ⟨x, w₁, hx, hlength⟩ := heval
  obtain ⟨g₁, hrun, hholds⟩ := iharr.1 pc a g w x w₁ hplaced ha hx
  refine ⟨g₁, w₁, hrun, ?_⟩
  simp only [Instr.value, Flat.callValue, bind_eq_some]
  exact ⟨x, w₁, hholds.now w₁, hlength⟩

theorem sound_newArray {span : Source.Span} {size : Expr} {l : Lowered}
    (hl : Lowers σ (.expr size (some .int) l) f f')
    (ih : (Piece.expr size (some .int) l).Sound σ ω P f f') :
    (Piece.expr (.newArray span size) hint
      (.computed l.code (σ.temp f' .intArray)
        (.call .new (.classRef "array") none [l.result] .intArray))).Sound σ ω P f (σ.drawn f') := by
  apply sound_computed hl.upto
  intro pc a g w v w' hplaced ha heval
  simp only [evalExpr, bind_eq_some] at heval
  obtain ⟨n, w₁, hn, hnew⟩ := heval
  obtain ⟨g₁, hrun, hholds⟩ := ih.1 pc a g w n w₁ hplaced ha hn
  refine ⟨g₁, w₁, hrun, ?_⟩
  simp only [Instr.value, Flat.callValue, Flat.allocate, if_true, bind_eq_some]
  exact ⟨n, w₁, hholds.now w₁, hnew⟩

theorem sound_newObject {span : Source.Span} {cls : String} {ty : Ty} :
    (Piece.expr (.newObject span cls) hint
      { result := σ.temp f ty, code := constructInto (σ.temp f ty) cls }).Sound
      σ ω P f (σ.drawn f) := by
  apply sound_settled rfl
  intro pc a g w v w' hplaced _ heval
  refine ⟨σ.setTemp f g v, ⟨?_, .setTemp f (Nat.le_refl _) v⟩, holds_setTemp (Nat.le_refl _) ty g v⟩
  exact reaches_construct hplaced (writes_temp σ ω f ty g v) heval

theorem sound_callValue {span : Source.Span} {receiver : Expr} {method : String} {es : List Expr}
    {code : Code} {instr : Instr}
    (h : Lowers σ (.call receiver method es (.value hint) code instr) f f')
    (ih : (Piece.call receiver method es (.value hint) code instr).Sound σ ω P f f') :
    (Piece.expr (.call span receiver method es) hint
      (.computed code (σ.temp f' instr.resultType) instr)).Sound σ ω P f (σ.drawn f') := by
  apply sound_computed h.upto
  intro pc a g w v w' hplaced ha heval
  exact ih pc a g w v w' hplaced ha (by simpa only [evalExpr] using heval)

/-! ### Receivers, arguments and calls -/

theorem sound_selfReceiver {method : String} {span : Source.Span} (he : e.unparen = .self span) :
    (Piece.receiver method e { invocation := .virtual, target := σ.self }).Sound σ ω P f f' := by
  intro pc a g w callee w' _ ha heval
  simp only [evalCallee, he, bind_eq_some, pure_eq_some] at heval
  obtain ⟨v, w₁, hv, rfl, rfl⟩ := heval
  rw [← evalExpr_unparen, he, evalExpr, expect_eq_some] at hv
  obtain ⟨hself, rfl⟩ := hv
  exact ⟨g, .nil, .object (.self (ha.self.trans hself))⟩

theorem sound_classReceiver {method name : String} {span : Source.Span}
    (he : e.unparen = .ident span name) (hname : σ.symbols.isDeclared σ.method name = false) :
    (Piece.receiver method e { invocation := .static, target := .classRef name }).Sound
      σ ω P f f' := by
  intro pc a g w callee w' _ _ heval
  simp only [evalCallee, he, hname, Bool.false_eq_true, if_false, pure_eq_some] at heval
  obtain ⟨rfl, rfl⟩ := heval
  exact ⟨g, .nil, .cls⟩

theorem sound_valueReceiver {method : String} {l : Lowered}
    (hdeclared : ∀ span name, e.unparen = .ident span name →
      σ.symbols.isDeclared σ.method name = true)
    (ih : (Piece.expr e none l).Sound σ ω P f f') :
    (Piece.receiver method e { code := l.code, invocation := .virtual, target := l.result }).Sound
      σ ω P f f' := by
  intro pc a g w callee w' hplaced ha heval
  have hvalue : ∃ v, callee = .object v ∧
      evalExpr σ.symbols σ.method ω a e w = some (v, w') := by
    unfold evalCallee at heval
    cases hu : e.unparen with
    | ident span name =>
      simp only [hu, hdeclared span name hu, if_true, bind_eq_some, pure_eq_some] at heval
      obtain ⟨v, w₁, hv, rfl, rfl⟩ := heval
      exact ⟨v, rfl, hv⟩
    | intLit | boolLit | self | paren | not | binary | index | length | call | newArray
    | newObject =>
      simp only [hu, bind_eq_some, pure_eq_some] at heval
      obtain ⟨v, w₁, hv, rfl, rfl⟩ := heval
      exact ⟨v, rfl, hv⟩
  obtain ⟨v, rfl, hv⟩ := hvalue
  obtain ⟨g₁, hrun, hholds⟩ := ih.1 pc a g w v w' hplaced ha hv
  exact ⟨g₁, hrun, .object hholds⟩

theorem sound_arg {rest : List Expr} {params : List Source.TypeName} {l : Lowered} {code : Code}
    {ops : List Operand} (he : Lowers σ (.expr e hint l) f f₁)
    (hrest : Lowers σ (.args rest params.tail code ops) f₁ f')
    (ihe : (Piece.expr e hint l).Sound σ ω P f f₁)
    (ihrest : (Piece.args rest params.tail code ops).Sound σ ω P f₁ f') :
    (Piece.args (e :: rest) params (l.code ++ code) (l.result :: ops)).Sound σ ω P f f' := by
  intro pc a g w vs w' hplaced ha heval
  simp only [evalArgs, bind_eq_some, pure_eq_some] at heval
  obtain ⟨v, w₁, hv, rest', w₂, hvs, rfl, rfl⟩ := heval
  obtain ⟨g₁, hrun₁, hholds₁⟩ := ihe.1 pc a g w v w₁ hplaced.left ha hv
  obtain ⟨g₂, hrun₂, hholds₂⟩ :=
    ihrest _ a g₁ w₁ rest' w' hplaced.right (hrun₁.keeps.agrees ha) hvs
  have hfirst := (hholds₁.keep hrun₂.keeps).mono hrest.upto.temps
  exact ⟨g₂, hrun₁.append hrun₂ he.upto.temps, .cons hfirst hholds₂⟩

theorem sound_call {method : String} {es : List Expr} {usage : CallUse} {r : Receiver}
    {params : List Source.TypeName} {code : Code} {ops : List Operand} {ty : Ty}
    (hr : Lowers σ (.receiver method e r) f f₁)
    (ihr : (Piece.receiver method e r).Sound σ ω P f f₁)
    (ihargs : (Piece.args es params code ops).Sound σ ω P f₁ f') :
    (Piece.call e method es usage (r.code ++ code)
      (.call r.invocation r.target (some method) ops ty)).Sound σ ω P f f' := by
  intro pc a g w v w' hplaced ha heval
  simp only [bind_eq_some] at heval
  obtain ⟨callee, w₁, hcallee, values, w₂, hvalues, hcall⟩ := heval
  obtain ⟨g₁, hrun₁, hreceives⟩ := ihr pc a g w callee w₁ hplaced.left ha hcallee
  obtain ⟨g₂, hrun₂, hholds⟩ :=
    ihargs _ a g₁ w₁ values w₂ hplaced.right (hrun₁.keeps.agrees ha) hvalues
  exact ⟨g₂, w₂, hrun₁.append hrun₂ hr.upto.temps,
    value_call (hreceives.keep hrun₂.keeps) hholds hcall⟩

end Cases

/-- Every lowered piece does what the tree says. -/
theorem Lowers.sound {σ : Scope} {ω : Oracle} {P : Code} (hP : (labelsOf P).Nodup) {p : Piece}
    {f f' : Fresh} (h : Lowers σ p f f') : p.Sound σ ω P f f' := by
  induction h with
  | int | bool =>
    apply sound_settled rfl
    intro pc a g w v w' _ _ heval
    simp only [evalExpr, pure_eq_some] at heval
    obtain ⟨rfl, rfl⟩ := heval
    exact .nil (.lit _ _)
  | self =>
    apply sound_settled rfl
    intro pc a g w v w' _ ha heval
    simp only [evalExpr, expect_eq_some] at heval
    obtain ⟨hself, rfl⟩ := heval
    exact .nil (.self (ha.self.trans hself))
  | name h => exact sound_name h
  | paren _ ih => exact ih
  | not h ih => exact sound_not h ih
  | logical hop hl hr ihl ihr => exact sound_logical hP hop hl hr ihl ihr
  | binary hop hl hr ihl ihr => exact sound_binary hop hl hr ihl ihr
  | index ha _ _ hi hidx iha ihi => exact sound_index ha hi hidx iha ihi
  | length h ih => exact sound_length h ih
  | callValue h _ ih => exact sound_callValue h ih
  | newArray h ih => exact sound_newArray h ih
  | newObject _ => exact sound_newObject
  | selfReceiver he => exact sound_selfReceiver he
  | classReceiver he hname _ => exact sound_classReceiver he hname
  | valueReceiver _ hdeclared _ _ _ ih => exact sound_valueReceiver hdeclared ih
  | noArgs =>
    intro pc a g w vs w' _ _ heval
    simp only [evalArgs, pure_eq_some] at heval
    obtain ⟨rfl, rfl⟩ := heval
    exact ⟨g, .nil, .nil⟩
  | arg _ he hrest ihe ihrest => exact sound_arg he hrest ihe ihrest
  | call hr _ _ ihr ihargs => exact sound_call hr ihr ihargs

end JavaMinus.Lowering
