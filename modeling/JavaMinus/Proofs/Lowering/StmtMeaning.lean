import JavaMinus.Proofs.Lowering.ExprMeaning

/-!
# Lowering preserves meaning

A finished run of the tree is matched by a run of its lowered code: the same events in the same order,
the same memory, and the same value of every declared variable. It ends behind the code, or at a
return of the same value. The code of an expression changes no declared variable and leaves the value
of the expression in its result.
-/

namespace JavaMinus.Lowering

open JavaMinus.Behaviour
open JavaMinus.Source (Expr Stmt Activation Outcome State Exec evalExpr)
open JavaMinus.Flat (Operand Instr Item Code Point ReturnsAt labelsOf stepCode?)

/-- Where the code stands when the tree has ended: at line `stop`, or at a return of the value. -/
def EndsAt (ω : Oracle) (P : Code) (stop : Nat) (p : Point Activation) : Outcome → Prop
  | .normal => p.pc = stop
  | .returned v => ReturnsAt (platform ω) P p v

/-- From line `pc` on, the code ends as the tree does. -/
def Finishes (σ : Scope) (ω : Oracle) (P : Code) (pc stop : Nat) (g : Activation) (w : World)
    (outcome : Outcome) (finish : State) : Prop :=
  ∃ pc' g', Reaches (stepCode? (platform ω) P) ⟨pc, g, w⟩ ⟨pc', g', finish.world⟩ ∧
    Agrees σ finish.vars g' ∧ EndsAt ω P stop ⟨pc', g', finish.world⟩ outcome

namespace Finishes

variable {σ : Scope} {ω : Oracle} {P : Code} {pc pc₀ stop stop' : Nat} {g g₀ : Activation}
  {w w₀ : World} {o : Outcome} {q : State}

theorem normal (h : Reaches (stepCode? (platform ω) P) ⟨pc, g₀, w₀⟩ ⟨stop, g, q.world⟩)
    (hq : Agrees σ q.vars g) : Finishes σ ω P pc stop g₀ w₀ .normal q :=
  ⟨stop, g, h, hq, rfl⟩

theorem after (h : Reaches (stepCode? (platform ω) P) ⟨pc₀, g₀, w₀⟩ ⟨pc, g, w⟩)
    (hf : Finishes σ ω P pc stop g w o q) : Finishes σ ω P pc₀ stop g₀ w₀ o q := by
  obtain ⟨pc', g', hreach, hagrees, hend⟩ := hf
  exact ⟨pc', g', h.trans hreach, hagrees, hend⟩

theorem andThen (hf : Finishes σ ω P pc stop g w o q)
    (h : ∀ g, Reaches (stepCode? (platform ω) P) ⟨stop, g, q.world⟩ ⟨stop', g, q.world⟩) :
    Finishes σ ω P pc stop' g w o q := by
  obtain ⟨pc', g', hreach, hagrees, hend⟩ := hf
  cases o with
  | normal =>
    obtain rfl : pc' = stop := hend
    exact ⟨stop', g', hreach.trans (h g'), hagrees, rfl⟩
  | returned v => exact ⟨pc', g', hreach, hagrees, hend⟩

theorem returned {v : Option Value} (hf : Finishes σ ω P pc stop g w (.returned v) q) :
    Finishes σ ω P pc stop' g w (.returned v) q :=
  hf

end Finishes

/-! ### Layout -/

section Layout

variable {P : Code} {pc n : Nat} {test : Code × Instr} {c d : Code}

/-- Where the parts of a choice stand: `p` is the branch, `q` the end of the second arm and `r` that of
the first one. -/
theorem placed_branchCode (h : Placed P pc (branchCode n test c d)) :
    ∃ p q r, p = pc + test.1.length ∧ q = p + 1 + d.length ∧ r = q + 2 + c.length ∧
      pc + (branchCode n test c d).length = r + 1 ∧ Placed P pc test.1 ∧
      P[p]? = some (.instr (.branch test.2 (placeLabel "then" n))) ∧ Placed P (p + 1) d ∧
      P[q]? = some (.instr (.goto (placeLabel "endif" n))) ∧
      Placed P (q + 1) [.label (placeLabel "then" n)] ∧ Placed P (q + 2) c ∧
      Placed P r [.label (placeLabel "endif" n)] := by
  have hbranch := h.left.left.left.left.right
  have hd := h.left.left.left.right
  have htwo := h.left.left.right
  have hc := h.left.right
  have hend := h.right
  simp only [List.length_append, List.length_cons, List.length_nil, Nat.zero_add,
    ← Nat.add_assoc] at hd htwo hc hend
  refine ⟨_, _, _, rfl, rfl, rfl, ?_, h.left.left.left.left.left, hbranch.get, hd, htwo.get,
    htwo.tail, hc, hend⟩
  simp only [branchCode, List.length_append, List.length_cons, List.length_nil]
  omega

/-- Where the parts of a loop stand: `p` is the branch and `q` the end of the body. -/
theorem placed_loopCode (h : Placed P pc (loopCode n test c)) :
    ∃ p q, p = pc + 1 + test.1.length ∧ q = p + 3 + c.length ∧
      pc + (loopCode n test c).length = q + 2 ∧
      Placed P pc [.label (placeLabel "whilecond" n)] ∧ Placed P (pc + 1) test.1 ∧
      P[p]? = some (.instr (.branch test.2 (placeLabel "whilebody" n))) ∧
      P[p + 1]? = some (.instr (.goto (placeLabel "whileend" n))) ∧
      Placed P (p + 2) [.label (placeLabel "whilebody" n)] ∧ Placed P (p + 3) c ∧
      P[q]? = some (.instr (.goto (placeLabel "whilecond" n))) ∧
      Placed P (q + 1) [.label (placeLabel "whileend" n)] := by
  have htest := h.left.left.left.right
  have hthree := h.left.left.right
  have hc := h.left.right
  have hend := h.right
  simp only [List.length_append, List.length_cons, List.length_nil, Nat.zero_add,
    ← Nat.add_assoc] at htest hthree hc hend
  refine ⟨_, _, rfl, rfl, ?_, h.left.left.left.left, htest, hthree.get, hthree.tail.get,
    hthree.tail.tail, hc, hend.get, hend.tail⟩
  simp only [loopCode, List.length_append, List.length_cons, List.length_nil]
  omega

end Layout

/-! ### Conditions -/

theorem LowersCond.evaluates {σ : Scope} {ω : Oracle} {P : Code} (hP : (labelsOf P).Nodup)
    {cond : Expr} {test : Code × Instr} {f f' : Fresh} (h : LowersCond σ cond test f f') {pc : Nat}
    {a g : Activation} {w w' : World} {v : Value} (hplaced : Placed P pc test.1)
    (ha : Agrees σ a g) (heval : evalExpr σ.symbols σ.method ω a cond w = some (v, w')) :
    Evaluates σ ω P f.temps pc test.1 test.2 g w v w' := by
  cases h with
  | direct h _ => exact (h.sound hP).2 _ _ _ rfl pc a g w v w' hplaced ha heval
  | value h =>
    obtain ⟨g₁, hrun, hholds⟩ := (h.sound hP).1 pc a g w v w' hplaced ha heval
    exact ⟨g₁, w', hrun, hholds.now w'⟩

theorem Agrees.refl (σ : Scope) (g : Activation) : Agrees σ g g :=
  ⟨rfl, fun _ _ => rfl, fun _ _ => rfl⟩

/-- Lowered expressions and conditions mean what their trees mean. If the tree has a value, the code
in front runs through with the events of the tree in their order and changes no declared variable.
Behind it the result operand reads as the value; for a condition, the test has the value and does what
is left of the events. -/
theorem lowerExpr_preserves_meaning (σ : Scope) (ω : Oracle) (e : Expr) (a store : Activation)
    (w w' : World) (v : Value) (heval : evalExpr σ.symbols σ.method ω a e w = some (v, w'))
    (hstore : Agrees σ a store) (fresh fresh' : Fresh) :
    (∀ hint l, Yields (lowerExpr σ e hint) fresh l fresh' →
      ∃ store', Reaches (stepCode? (platform ω) l.code) ⟨0, store, w⟩ ⟨l.code.length, store', w'⟩ ∧
        Agrees σ store store' ∧ l.result.eval (platform ω) store' w' = some (v, w')) ∧
    ∀ code test, Yields (lowerCondition σ e) fresh (code, test) fresh' →
      ∃ store' w₁, Reaches (stepCode? (platform ω) code) ⟨0, store, w⟩ ⟨code.length, store', w₁⟩ ∧
        Agrees σ store store' ∧ test.value (platform ω) store' w₁ = some (v, w') := by
  refine ⟨?_, ?_⟩
  · intro hint l hlower
    have hderiv := lowers_of_yields σ e hint fresh l fresh' hlower
    obtain ⟨store', hrun, hholds⟩ :=
      (hderiv.sound hderiv.numbered.nodup).1 0 a store w v w' (.whole l.code) hstore heval
    have hreach := hrun.reaches
    rw [Nat.zero_add] at hreach
    exact ⟨store', hreach, hrun.keeps.agrees (.refl σ store), hholds.now w'⟩
  · intro code test hlower
    have hderiv := lowersCond_of_yields hlower
    obtain ⟨store', w₁, hrun, hvalue⟩ :=
      hderiv.evaluates hderiv.numbered.nodup (.whole code) hstore heval
    have hreach := hrun.reaches
    rw [Nat.zero_add] at hreach
    exact ⟨store', w₁, hreach, hrun.keeps.agrees (.refl σ store), hvalue⟩

/-- A method with a parameter `n` in a class with a field `total`. -/
def tallyScope : Scope where
  symbols := {
    className := "Tally"
    fields := [{ name := "total", type := { name := "int" } }]
    methods := [{
      name := "add"
      returnType := { name := "int" }
      parameters := [{ name := "n", type := { name := "int" } }] }] }
  method := "add"
  returnType := .int

/-- `total < this.add(n) || this.add(total) < n` -/
def tallyTest : Expr :=
  .binary {} .or
    (.binary {} .lt (.ident {} "total") (.call {} (.self {}) "add" [.ident {} "n"]))
    (.binary {} .lt (.call {} (.self {}) "add" [.ident {} "total"]) (.ident {} "n"))

/-- Every call yields one and sets all fields to nine. -/
def setsNine : Oracle := fun _ memory _ => some (.int 1, { memory with field := fun _ _ => .int 9 })

def tallyVars : Activation where
  self := some (.ref 0)
  locals := fun _ => .int 0
  params := fun _ => .int 2

def tallyWorld : World where
  memory := { field := fun _ _ => .int 5, array := fun _ => none }

/-- The field is read before the call that overwrites it, and again before the second call. -/
def tallyEvents : List Event :=
  [.getField (Source.fieldNamed "total") (.ref 0),
    .call .virtual (Source.methodNamed "" "add") (some (.ref 0)) [.int 2],
    .getField (Source.fieldNamed "total") (.ref 0),
    .call .virtual (Source.methodNamed "" "add") (some (.ref 0)) [.int 9]]

theorem tallyTest_eval :
    ∃ w', evalExpr tallyScope.symbols tallyScope.method setsNine tallyVars tallyTest tallyWorld =
      some (.int 1, w') ∧ w'.trace = tallyEvents :=
  ⟨_, rfl, rfl⟩

theorem lowerExpr_preserves_meaning_tally :
    ∃ w', w'.trace = tallyEvents ∧
      (∃ l fresh', Yields (lowerExpr tallyScope tallyTest none) {} l fresh' ∧
        ∃ store', Reaches (stepCode? (platform setsNine) l.code) ⟨0, tallyVars, tallyWorld⟩
            ⟨l.code.length, store', w'⟩ ∧
          l.result.eval (platform setsNine) store' w' = some (.int 1, w')) ∧
      ∃ code test fresh', Yields (lowerCondition tallyScope tallyTest) {} (code, test) fresh' ∧
        ∃ store' w₁, Reaches (stepCode? (platform setsNine) code) ⟨0, tallyVars, tallyWorld⟩
            ⟨code.length, store', w₁⟩ ∧
          test.value (platform setsNine) store' w₁ = some (.int 1, w') := by
  obtain ⟨w', heval, htrace⟩ := tallyTest_eval
  have hboth := lowerExpr_preserves_meaning tallyScope setsNine tallyTest tallyVars tallyVars
    tallyWorld w' _ heval (.refl _ _) {}
  obtain ⟨store₁, hreach₁, _, hresult⟩ := (hboth _).1 none _ rfl
  obtain ⟨store₂, w₁, hreach₂, _, hvalue⟩ := (hboth _).2 _ _ rfl
  exact ⟨w', htrace, ⟨_, _, rfl, store₁, hreach₁, hresult⟩, _, _, _, rfl, store₂, w₁, hreach₂,
    hvalue⟩

/-! ### Statements without parts -/

section Simple

variable {σ : Scope} {ω : Oracle} {P : Code} {span : Source.Span} {name : String} {e : Expr}
  {code : Code} {f f' : Fresh} {pc : Nat} {a a' g : Activation} {w w₁ w' : World} {v : Value}

theorem finishes_expr (hP : (labelsOf P).Nodup) (h : LowersStmt σ (.expr span e) f code f')
    (hplaced : Placed P pc code) (ha : Agrees σ a g)
    (heval : evalExpr σ.symbols σ.method ω a e w = some (v, w')) :
    Finishes σ ω P pc (pc + code.length) g w .normal ⟨a, w'⟩ := by
  rw [← evalExpr_unparen] at heval
  cases h with
  | @callStmt _ _ _ _ _ _ c call _ _ he hcall =>
    rw [he, evalExpr] at heval
    obtain ⟨g₁, w₁, hrun, hvalue⟩ := hcall.sound hP pc a g w v w' hplaced.left ha heval
    have hexec : call.exec (platform ω) g₁ w₁ = some ((.next, g₁), w') := by
      cases hcall with
      | call =>
        simp only [Instr.exec, bind_eq_some, pure_eq_some]
        exact ⟨v, w', hvalue, trivial, rfl⟩
    refine .normal (g := g₁) ?_ (hrun.keeps.agrees ha)
    rw [List.length_append, ← Nat.add_assoc]
    exact hrun.reaches.trans (Flat.reaches_next hplaced.right.get hexec)
  | exprStmt _ hl =>
    obtain ⟨g₁, hrun, _⟩ := (hl.sound hP).1 pc a g w v w' hplaced ha heval
    exact .normal hrun.reaches (hrun.keeps.agrees ha)

theorem finishes_write {c : Code} {dest : Operand} {rhs : Instr}
    (hslot : σ.slotOperand? name = .ok (some dest))
    (hplaced : Placed P pc (c ++ [.instr (.assignTo dest rhs)])) (ha : Agrees σ a g)
    (hwrite : Source.writeName σ.symbols σ.method ω a name v w₁ = some (a', w'))
    (hev : Evaluates σ ω P f.temps pc c rhs g w v w₁) :
    Finishes σ ω P pc (pc + (c ++ [Item.instr (.assignTo dest rhs)]).length) g w .normal ⟨a', w'⟩ := by
  obtain ⟨g₁, w₂, hrun, hvalue⟩ := hev
  obtain ⟨rfl, g₂, hwrites, hagrees⟩ := writes_slot hslot (hrun.keeps.agrees ha) hwrite
  refine .normal (g := g₂) ?_ hagrees
  rw [List.length_append, ← Nat.add_assoc]
  exact hrun.reaches.trans (reaches_assign hplaced.right.get hwrites hvalue)

theorem finishes_assign (hP : (labelsOf P).Nodup) (h : LowersStmt σ (.assign span name e) f code f')
    (hplaced : Placed P pc code) (ha : Agrees σ a g)
    (heval : evalExpr σ.symbols σ.method ω a e w = some (v, w₁))
    (hwrite : Source.writeName σ.symbols σ.method ω a name v w₁ = some (a', w')) :
    Finishes σ ω P pc (pc + code.length) g w .normal ⟨a', w'⟩ := by
  cases h with
  | assignNew hslot he _ =>
    rw [← evalExpr_unparen, he, evalExpr] at heval
    obtain ⟨rfl, g₁, hwrites, hagrees⟩ := writes_slot hslot ha hwrite
    exact .normal (reaches_construct hplaced hwrites heval) hagrees
  | assignCall hslot he hcall =>
    rw [← evalExpr_unparen, he, evalExpr] at heval
    exact finishes_write hslot hplaced ha hwrite
      (hcall.sound hP pc a g w v w₁ hplaced.left ha heval)
  | retarget hslot hl =>
    exact finishes_write hslot hplaced ha hwrite
      ((hl.sound hP).2 _ _ _ rfl pc a g w v w₁ hplaced.left ha heval)
  | copy hslot hl _ =>
    obtain ⟨g₁, hrun, hholds⟩ := (hl.sound hP).1 pc a g w v w₁ hplaced.left ha heval
    exact finishes_write hslot hplaced ha hwrite ⟨g₁, w₁, hrun, hholds.now w₁⟩
  | putField _ hfield hl =>
    obtain ⟨g₁, hrun, hholds⟩ := (hl.sound hP).1 pc a g w v w₁ hplaced.left ha heval
    have ha₁ := hrun.keeps.agrees ha
    obtain ⟨sym, ty, hr, rfl⟩ := fieldOperand?_cases hfield
    simp only [Source.writeName, hr, bind_eq_some, expect_eq_some, pure_eq_some] at hwrite
    obtain ⟨object, w₂, ⟨hself, rfl⟩, x, w₃, hput, rfl, rfl⟩ := hwrite
    have hobject : Holds σ ω 0 g₁ σ.self object := .self (ha₁.self.trans hself)
    refine .normal (g := g₁) ?_ ha₁
    rw [List.length_append, ← Nat.add_assoc]
    refine hrun.reaches.trans (Flat.reaches_next hplaced.right.get ?_)
    simp only [Instr.exec, bind_eq_some, expect_eq_some, pure_eq_some]
    exact ⟨object, _, hobject.now _, v, _, hholds.now _, _, _, ⟨rfl, rfl⟩, x, _, hput, trivial, rfl⟩

theorem finishes_store {index : Expr} (hP : (labelsOf P).Nodup)
    (h : LowersStmt σ (.store span name index e) f code f') (hplaced : Placed P pc code)
    (ha : Agrees σ a g)
    (hstore : Source.writeElement σ.symbols σ.method ω a name index e w = some ((), w')) :
    Finishes σ ω P pc (pc + code.length) g w .normal ⟨a, w'⟩ := by
  cases h with
  | store harr _ _ hi hidx hl =>
    simp only [Source.writeElement, bind_eq_some, pure_eq_some] at hstore
    obtain ⟨x, w₁, hx, i, w₂, hiv, v, w₃, hv, y, w₄, hput, _, rfl⟩ := hstore
    have hname : (Piece.expr (.ident {} name) none _).Sound σ ω P _ _ := sound_name harr
    -- array, index and value are computed in this order and stay as they are
    obtain ⟨g₁, hrun₁, hholds₁⟩ := hname.1 pc a g w x w₁ hplaced.left.left.left ha hx
    have ha₁ := hrun₁.keeps.agrees ha
    have hp₂ := hplaced.left.left.right
    obtain ⟨g₂, hrun₂, hholds₂⟩ := delivers_index hidx hi.upto.temps hp₂
      fun hp => (hi.sound hP).1 _ a g₁ w₁ i w₂ hp ha₁ hiv
    have ha₂ := hrun₂.keeps.agrees ha₁
    have hfront := hrun₁.append hrun₂ harr.upto.temps
    obtain ⟨g₃, hrun₃, hholds₃⟩ :=
      (hl.sound hP).1 _ a g₂ w₂ v w₃ hplaced.left.right ha₂ hv
    have hall := hfront.append hrun₃ (harr.upto.trans (hi.upto.trans hidx.upto)).temps
    have hkept := hrun₂.keeps.trans (hrun₃.keeps.mono (hi.upto.trans hidx.upto).temps)
    refine .normal (g := g₃) ?_ (hrun₃.keeps.agrees ha₂)
    rw [List.length_append, ← Nat.add_assoc]
    refine hall.reaches.trans (Flat.reaches_next hplaced.right.get ?_)
    simp only [Instr.exec, Flat.writeTo, Instr.value, bind_eq_some, pure_eq_some]
    exact ⟨g₃, _, ⟨x, _, hholds₁ g₃ hkept _, i, _, hholds₂ g₃ hrun₃.keeps _, v, _, hholds₃.now _, y, _,
      hput, rfl, rfl⟩, rfl, rfl⟩

theorem finishes_retValue (hP : (labelsOf P).Nodup)
    (h : LowersStmt σ (.ret span (some e)) f code f') (hplaced : Placed P pc code)
    (ha : Agrees σ a g) (heval : evalExpr σ.symbols σ.method ω a e w = some (v, w')) :
    Finishes σ ω P pc (pc + code.length) g w (.returned (some v)) ⟨a, w'⟩ := by
  cases h with
  | @retValue _ _ l _ _ hl =>
    obtain ⟨g₁, hrun, hholds⟩ := (hl.sound hP).1 pc a g w v w' hplaced.left ha heval
    refine ⟨_, g₁, hrun.reaches, hrun.keeps.agrees ha, some l.result, hplaced.right.get, ?_⟩
    simp only [Instr.exec, bind_eq_some, pure_eq_some]
    exact ⟨v, w', hholds.now w', rfl, rfl⟩

end Simple

/-! ### Choices and loops -/

section Compound

variable {σ : Scope} {ω : Oracle} {P c d : Code} {cond : Expr} {test : Code × Instr} {f f' : Fresh}
  {n pc : Nat} {a g : Activation} {w w₁ : World} {v : Value} {o : Outcome} {q : State}

theorem finishes_yes (hP : (labelsOf P).Nodup) (hcond : LowersCond σ cond test f f')
    (hplaced : Placed P pc (branchCode n test c d)) (ha : Agrees σ a g)
    (heval : evalExpr σ.symbols σ.method ω a cond w = some (v, w₁)) (hv : v.truth? = some true)
    (hc : ∀ pc g, Placed P pc c → Agrees σ a g → Finishes σ ω P pc (pc + c.length) g w₁ o q) :
    Finishes σ ω P pc (pc + (branchCode n test c d).length) g w o q := by
  obtain ⟨p, k, r, rfl, rfl, rfl, hlen, htest, hbranch, _, _, hthen, hcode, hend⟩ :=
    placed_branchCode hplaced
  obtain ⟨g₁, w₂, hrun, hvalue⟩ := hcond.evaluates hP htest ha heval
  rw [hlen]
  have hjump := hrun.reaches.trans (Flat.reaches_taken hP hbranch hvalue hv hthen)
  exact .after hjump ((hc _ g₁ hcode (hrun.keeps.agrees ha)).andThen
    fun _ => Flat.reaches_label hend.get)

theorem finishes_no (hP : (labelsOf P).Nodup) (hcond : LowersCond σ cond test f f')
    (hplaced : Placed P pc (branchCode n test c d)) (ha : Agrees σ a g)
    (heval : evalExpr σ.symbols σ.method ω a cond w = some (v, w₁)) (hv : v.truth? = some false)
    (hd : ∀ pc g, Placed P pc d → Agrees σ a g → Finishes σ ω P pc (pc + d.length) g w₁ o q) :
    Finishes σ ω P pc (pc + (branchCode n test c d).length) g w o q := by
  obtain ⟨p, k, r, rfl, rfl, rfl, hlen, htest, hbranch, hcode, hgoto, _, _, hend⟩ :=
    placed_branchCode hplaced
  obtain ⟨g₁, w₂, hrun, hvalue⟩ := hcond.evaluates hP htest ha heval
  rw [hlen]
  have hpast := hrun.reaches.trans (Flat.reaches_untaken hbranch hvalue hv)
  exact .after hpast ((hd _ g₁ hcode (hrun.keeps.agrees ha)).andThen
    fun _ => Flat.reaches_goto hP hgoto hend)

theorem finishes_leave (hP : (labelsOf P).Nodup) (hcond : LowersCond σ cond test f f')
    (hplaced : Placed P pc (loopCode n test c)) (ha : Agrees σ a g)
    (heval : evalExpr σ.symbols σ.method ω a cond w = some (v, w₁)) (hv : v.truth? = some false) :
    Finishes σ ω P pc (pc + (loopCode n test c).length) g w .normal ⟨a, w₁⟩ := by
  obtain ⟨p, k, rfl, rfl, hlen, hstart, htest, hbranch, hgoto, _, _, _, hend⟩ :=
    placed_loopCode hplaced
  obtain ⟨g₁, w₂, hrun, hvalue⟩ := hcond.evaluates hP htest ha heval
  rw [hlen]
  have hpast := hrun.reaches.trans (Flat.reaches_untaken hbranch hvalue hv)
  have hout := hpast.trans (Flat.reaches_goto hP hgoto hend)
  exact .normal ((Flat.reaches_label hstart.get).trans hout) (hrun.keeps.agrees ha)

/-- One round of a loop: the body runs, and unless it returns control is back at the start. -/
theorem finishes_round (hP : (labelsOf P).Nodup) (hcond : LowersCond σ cond test f f')
    (hplaced : Placed P pc (loopCode n test c)) (ha : Agrees σ a g)
    (heval : evalExpr σ.symbols σ.method ω a cond w = some (v, w₁)) (hv : v.truth? = some true)
    (hc : ∀ pc g, Placed P pc c → Agrees σ a g → Finishes σ ω P pc (pc + c.length) g w₁ o q) :
    Finishes σ ω P pc pc g w o q := by
  obtain ⟨p, k, rfl, rfl, _, hstart, htest, hbranch, _, hbody, hcode, hback, _⟩ :=
    placed_loopCode hplaced
  obtain ⟨g₁, w₂, hrun, hvalue⟩ := hcond.evaluates hP htest ha heval
  have hjump := hrun.reaches.trans (Flat.reaches_taken hP hbranch hvalue hv hbody)
  refine .after ((Flat.reaches_label hstart.get).trans hjump) ?_
  exact (hc _ g₁ hcode (hrun.keeps.agrees ha)).andThen
    fun _ => Flat.reaches_jump hback rfl (Flat.labelPlace?_of_placed hstart hP)

end Compound

/-! ### All statements -/

/-- The lowered code of a statement, wherever it stands, ends as the statement does. -/
theorem LowersStmt.finishes {σ : Scope} {ω : Oracle} {P : Code} (hP : (labelsOf P).Nodup) {s : Stmt}
    {p q : State} {o : Outcome} (hexec : Exec σ.symbols σ.method ω s p o q) :
    ∀ {f f' : Fresh} {code : Code}, LowersStmt σ s f code f' → ∀ pc g, Placed P pc code →
      Agrees σ p.vars g → Finishes σ ω P pc (pc + code.length) g p.world o q := by
  -- by induction on the run of the tree; a loop meets its own code again in the next round
  induction hexec with
  | done =>
    intro f f' code h pc g _ ha
    cases h
    exact .normal .refl ha
  | seq _ _ ihs ihrest =>
    intro f f' code h pc g hplaced ha
    cases h with
    | seq hs hrest =>
      obtain ⟨_, g₁, hreach, ha₁, rfl⟩ := ihs hs pc g hplaced.left ha
      rw [List.length_append, ← Nat.add_assoc]
      exact .after hreach (ihrest hrest _ g₁ hplaced.right ha₁)
  | stop _ ih =>
    intro f f' code h pc g hplaced ha
    cases h with
    | seq hs _ => exact (ih hs pc g hplaced.left ha).returned
  | yes heval hv _ ih =>
    intro f f' code h pc g hplaced ha
    cases h with
    | branch hcond _ hc | oneArmed hcond hc =>
      exact finishes_yes hP hcond hplaced ha heval hv fun pc g hp ha => ih hc pc g hp ha
  | no heval hv _ ih =>
    intro f f' code h pc g hplaced ha
    cases h with
    | branch hcond hd _ =>
      exact finishes_no hP hcond hplaced ha heval hv fun pc g hp ha => ih hd pc g hp ha
  | skip heval hv =>
    intro f f' code h pc g hplaced ha
    cases h with
    | oneArmed hcond _ =>
      exact finishes_no hP hcond hplaced ha heval hv fun _ _ _ ha => .normal .refl ha
  | leave heval hv =>
    intro f f' code h pc g hplaced ha
    cases h with
    | loop hcond _ => exact finishes_leave hP hcond hplaced ha heval hv
  | again heval hv _ _ ihbody ihloop =>
    intro f f' code h pc g hplaced ha
    cases h with
    | loop hcond hc =>
      obtain ⟨_, g₁, hreach, ha₁, rfl⟩ := finishes_round hP hcond hplaced ha heval hv
        fun pc g hp ha => ihbody hc pc g hp ha
      exact .after hreach (ihloop (.loop hcond hc) _ g₁ hplaced ha₁)
  | exit heval hv _ ih =>
    intro f f' code h pc g hplaced ha
    cases h with
    | loop hcond hc =>
      exact (finishes_round hP hcond hplaced ha heval hv
        fun pc g hp ha => ih hc pc g hp ha).returned
  | expr heval =>
    intro f f' code h pc g hplaced ha
    exact finishes_expr hP h hplaced ha heval
  | assign heval hwrite =>
    intro f f' code h pc g hplaced ha
    exact finishes_assign hP h hplaced ha heval hwrite
  | store hstore =>
    intro f f' code h pc g hplaced ha
    exact finishes_store hP h hplaced ha hstore
  | ret =>
    intro f f' code h pc g hplaced ha
    cases h with
    | ret => exact ⟨pc, g, .refl, ha, none, hplaced.get, rfl⟩
  | retValue heval =>
    intro f f' code h pc g hplaced ha
    exact finishes_retValue hP h hplaced ha heval

/-- Lowering preserves meaning: if the statements finish, their code run from its first line reaches
its end, or a return of the same value, with the same events, the same memory and the same declared
variables. -/
theorem lowerStmts_preserves_meaning (σ : Scope) (ω : Oracle) (body : List Stmt)
    (fresh fresh' : Fresh) (code : Code) (hlower : Yields (lowerStmts σ body) fresh code fresh')
    (span : Source.Span) (start finish : State) (outcome : Outcome)
    (hexec : Exec σ.symbols σ.method ω (.block span body) start outcome finish)
    (store : Activation) (hstore : Agrees σ start.vars store) :
    ∃ pc store', Reaches (stepCode? (platform ω) code) ⟨0, store, start.world⟩
        ⟨pc, store', finish.world⟩ ∧
      Agrees σ finish.vars store' ∧
      EndsAt ω code code.length ⟨pc, store', finish.world⟩ outcome := by
  have hderiv := lowersStmts_of_yields σ body span fresh code fresh' hlower
  have hrun := LowersStmt.finishes hderiv.numbered.nodup hexec hderiv 0 store (.whole code) hstore
  rw [Nat.zero_add] at hrun
  exact hrun

/-- A method with a parameter `n` and a local variable `i`. -/
def roundsScope : Scope where
  symbols := {
    className := "Rounds"
    methods := [{
      name := "rounds"
      returnType := { name := "int" }
      parameters := [{ name := "n", type := { name := "int" } }]
      locals := [{ name := "i", type := { name := "int" } }] }] }
  method := "rounds"
  returnType := .int

/-- `while (i < 1 && i < n) i = this.next(i); return i;` -/
def roundsBody : List Stmt :=
  [.loop {} (.binary {} .and (.binary {} .lt (.ident {} "i") (.intLit {} 1))
      (.binary {} .lt (.ident {} "i") (.ident {} "n")))
    (.assign {} "i" (.call {} (.self {}) "next" [.ident {} "i"])),
    .ret {} (some (.ident {} "i"))]

def roundsStart : State where
  vars := { self := some (.ref 0), locals := fun _ => .int 0, params := fun _ => .int 5 }
  world := { memory := { field := fun _ _ => .null, array := fun _ => none } }

/-- Every call and allocation yields one and leaves the memory alone. -/
def yieldsOne : Oracle := fun _ memory _ => some (.int 1, memory)

theorem roundsBody_exec :
    ∃ finish, Exec roundsScope.symbols roundsScope.method yieldsOne (.block {} roundsBody)
        roundsStart (.returned (some (.int 1))) finish ∧
      finish.world.trace =
        [.call .virtual (Source.methodNamed "" "next") (some (.ref 0)) [.int 0]] :=
  ⟨_, .seq (.again rfl rfl (.assign rfl rfl) (.leave rfl rfl)) (.stop (.retValue rfl)), rfl⟩

theorem lowerStmts_preserves_meaning_rounds :
    ∃ code fresh', Yields (lowerStmts roundsScope roundsBody) {} code fresh' ∧
      Agrees roundsScope roundsStart.vars roundsStart.vars ∧
      ∃ pc store' world', Reaches (stepCode? (platform yieldsOne) code)
          ⟨0, roundsStart.vars, roundsStart.world⟩ ⟨pc, store', world'⟩ ∧
        world'.trace = [.call .virtual (Source.methodNamed "" "next") (some (.ref 0)) [.int 0]] ∧
        EndsAt yieldsOne code code.length ⟨pc, store', world'⟩ (.returned (some (.int 1))) := by
  have hstore : Agrees roundsScope roundsStart.vars roundsStart.vars :=
    ⟨rfl, fun _ _ => rfl, fun _ _ => rfl⟩
  obtain ⟨finish, hexec, htrace⟩ := roundsBody_exec
  obtain ⟨pc, store', hreach, _, hend⟩ := lowerStmts_preserves_meaning roundsScope yieldsOne
    roundsBody {} _ _ rfl {} _ finish _ hexec roundsStart.vars hstore
  exact ⟨_, _, rfl, hstore, pc, store', finish.world, hreach, htrace, hend⟩

end JavaMinus.Lowering
