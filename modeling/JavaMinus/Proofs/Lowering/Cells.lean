import JavaMinus.Proofs.Flat.Run
import JavaMinus.Proofs.Lowering.Names
import JavaMinus.Proofs.Source.Meaning

/-!
# The variables of lowered code

Lowered code keeps local variables and parameters where the tree has them and adds temporaries.
Expressions write temporaries only, each with a number above those drawn before. The value of an
operand is therefore stable: no code lowered later changes it.
-/

namespace JavaMinus.Lowering

open JavaMinus.Behaviour
open JavaMinus.Source (SymbolTable Activation fieldNamed methodNamed)
open JavaMinus.Flat (Ty Operand Instr Code Storage Linkage Platform writeTo stepCode?)

/-! ### What lowered code runs on -/

/-- Fields are known by their names, methods by their names and by the class of a static call. -/
def byName : Linkage where
  cls := id
  field? op :=
    match op with
    | .var name _ => some (fieldNamed name)
    | _ => none
  method? _ target name _ _ :=
    match target with
    | .classRef owner => some (methodNamed owner name)
    | _ => some (methodNamed "" name)

/-- Temporaries are kept beside the local variables. -/
def cells : Storage Activation where
  self? a := a.self
  read? a cell :=
    match cell with
    | .var name => some (a.locals name)
    | .param name => some (a.params name)
  write? a cell v :=
    match cell with
    | .var name => some (a.setLocal name v)
    | .param name => some (a.setParam name v)

def platform (ω : Oracle) : Platform Activation where
  oracle := ω
  link := byName
  storage := cells

/-! ### Agreement with the tree -/

def HasLocal (t : SymbolTable) (method name : String) : Prop :=
  ∃ m, t.method? method = some m ∧ name ∈ m.locals.map (·.name)

def HasParam (t : SymbolTable) (method name : String) : Prop :=
  ∃ m, t.method? method = some m ∧ name ∈ m.parameters.map (·.name)

/-- Every declared variable has the same value for the tree and for the lowered code. Temporaries and
names that are not declared may have any. -/
structure Agrees (σ : Scope) (a g : Activation) : Prop where
  self : g.self = a.self
  locals : ∀ name, HasLocal σ.symbols σ.method name → g.locals name = a.locals name
  params : ∀ name, HasParam σ.symbols σ.method name → g.params name = a.params name

theorem hasLocal_of_local? {m : Source.MethodSymbols} {name : String} {b : Source.Binding}
    (h : m.local? name = some b) : b.storage = .localVar ∧ name ∈ m.locals.map (·.name) := by
  unfold Source.MethodSymbols.local? at h
  obtain ⟨s, hs, rfl⟩ := Option.map_eq_some_iff.mp h
  have hname := List.find?_some hs
  exact ⟨rfl, List.mem_map.mpr ⟨s, List.mem_of_find?_eq_some hs, by simpa using hname⟩⟩

theorem param?_listed {m : Source.MethodSymbols} {name : String} {b : Source.Binding}
    (h : m.param? name = some b) :
    ∃ k, b.storage = .param k ∧ m.parameters[k]? = some b.symbol ∧ b.symbol.name = name := by
  unfold Source.MethodSymbols.param? at h
  obtain ⟨p, hp, rfl⟩ := Option.map_eq_some_iff.mp h
  have hname := List.find?_some hp
  have hlisted := List.mem_zipIdx_iff_getElem?.mp (List.mem_of_find?_eq_some hp)
  exact ⟨p.2, rfl, hlisted, by simpa using hname⟩

theorem hasParam_of_param? {m : Source.MethodSymbols} {name : String} {b : Source.Binding}
    (h : m.param? name = some b) :
    (∃ k, b.storage = .param k) ∧ name ∈ m.parameters.map (·.name) := by
  obtain ⟨k, hs, hlisted, rfl⟩ := param?_listed h
  exact ⟨⟨k, hs⟩, List.mem_map_of_mem (List.mem_of_getElem? hlisted)⟩

theorem resolve?_declared {t : SymbolTable} {method name : String} {b : Source.Binding}
    (h : t.resolve? method name = some b) :
    match b.storage with
    | .localVar => HasLocal t method name
    | .param _ => HasParam t method name
    | .field => True := by
  unfold SymbolTable.resolve? at h
  rw [Option.or_eq_some_iff] at h
  rcases h with h | ⟨_, h⟩
  · obtain ⟨m, hm, h⟩ := Option.bind_eq_some_iff.mp h
    rw [Option.or_eq_some_iff] at h
    rcases h with h | ⟨_, h⟩
    · obtain ⟨hs, hmem⟩ := hasLocal_of_local? h
      rw [hs]
      exact ⟨m, hm, hmem⟩
    · obtain ⟨⟨k, hs⟩, hmem⟩ := hasParam_of_param? h
      rw [hs]
      exact ⟨m, hm, hmem⟩
  · obtain ⟨f, _, rfl⟩ := Option.map_eq_some_iff.mp h
    trivial

theorem isDeclared_of_hasLocal {t : SymbolTable} {method name : String}
    (h : HasLocal t method name) : t.isDeclared method name = true := by
  obtain ⟨m, hm, hmem⟩ := h
  obtain ⟨s, hs, rfl⟩ := List.mem_map.mp hmem
  have hfind : (m.locals.find? fun x => x.name == s.name).isSome = true := by
    rw [List.find?_isSome]
    exact ⟨s, hs, by simp⟩
  simp [SymbolTable.isDeclared, SymbolTable.resolve?, hm, Source.MethodSymbols.local?, hfind]

theorem isDeclared_of_hasParam {t : SymbolTable} {method name : String}
    (h : HasParam t method name) : t.isDeclared method name = true := by
  obtain ⟨m, hm, hmem⟩ := h
  obtain ⟨s, hs, rfl⟩ := List.mem_map.mp hmem
  have hfind : (m.parameters.zipIdx.find? fun p => p.1.name == s.name).isSome = true := by
    rw [List.find?_isSome]
    obtain ⟨k, hk⟩ := List.mem_iff_getElem?.mp hs
    exact ⟨(s, k), List.mem_zipIdx_iff_getElem?.mpr hk, by simp⟩
  simp [SymbolTable.isDeclared, SymbolTable.resolve?, hm, Source.MethodSymbols.param?, hfind]

/-! ### Names of slots and fields -/

theorem slotOperand?_cases {σ : Scope} {name : String} {op : Operand}
    (h : σ.slotOperand? name = .ok (some op)) :
    (∃ sym ty, σ.symbols.resolve? σ.method name = some ⟨.localVar, sym⟩ ∧ op = .var name ty) ∨
    (∃ k sym ty, σ.symbols.resolve? σ.method name = some ⟨.param k, sym⟩ ∧
      op = .param (σ.paramIndex k) name ty) := by
  unfold Scope.slotOperand? at h
  cases hr : σ.symbols.resolve? σ.method name with
  | none =>
    rw [hr] at h
    simp at h
  | some b =>
    obtain ⟨storage, sym⟩ := b
    rw [hr] at h
    cases hty : σ.typeOf sym.type with
    | error e => simp [hty, bind, Except.bind] at h
    | ok ty =>
      cases storage with
      | localVar =>
        simp [hty, bind, Except.bind, pure, Except.pure] at h
        exact .inl ⟨sym, ty, rfl, h.symm⟩
      | param k =>
        simp [hty, bind, Except.bind, pure, Except.pure] at h
        exact .inr ⟨k, sym, ty, rfl, h.symm⟩
      | field => simp [hty, bind, Except.bind, pure, Except.pure] at h

theorem name?_of_slot {σ : Scope} {name : String} {op : Operand}
    (h : σ.slotOperand? name = .ok (some op)) : op.name? = some name := by
  rcases slotOperand?_cases h with ⟨_, _, _, rfl⟩ | ⟨_, _, _, _, rfl⟩ <;> rfl

theorem fieldOperand?_cases {σ : Scope} {name : String} {op : Operand}
    (h : σ.fieldOperand? name = .ok (some op)) :
    ∃ sym ty, σ.symbols.resolve? σ.method name = some ⟨.field, sym⟩ ∧ op = .var name ty := by
  unfold Scope.fieldOperand? at h
  split at h
  · next sym hr =>
    cases hs : σ.isStatic with
    | true => simp [hs] at h
    | false =>
      cases hty : σ.typeOf sym.type with
      | error e => simp [hs, hty, bind, Except.bind] at h
      | ok ty =>
        simp [hs, hty, bind, Except.bind, pure, Except.pure] at h
        exact ⟨sym, ty, hr, h.symm⟩
  · simp at h

/-! ### Temporaries -/

/-- Write the temporary that comes next. -/
def Scope.setTemp (σ : Scope) (f : Fresh) (g : Activation) (v : Value) : Activation :=
  g.setLocal (tempName (σ.nextTemp f)) v

/-- A temporary that may still be drawn after number `n`. -/
def Scratch (σ : Scope) (n : Nat) (name : String) : Prop :=
  ∃ k, n < k ∧ name = tempName k ∧ σ.symbols.isDeclared σ.method name = false

/-- All but the temporaries above number `n` is as before. -/
structure Keeps (σ : Scope) (n : Nat) (g g' : Activation) : Prop where
  self : g'.self = g.self
  params : g'.params = g.params
  locals : ∀ name, ¬ Scratch σ n name → g'.locals name = g.locals name

namespace Keeps

variable {σ : Scope} {n m : Nat} {a g g' g'' : Activation}

theorem refl (σ : Scope) (n : Nat) (g : Activation) : Keeps σ n g g :=
  ⟨rfl, rfl, fun _ _ => rfl⟩

theorem trans (h : Keeps σ n g g') (h' : Keeps σ n g' g'') : Keeps σ n g g'' where
  self := h'.self.trans h.self
  params := h'.params.trans h.params
  locals name hname := (h'.locals name hname).trans (h.locals name hname)

theorem mono (h : Keeps σ m g g') (hnm : n ≤ m) : Keeps σ n g g' where
  self := h.self
  params := h.params
  locals name hname := by
    apply h.locals
    rintro ⟨k, hk, hrest⟩
    exact hname ⟨k, by omega, hrest⟩

theorem setTemp (f : Fresh) (hn : n ≤ f.temps) (v : Value) : Keeps σ n g (σ.setTemp f g v) where
  self := rfl
  params := rfl
  locals name hname := by
    have hne : name ≠ tempName (σ.nextTemp f) := by
      rintro rfl
      have hlt := lt_nextTemp σ f
      exact hname ⟨_, by omega, rfl, isDeclared_nextTemp σ f⟩
    simp [Scope.setTemp, Activation.setLocal, hne]

/-- Temporaries are not declared, so the declared variables still agree with the tree. -/
theorem agrees (h : Keeps σ n g g') (ha : Agrees σ a g) : Agrees σ a g' where
  self := h.self.trans ha.self
  params name hname := by
    rw [h.params]
    exact ha.params name hname
  locals name hname := by
    rw [h.locals name, ha.locals name hname]
    rintro ⟨k, _, _, hundeclared⟩
    simp [isDeclared_of_hasLocal hname] at hundeclared

end Keeps

/-! ### Stable operands -/

/-- The operand has this value now and after every change of temporaries above number `n`. -/
def Holds (σ : Scope) (ω : Oracle) (n : Nat) (g : Activation) (op : Operand) (v : Value) : Prop :=
  ∀ g', Keeps σ n g g' → ∀ w, op.eval (platform ω) g' w = some (v, w)

namespace Holds

variable {σ : Scope} {ω : Oracle} {n m : Nat} {a g g' : Activation} {op : Operand} {v : Value}

theorem now (h : Holds σ ω n g op v) (w : World) : op.eval (platform ω) g w = some (v, w) :=
  h g (.refl σ n g) w

theorem keep (h : Holds σ ω n g op v) (hk : Keeps σ n g g') : Holds σ ω n g' op v :=
  fun g'' hk' => h g'' (hk.trans hk')

theorem mono (h : Holds σ ω n g op v) (hnm : n ≤ m) : Holds σ ω m g op v :=
  fun g' hk => h g' (hk.mono hnm)

theorem lit (value : Int32) (ty : Ty) : Holds σ ω n g (.lit value ty) (.int value) :=
  fun _ _ _ => rfl

theorem self {cls : String} (hself : g.self = some v) : Holds σ ω n g (.self cls) v := by
  intro g' hk w
  have hself' : g'.self = some v := hk.self.trans hself
  simp [Operand.eval, platform, cells, hself']

theorem var {name : String} {ty : Ty} (hname : ¬ Scratch σ n name) :
    Holds σ ω n g (.var name ty) (g.locals name) := by
  intro g' hk w
  simp [Operand.eval, platform, cells, hk.locals name hname]

theorem param {index : Nat} {name : String} {ty : Ty} :
    Holds σ ω n g (.param index name ty) (g.params name) := by
  intro g' hk w
  simp [Operand.eval, platform, cells, hk.params]

theorem not_classRef {name : String} : ¬ Holds σ ω n g (.classRef name) v := by
  intro h
  exact failure_ne_some (h.now ⟨⟨fun _ _ => .null, fun _ => none⟩, []⟩)

end Holds

theorem holds_setTemp {σ : Scope} {ω : Oracle} {f : Fresh} {m : Nat} (hm : σ.nextTemp f ≤ m)
    (ty : Ty) (g : Activation) (v : Value) : Holds σ ω m (σ.setTemp f g v) (σ.temp f ty) v := by
  have hname : ¬ Scratch σ m (tempName (σ.nextTemp f)) := by
    rintro ⟨k, hk, heq, _⟩
    have := tempName_inj heq
    omega
  have hread : Holds σ ω m (σ.setTemp f g v) (σ.temp f ty) _ := .var hname
  simpa [Scope.setTemp, Activation.setLocal] using hread

theorem holds_slot {σ : Scope} {ω : Oracle} {name : String} {op : Operand} {a g : Activation} {n : Nat}
    {v : Value} {w w' : World} (hslot : σ.slotOperand? name = .ok (some op)) (ha : Agrees σ a g)
    (hread : Source.readName σ.symbols σ.method ω a name w = some (v, w')) :
    w' = w ∧ Holds σ ω n g op v := by
  rcases slotOperand?_cases hslot with ⟨sym, ty, hr, rfl⟩ | ⟨k, sym, ty, hr, rfl⟩
  · have hlocal : HasLocal σ.symbols σ.method name := resolve?_declared hr
    simp only [Source.readName, hr, pure_eq_some] at hread
    obtain ⟨rfl, rfl⟩ := hread
    rw [← ha.locals name hlocal]
    refine ⟨rfl, .var ?_⟩
    rintro ⟨_, _, _, hundeclared⟩
    simp [isDeclared_of_hasLocal hlocal] at hundeclared
  · have hparam : HasParam σ.symbols σ.method name := resolve?_declared hr
    simp only [Source.readName, hr, pure_eq_some] at hread
    obtain ⟨rfl, rfl⟩ := hread
    rw [← ha.params name hparam]
    exact ⟨rfl, .param⟩

/-! ### Destinations -/

/-- Writing the value to the destination gives `g'`, where the destination has that value. -/
structure Writes (ω : Oracle) (dest : Operand) (g : Activation) (v : Value) (g' : Activation) : Prop where
  write : ∀ (rhs : Act Value) (w w' : World), rhs w = some (v, w') →
    writeTo (platform ω) g dest rhs w = some (g', w')
  read : ∀ w, dest.eval (platform ω) g' w = some (v, w)

theorem writes_var (ω : Oracle) (name : String) (ty : Ty) (g : Activation) (v : Value) :
    Writes ω (.var name ty) g v (g.setLocal name v) where
  write rhs w w' hrhs := by
    simp only [writeTo, bind_eq_some, expect_eq_some]
    exact ⟨v, w', hrhs, rfl, rfl⟩
  read w := by simp [Operand.eval, platform, cells, Activation.setLocal]

theorem writes_temp (σ : Scope) (ω : Oracle) (f : Fresh) (ty : Ty) (g : Activation) (v : Value) :
    Writes ω (σ.temp f ty) g v (σ.setTemp f g v) :=
  writes_var ω _ ty g v

theorem writes_param (ω : Oracle) (index : Nat) (name : String) (ty : Ty) (g : Activation)
    (v : Value) : Writes ω (.param index name ty) g v (g.setParam name v) where
  write rhs w w' hrhs := by
    simp only [writeTo, bind_eq_some, expect_eq_some]
    exact ⟨v, w', hrhs, rfl, rfl⟩
  read w := by simp [Operand.eval, platform, cells, Activation.setParam]

theorem writes_slot {σ : Scope} {ω : Oracle} {name : String} {dest : Operand} {a a' g : Activation}
    {v : Value} {w w' : World} (hslot : σ.slotOperand? name = .ok (some dest)) (ha : Agrees σ a g)
    (hwrite : Source.writeName σ.symbols σ.method ω a name v w = some (a', w')) :
    w' = w ∧ ∃ g', Writes ω dest g v g' ∧ Agrees σ a' g' := by
  rcases slotOperand?_cases hslot with ⟨sym, ty, hr, rfl⟩ | ⟨k, sym, ty, hr, rfl⟩
  · simp only [Source.writeName, hr, pure_eq_some] at hwrite
    obtain ⟨rfl, rfl⟩ := hwrite
    refine ⟨rfl, _, writes_var ω name ty g v, ha.self, ?_, ha.params⟩
    intro x hx
    simp only [Activation.setLocal]
    rw [ha.locals x hx]
  · simp only [Source.writeName, hr, pure_eq_some] at hwrite
    obtain ⟨rfl, rfl⟩ := hwrite
    refine ⟨rfl, _, writes_param ω _ name ty g v, ha.self, ha.locals, ?_⟩
    intro x hx
    simp only [Activation.setParam]
    rw [ha.params x hx]

/-! ### Steps that write -/

section Steps

variable {ω : Oracle} {P : Code} {pc : Nat} {dest : Operand} {g g' : Activation} {v : Value}
  {w w' : World}

theorem reaches_assign {ty : Ty} {rhs : Instr} (hget : P[pc]? = some (.instr (.assign dest ty rhs)))
    (hdest : Writes ω dest g v g') (hrhs : rhs.value (platform ω) g w = some (v, w')) :
    Reaches (stepCode? (platform ω) P) ⟨pc, g, w⟩ ⟨pc + 1, g', w'⟩ := by
  apply Flat.reaches_next hget
  simp only [Instr.exec, bind_eq_some, pure_eq_some]
  exact ⟨g', w', hdest.write _ _ _ hrhs, rfl, rfl⟩

theorem reaches_construct {cls : String} (hplaced : Placed P pc (constructInto dest cls))
    (hdest : Writes ω dest g v g') (hnew : Source.construct ω cls w = some (v, w')) :
    Reaches (stepCode? (platform ω) P) ⟨pc, g, w⟩ ⟨pc + 2, g', w'⟩ := by
  simp only [Source.construct, bind_eq_some, pure_eq_some] at hnew
  obtain ⟨v₁, w₁, halloc, r, w₂, hinit, rfl, rfl⟩ := hnew
  have hfirst : Reaches (stepCode? (platform ω) P) ⟨pc, g, w⟩ ⟨pc + 1, g', w₁⟩ :=
    reaches_assign hplaced.get hdest halloc
  refine hfirst.trans (Flat.reaches_next hplaced.tail.get ?_)
  have hmethod : byName.method? .special dest "<init>" [] .void = some (methodNamed "" "<init>") := by
    cases dest with
    | classRef name => exact absurd (hdest.read w₁) failure_ne_some
    | lit | var | param | elem | self => rfl
  have hcall : (Instr.call .special dest (some "<init>") [] .void).value (platform ω) g' w₁ =
      some (r, w') := by
    simp only [Instr.value, Flat.callValue, Flat.invoke, Flat.evalReceiver, Flat.evalAll,
      bind_eq_some, pure_eq_some, expect_eq_some]
    exact ⟨_, _, ⟨rfl, rfl⟩, _, _, ⟨v, w₁, hdest.read w₁, rfl, rfl⟩, _, _, ⟨rfl, rfl⟩, _, _,
      ⟨hmethod, rfl⟩, hinit⟩
  simp only [Instr.exec, bind_eq_some, pure_eq_some]
  exact ⟨r, w', hcall, trivial, rfl⟩

end Steps

end JavaMinus.Lowering
