import JavaMinus.Assembly.Class
import JavaMinus.Proofs.Assembly.Outcomes
import JavaMinus.Proofs.Assembly.Reading

/-!
# Slot tables and assembly

Of a slot table only the numbers reach assembly. With two tables that both have all names of the
methods, emission fails for the same cause or gives two texts of the same lines, but for the slots that
are loaded and stored and for the numbers of slots.
-/

namespace JavaMinus

/-- The table has a slot for each variable and parameter of the method. -/
def SlotTable.Covers (t : SlotTable) (m : Flat.Method) : Prop :=
  ∀ step ∈ m.steps, ∀ op ∈ step.instr.operands, op.name?.all t.contains = true

instance (t : SlotTable) (m : Flat.Method) : Decidable (t.Covers m) :=
  inferInstanceAs (Decidable (∀ step ∈ m.steps, ∀ op ∈ step.instr.operands,
    op.name?.all t.contains = true))

end JavaMinus

namespace JavaMinus.Assembly

open JavaMinus.Flat (Ty Operand Instr Invocation)
open JavaMinus.Source (BinOp)

/-! ### Results side by side -/

/-- Both results are the same error, or both are values that are related. -/
inductive Paired {α β : Type} (R : α → β → Prop) : Except Error α → Except Error β → Prop
  | ok {a : α} {b : β} (h : R a b) : Paired R (.ok a) (.ok b)
  | error (e : Error) : Paired R (.error e) (.error e)

namespace Paired

variable {α β γ δ : Type} {R : α → β → Prop} {Q : γ → δ → Prop}

theorem bind {x : Except Error α} {y : Except Error β} {k : α → Except Error γ}
    {l : β → Except Error δ} (h : Paired R x y) (hk : ∀ a b, R a b → Paired Q (k a) (l b)) :
    Paired Q (x >>= k) (y >>= l) := by
  cases h with
  | ok h => exact hk _ _ h
  | error e => exact .error e

/-- A first step that both have in common. -/
theorem step {x : Except Error α} {k : α → Except Error γ} {l : α → Except Error δ}
    (h : ∀ a, Paired Q (k a) (l a)) : Paired Q (x >>= k) (x >>= l) := by
  cases x with
  | ok a => exact h a
  | error e => exact .error e

theorem mapM {f : α → Except Error γ} {g : β → Except Error δ} {as : List α} {bs : List β}
    (h : List.Forall₂ (fun a b => Paired Q (f a) (g b)) as bs) :
    Paired (List.Forall₂ Q) (as.mapM f) (bs.mapM g) := by
  induction h with
  | nil => exact .ok .nil
  | cons h _ ih =>
    rw [List.mapM_cons, List.mapM_cons]
    exact h.bind fun c d hcd => ih.bind fun cs ds hrest => .ok (.cons hcd hrest)

theorem cases_eq {x : Except Error α} {y : Except Error β} (h : Paired R x y) :
    (∃ e, x = .error e ∧ y = .error e) ∨ ∃ a b, x = .ok a ∧ y = .ok b ∧ R a b := by
  cases h with
  | ok h => exact .inr ⟨_, _, rfl, rfl, h⟩
  | error e => exact .inl ⟨e, rfl, rfl⟩

end Paired

/-- From every state both computations fail with the same error, or both succeed with related values
and in the same state. -/
def Tandem {α β : Type} (R : α → β → Prop) (x : EmitM α) (y : EmitM β) : Prop :=
  ∀ s, Paired (fun p q => R p.1 q.1 ∧ p.2 = q.2) (x s) (y s)

namespace Tandem

variable {α β γ δ : Type} {R : α → β → Prop} {Q : γ → δ → Prop}

theorem pure {a : α} {b : β} (h : R a b) : Tandem R (pure a) (pure b) :=
  fun _ => .ok ⟨h, rfl⟩

theorem bind {x : EmitM α} {y : EmitM β} {k : α → EmitM γ} {l : β → EmitM δ} (h : Tandem R x y)
    (hk : ∀ a b, R a b → Tandem Q (k a) (l b)) : Tandem Q (x >>= k) (y >>= l) := by
  intro s
  refine (h s).bind ?_
  rintro ⟨a, s₁⟩ ⟨b, _⟩ ⟨hab, rfl⟩
  exact hk a b hab s₁

theorem step {x : EmitM α} {k : α → EmitM γ} {l : α → EmitM δ} (h : ∀ a, Tandem Q (k a) (l a)) :
    Tandem Q (x >>= k) (x >>= l) :=
  fun _ => Paired.step fun p => h p.1 p.2

theorem unsupported {fault : InstrFault} :
    Tandem R (unsupported fault : EmitM α) (unsupported fault : EmitM β) :=
  fun _ => .error _

end Tandem

/-! ### Lines with other slots -/

/-- The lines are the same, but for the slot of a load or store. -/
inductive Line.Like : Line → Line → Prop
  | same (line : Line) : Like line line
  | load (kind : Kind) (i j : Nat) : Like (.op (.load kind i)) (.op (.load kind j))
  | store (kind : Kind) (i j : Nat) : Like (.op (.store kind i)) (.op (.store kind j))

abbrev LikeLines : List Line → List Line → Prop :=
  List.Forall₂ Line.Like

theorem LikeLines.same (lines : List Line) : LikeLines lines lines :=
  List.forall₂_same.mpr fun line _ => .same line

theorem LikeLines.append {a b a' b' : List Line} (h : LikeLines a b) (h' : LikeLines a' b') :
    LikeLines (a ++ a') (b ++ b') :=
  List.rel_append h h'

/-- The methods are the same, but for their slots. -/
structure Method.Like (a b : Method) : Prop where
  header : { a with localsLimit := 0, body := [] } = { b with localsLimit := 0, body := [] }
  body : LikeLines a.body b.body

/-- The classes are the same, but for the slots of their methods. -/
structure Class.Like (a b : Class) : Prop where
  header : { a with methods := [] } = { b with methods := [] }
  methods : List.Forall₂ Method.Like a.methods b.methods

/-! ### Values -/

/-- Both tables have a slot for each variable and parameter among the operands. -/
def HeldByBoth (t t' : SlotTable) (ops : List Operand) : Prop :=
  ∀ op ∈ ops, op.name?.all t.contains = true ∧ op.name?.all t'.contains = true

section Values

variable {cls : Flat.Class} {m : Flat.Method} {t t' : SlotTable}

theorem HeldByBoth.left {ops ops' : List Operand} (h : HeldByBoth t t' (ops ++ ops')) :
    HeldByBoth t t' ops :=
  fun op hop => h op (List.mem_append_left _ hop)

theorem HeldByBoth.right {ops ops' : List Operand} (h : HeldByBoth t t' (ops ++ ops')) :
    HeldByBoth t t' ops' :=
  fun op hop => h op (List.mem_append_right _ hop)

theorem HeldByBoth.inside {array index : Operand} {ty : Ty}
    (h : HeldByBoth t t' (Operand.elem array index ty).parts) :
    HeldByBoth t t' (array.parts ++ index.parts) :=
  fun op hop => h op (List.mem_cons_of_mem _ hop)

theorem slotOf_held (cls : Flat.Class) (m : Flat.Method) {op : Operand} {name : String}
    (hname : op.name? = some name) (h : op.name?.all t.contains = true) :
    ∃ i, Frame.slotOf ⟨cls, m, t⟩ op = .ok i := by
  rw [hname, Option.all_some, SlotTable.contains] at h
  obtain ⟨slot, hslot⟩ := Option.isSome_iff_exists.mp h
  exact ⟨slot.index, by simp only [Frame.slotOf, hname, Option.getD_some, hslot]⟩

/-- The slot of an operand is where the two runs part, and both go on. -/
theorem slotOf_tandem {op : Operand} {name : String} (hname : op.name? = some name)
    (h : HeldByBoth t t' op.parts) :
    Tandem (fun _ _ => True) (liftM (Frame.slotOf ⟨cls, m, t⟩ op) : EmitM Nat)
      (liftM (Frame.slotOf ⟨cls, m, t'⟩ op)) := by
  have hmem : op ∈ op.parts := by
    cases op <;> exact List.mem_cons_self ..
  obtain ⟨i, hi⟩ := slotOf_held cls m hname (h op hmem).1
  obtain ⟨j, hj⟩ := slotOf_held cls m hname (h op hmem).2
  rw [hi, hj]
  exact .pure trivial

theorem load_tandem (op : Operand) (h : HeldByBoth t t' op.parts) :
    Tandem LikeLines (load ⟨cls, m, t⟩ op) (load ⟨cls, m, t'⟩ op) := by
  induction op with
  | lit | self => exact .step fun _ => .pure (.same _)
  | var name ty | param position name ty =>
    refine (slotOf_tandem rfl h).bind fun i j _ => .step fun _ => .pure ?_
    exact .cons (.load _ i j) .nil
  | elem array index ty iha ihi =>
    refine (iha h.inside.left).bind fun a b hab => ?_
    refine (ihi h.inside.right).bind fun i j hij => ?_
    exact .step fun _ => .step fun _ => .pure ((hab.append hij).append (.same _))
  | classRef => exact .unsupported

theorem loadAll_tandem (ops : List Operand) (h : HeldByBoth t t' (ops.flatMap Operand.parts)) :
    Tandem LikeLines (loadAll ⟨cls, m, t⟩ ops) (loadAll ⟨cls, m, t'⟩ ops) := by
  induction ops with
  | nil => exact .pure .nil
  | cons op rest ih =>
    rw [List.flatMap_cons] at h
    refine (load_tandem op h.left).bind fun a b hab => ?_
    exact (ih h.right).bind fun c d hcd => .pure (hab.append hcd)

theorem store_tandem {dest : Operand} {name : String} (hname : dest.name? = some name)
    (h : HeldByBoth t t' dest.parts) :
    Tandem LikeLines (store ⟨cls, m, t⟩ dest) (store ⟨cls, m, t'⟩ dest) := by
  refine (slotOf_tandem hname h).bind fun i j _ => .step fun _ => .pure ?_
  exact .cons (.store _ i j) .nil

theorem binary_tandem (op : BinOp) (lhs rhs : Operand) (h : HeldByBoth t t' (lhs.parts ++ rhs.parts)) :
    Tandem LikeLines (binary ⟨cls, m, t⟩ op lhs rhs) (binary ⟨cls, m, t'⟩ op lhs rhs) := by
  refine (load_tandem lhs h.left).bind fun a b hab => ?_
  refine (load_tandem rhs h.right).bind fun c d hcd => ?_
  cases Arith.of? op with
  | some arith => exact .step fun _ => .step fun _ => .pure ((hab.append hcd).append (.same _))
  | none =>
    refine .step fun yes => .step fun done => .step fun _ => .step fun _ => .pure ?_
    exact (hab.append hcd).append (.same _)

/-! ### Calls -/

theorem allocation_tandem (target : Operand) (args : List Operand)
    (h : HeldByBoth t t' (args.flatMap Operand.parts)) :
    Tandem LikeLines (allocation ⟨cls, m, t⟩ target args) (allocation ⟨cls, m, t'⟩ target args) := by
  cases target with
  | classRef name =>
    unfold allocation
    by_cases hname : name = "array"
    · simp only [if_pos hname]
      cases args with
      | nil => exact .unsupported
      | cons size rest =>
        rw [List.flatMap_cons] at h
        refine (load_tandem size h.left).bind fun a b hab => ?_
        exact .step fun _ => .step fun _ => .pure (hab.append (.same _))
    · simp only [if_neg hname]
      exact .step fun _ => .pure (.same _)
  | lit | var | param | elem | self => exact .unsupported

theorem callTarget_tandem (invocation : Invocation) (target : Operand) (result : Ty)
    (h : HeldByBoth t t' target.parts) :
    Tandem (fun r r' => LikeLines r.1 r'.1 ∧ r.2 = r'.2)
      (callTarget ⟨cls, m, t⟩ invocation target result)
      (callTarget ⟨cls, m, t'⟩ invocation target result) := by
  cases invocation with
  | static =>
    cases target with
    | classRef name => exact .pure ⟨.nil, rfl⟩
    | lit | var | param | elem | self => exact .unsupported
  | virtual =>
    refine (load_tandem target h).bind fun a b hab => ?_
    exact .step fun owner => .pure ⟨hab, rfl⟩
  | special | new | arrayLength =>
    refine (load_tandem target h).bind fun a b hab => ?_
    cases target with
    | self => exact .pure ⟨hab, rfl⟩
    | lit | var | param | elem | classRef => exact .step fun owner => .pure ⟨hab, rfl⟩

theorem namedCall_tandem (invocation : Invocation) (target : Operand) (name : String)
    (args : List Operand) (result : Ty)
    (h : HeldByBoth t t' (target.parts ++ args.flatMap Operand.parts)) :
    Tandem (fun r r' => LikeLines r.1 r'.1 ∧ r.2 = r'.2)
      (namedCall ⟨cls, m, t⟩ invocation target name args result)
      (namedCall ⟨cls, m, t'⟩ invocation target name args result) := by
  refine (callTarget_tandem invocation target result h.left).bind ?_
  rintro ⟨receiver, dispatch, owner, ret⟩ ⟨receiver', _⟩ ⟨hreceiver, rfl⟩
  refine (loadAll_tandem args h.right).bind fun values values' hvalues => ?_
  refine .step fun descriptor => .step fun _ => ?_
  have hlines := (hreceiver.append hvalues).append
    (.same [.op (.invoke dispatch { owner, name, descriptor })])
  by_cases hvoid : ret = .void
  · simp only [hvoid, if_true]
    exact .pure ⟨hlines, rfl⟩
  · simp only [hvoid, if_false]
    exact .step fun _ => .pure ⟨hlines, rfl⟩

theorem call_tandem (invocation : Invocation) (target : Operand) (method : Option String)
    (args : List Operand) (result : Ty)
    (h : HeldByBoth t t' (target.parts ++ args.flatMap Operand.parts)) :
    Tandem (fun r r' => LikeLines r.1 r'.1 ∧ r.2 = r'.2)
      (call ⟨cls, m, t⟩ invocation target method args result)
      (call ⟨cls, m, t'⟩ invocation target method args result) := by
  cases invocation with
  | new => exact (allocation_tandem target args h.right).bind fun a b hab => .pure ⟨hab, rfl⟩
  | arrayLength =>
    refine (load_tandem target h.left).bind fun a b hab => ?_
    exact .step fun _ => .step fun _ => .pure ⟨hab.append (.same _), rfl⟩
  | static | virtual | special =>
    cases method with
    | some name => exact namedCall_tandem _ target name args result h
    | none => exact .unsupported

/-! ### Instructions -/

theorem value_tandem (i : Instr) (h : HeldByBoth t t' i.operands) :
    Tandem LikeLines (value ⟨cls, m, t⟩ i) (value ⟨cls, m, t'⟩ i) := by
  cases i with
  | single op => exact load_tandem op h
  | binary op lhs rhs => exact binary_tandem op lhs rhs h
  | not op =>
    refine (load_tandem op h).bind fun a b hab => ?_
    exact .step fun _ => .step fun _ => .pure (hab.append (.same _))
  | getField object field =>
    refine (load_tandem object h).bind fun a b hab => ?_
    exact .step fun ref => .step fun _ => .step fun _ => .pure (hab.append (.same _))
  | call invocation target method args result =>
    refine (call_tandem invocation target method args result h).bind ?_
    rintro ⟨lines, hasValue⟩ ⟨lines', _⟩ ⟨hlines, rfl⟩
    cases hasValue with
    | true => exact .pure hlines
    | false => exact .unsupported
  | assign | ret | goto | branch | putField | nop => exact .unsupported

theorem assign_tandem (dest : Operand) (rhs : Instr)
    (h : HeldByBoth t t' (dest.parts ++ rhs.operands)) :
    Tandem LikeLines (assign ⟨cls, m, t⟩ dest rhs) (assign ⟨cls, m, t'⟩ dest rhs) := by
  cases dest with
  | elem array index ty =>
    refine (load_tandem array h.left.inside.left).bind fun a b hab => ?_
    refine (load_tandem index h.left.inside.right).bind fun i j hij => ?_
    refine (value_tandem rhs h.right).bind fun v w hvw => ?_
    exact .step fun _ => .pure (((hab.append hij).append hvw).append (.same _))
  | var | param =>
    refine (value_tandem rhs h.right).bind fun v w hvw => ?_
    exact (store_tandem rfl h.left).bind fun a b hab => .pure (hvw.append hab)
  | lit | self | classRef => exact .unsupported

theorem branch_tandem (cond : Instr) (label : String) (h : HeldByBoth t t' cond.operands) :
    Tandem LikeLines (branch ⟨cls, m, t⟩ cond label) (branch ⟨cls, m, t'⟩ cond label) := by
  have hvalue : Tandem LikeLines
      (do
        let lines ← value ⟨cls, m, t⟩ cond
        pop ⟨cls, m, t⟩ 1
        return lines ++ [.op (.ifNonzero label)])
      (do
        let lines ← value ⟨cls, m, t'⟩ cond
        pop ⟨cls, m, t'⟩ 1
        return lines ++ [.op (.ifNonzero label)]) := by
    refine (value_tandem cond h).bind fun a b hab => ?_
    exact .step fun _ => .pure (hab.append (.same _))
  unfold branch
  cases cond with
  | binary op lhs rhs =>
    cases hop : Comparison.of? op with
    | none =>
      simp only [hop]
      exact hvalue
    | some cmp =>
      simp only [hop]
      refine (load_tandem lhs h.left).bind fun a b hab => ?_
      refine (load_tandem rhs h.right).bind fun c d hcd => ?_
      exact .step fun _ => .pure ((hab.append hcd).append (.same _))
  | not op =>
    refine (load_tandem op h).bind fun a b hab => ?_
    exact .step fun _ => .pure (hab.append (.same _))
  | assign | call | ret | goto | branch | getField | putField | single | nop => exact hvalue

theorem discarded_tandem {lines lines' : List Line} (h : LikeLines lines lines') :
    Tandem LikeLines (discarded ⟨cls, m, t⟩ lines) (discarded ⟨cls, m, t'⟩ lines') :=
  .step fun _ => .pure (h.append (.same _))

theorem instruction_tandem (i : Instr) (h : HeldByBoth t t' i.operands) :
    Tandem LikeLines (instruction ⟨cls, m, t⟩ i) (instruction ⟨cls, m, t'⟩ i) := by
  cases i with
  | assign dest ty rhs => exact assign_tandem dest rhs h
  | call invocation target method args result =>
    refine (call_tandem invocation target method args result h).bind ?_
    rintro ⟨lines, hasValue⟩ ⟨lines', _⟩ ⟨hlines, rfl⟩
    cases hasValue with
    | true => exact discarded_tandem hlines
    | false => exact .pure hlines
  | ret value =>
    cases value with
    | none => exact .pure (.same _)
    | some op =>
      refine (load_tandem op h).bind fun a b hab => ?_
      exact .step fun _ => .pure (hab.append (.same _))
  | goto | nop => exact .pure (.same _)
  | branch cond label => exact branch_tandem cond label h
  | putField object field value =>
    refine (load_tandem object h.left).bind fun a b hab => ?_
    refine (load_tandem value h.right).bind fun c d hcd => ?_
    exact .step fun ref => .step fun _ => .pure ((hab.append hcd).append (.same _))
  | binary | not | getField | single =>
    exact (value_tandem _ h).bind fun a b hab => discarded_tandem hab

theorem stepLines_tandem (steps : List Flat.Step)
    (h : ∀ step ∈ steps, HeldByBoth t t' step.instr.operands) :
    Tandem LikeLines (stepLines ⟨cls, m, t⟩ steps) (stepLines ⟨cls, m, t'⟩ steps) := by
  induction steps with
  | nil => exact .pure .nil
  | cons step rest ih =>
    obtain ⟨hstep, hrest⟩ := List.forall_mem_cons.mp h
    refine (instruction_tandem step.instr hstep).bind fun a b hab => ?_
    exact (ih hrest).bind fun c d hcd => .pure (((LikeLines.same _).append hab).append hcd)

end Values

/-! ### Methods and classes -/

theorem Method.emit_paired {cls : Flat.Class} {m : Flat.Method} {t t' : SlotTable} (h : t.Covers m)
    (h' : t'.Covers m) : Paired Method.Like (Method.emit cls m t) (Method.emit cls m t') := by
  have hsteps : ∀ step ∈ m.steps, HeldByBoth t t' step.instr.operands :=
    fun step hstep op hop => ⟨h step hstep op hop, h' step hstep op hop⟩
  refine (stepLines_tandem m.steps hsteps {}).bind ?_
  rintro ⟨lines, state⟩ ⟨lines', _⟩ ⟨hlines, rfl⟩
  exact Paired.step fun descriptor => .ok ⟨rfl, LikeLines.append hlines (.same _)⟩

theorem Class.emit_paired {c : Flat.Class} {tables tables' : List SlotTable}
    (h : List.Forall₂ SlotTable.Covers tables c.methods)
    (h' : List.Forall₂ SlotTable.Covers tables' c.methods) :
    Paired Class.Like (Class.emit c tables) (Class.emit c tables') := by
  have hmethods : List.Forall₂
      (fun p q => Paired Method.Like (Method.emit c p.1 p.2) (Method.emit c q.1 q.2))
      (c.methods.zip tables) (c.methods.zip tables') := by
    generalize c.methods = ms at h h'
    induction h generalizing tables' with
    | nil =>
      cases h'
      exact .nil
    | cons ht _ ih =>
      cases h' with
      | cons ht' hrest => exact .cons (Method.emit_paired ht ht') (ih hrest)
  unfold Class.emit
  rw [if_neg (not_not_intro h.length_eq), if_neg (not_not_intro h'.length_eq)]
  refine Paired.step fun _ => Paired.step fun fields => ?_
  exact (Paired.mapM hmethods).bind fun a b hab => .ok ⟨rfl, hab⟩

/-! ### Texts -/

/-- Two lines of text that are equal, but for the slot that is loaded or stored or for the number of
slots. -/
inductive SameButSlot : List Char → List Char → Prop
  | same (line : List Char) : SameButSlot line line
  | load (kind : Kind) (i j : Nat) :
    SameButSlot ("\t" ++ kind.letter ++ "load" ++ slotText i).toList
      ("\t" ++ kind.letter ++ "load" ++ slotText j).toList
  | store (kind : Kind) (i j : Nat) :
    SameButSlot ("\t" ++ kind.letter ++ "store" ++ slotText i).toList
      ("\t" ++ kind.letter ++ "store" ++ slotText j).toList
  | limit (i j : Nat) :
    SameButSlot ("\t.limit locals " ++ toString i).toList ("\t.limit locals " ++ toString j).toList

/-- The last line of the text is closed. -/
def WholeLines (text : List Char) : Prop :=
  text = [] ∨ ∃ front, text = front ++ ['\n']

theorem WholeLines.append {a b : List Char} (ha : WholeLines a) (hb : WholeLines b) :
    WholeLines (a ++ b) := by
  rcases hb with rfl | ⟨front, rfl⟩
  · rwa [List.append_nil]
  · exact .inr ⟨a ++ front, (List.append_assoc ..).symm⟩

theorem splitLines_ne_nil (c : Char) (rest : List Char) : splitLines (c :: rest) ≠ [] := by
  unfold splitLines
  split
  · exact List.cons_ne_nil _ _
  · split
    · exact List.cons_ne_nil _ _
    · exact List.cons_ne_nil _ _

theorem WholeLines.splitLines_append {a : List Char} (h : WholeLines a) (b : List Char) :
    splitLines (a ++ b) = splitLines a ++ splitLines b := by
  rcases h with rfl | ⟨front, rfl⟩
  · rfl
  induction front with
  | nil => simp [splitLines]
  | cons c front ih =>
    rw [List.cons_append, List.cons_append, splitLines, splitLines, ih]
    split
    · rfl
    · -- the first line of the rest takes the character
      cases hlines : splitLines (front ++ ['\n']) with
      | nil => cases front <;> exact absurd hlines (splitLines_ne_nil _ _)
      | cons line more => rfl

/-- The texts end with their last lines, and have the same lines but for slots. -/
structure Alike (a b : List Char) : Prop where
  whole : WholeLines a
  whole' : WholeLines b
  lines : List.Forall₂ SameButSlot (splitLines a) (splitLines b)

namespace Alike

variable {a b a' b' : List Char}

theorem same (h : WholeLines a) : Alike a a :=
  ⟨h, h, List.forall₂_same.mpr fun line _ => .same line⟩

theorem append (h : Alike a b) (h' : Alike a' b') : Alike (a ++ a') (b ++ b') := by
  refine ⟨h.whole.append h'.whole, h.whole'.append h'.whole', ?_⟩
  rw [h.whole.splitLines_append, h.whole'.splitLines_append]
  exact List.rel_append h.lines h'.lines

theorem line {s s' : String} (h : SameButSlot s.toList s'.toList) (hs : NoBreak s)
    (hs' : NoBreak s') : Alike (s ++ "\n").toList (s' ++ "\n").toList := by
  rw [String.toList_append, String.toList_append]
  refine ⟨.inr ⟨_, rfl⟩, .inr ⟨_, rfl⟩, ?_⟩
  change List.Forall₂ _ (splitLines (s.toList ++ '\n' :: [])) (splitLines (s'.toList ++ '\n' :: []))
  rw [splitLines_append hs, splitLines_append hs']
  exact .cons h .nil

/-- Texts that are put together from parts that are alike. -/
theorem join {α β : Type} {R : α → β → Prop} {f : α → String} {g : β → String}
    (hfg : ∀ x y, R x y → Alike (f x).toList (g y).toList) {xs : List α} {ys : List β}
    (h : List.Forall₂ R xs ys) :
    Alike (String.join (xs.map f)).toList (String.join (ys.map g)).toList := by
  induction h with
  | nil => exact same (.inl rfl)
  | cons h _ ih =>
    rw [List.map_cons, List.map_cons, String.join_cons, String.join_cons, String.toList_append,
      String.toList_append]
    exact (hfg _ _ h).append ih

end Alike

theorem wholeLines_line (s : String) : WholeLines (s ++ "\n").toList := by
  rw [String.toList_append]
  exact .inr ⟨_, rfl⟩

theorem Line.Like.alike {a b : Line} (h : Line.Like a b) : Alike a.text.toList b.text.toList := by
  have hslot (word : String) (hword : NoBreak word) (i j : Nat)
      (hsame : SameButSlot ("\t" ++ word ++ slotText i).toList ("\t" ++ word ++ slotText j).toList) :
      Alike ("\t" ++ (word ++ slotText i) ++ "\n").toList ("\t" ++ (word ++ slotText j) ++ "\n").toList := by
    have htab : NoBreak ("\t" ++ word) := NoBreak.append (by decide) hword
    rw [← String.append_assoc, ← String.append_assoc]
    exact .line hsame (noBreak_slot htab i) (noBreak_slot htab j)
  cases h with
  | same =>
    cases a with
    | label name =>
      have hbreak : ":\n" = ":" ++ "\n" := rfl
      rw [Line.text, hbreak, ← String.append_assoc]
      exact .same (wholeLines_line _)
    | op o => exact .same (wholeLines_line _)
  | load kind i j =>
    cases kind with
    | int => exact hslot "iload" (by decide) i j (.load .int i j)
    | ref => exact hslot "aload" (by decide) i j (.load .ref i j)
  | store kind i j =>
    cases kind with
    | int => exact hslot "istore" (by decide) i j (.store .int i j)
    | ref => exact hslot "astore" (by decide) i j (.store .ref i j)

/-- The lines of a method up to the number of its slots. -/
def Method.opening (m : Method) : String :=
  ".method " ++ m.access.lead ++ (if m.isStatic then "static " else "") ++ m.name ++ m.descriptor ++
    "\n\t.limit stack " ++ toString m.stackLimit ++ "\n"

theorem Method.text_eq (m : Method) :
    m.text = m.opening ++ ("\t.limit locals " ++ toString m.localsLimit ++ "\n") ++
      String.join (m.body.map Line.text) ++ ".end method\n" := by
  have hbreak : "\n\t.limit locals " = "\n" ++ "\t.limit locals " := rfl
  unfold Method.text Method.opening
  rw [hbreak]
  simp only [String.append_assoc, -String.reduceAppend]

theorem Method.Like.alike {a b : Method} (h : Method.Like a b) : Alike a.text.toList b.text.toList := by
  have hopening : a.opening = b.opening := by
    have hheader := congrArg Method.opening h.header
    exact hheader
  have hlimit : Alike ("\t.limit locals " ++ toString a.localsLimit ++ "\n").toList
      ("\t.limit locals " ++ toString b.localsLimit ++ "\n").toList :=
    .line (.limit _ _) (NoBreak.append (by decide) (noBreak_nat _))
      (NoBreak.append (by decide) (noBreak_nat _))
  have hbody : Alike (String.join (a.body.map Line.text)).toList
      (String.join (b.body.map Line.text)).toList := by
    refine .join (fun line line' hline => ?_) h.body
    exact hline.alike
  have hfront : Alike b.opening.toList b.opening.toList := .same (wholeLines_line _)
  have hend : Alike ".end method\n".toList ".end method\n".toList :=
    .same (wholeLines_line ".end method")
  have happend (front limit body ending : String) : (front ++ limit ++ body ++ ending).toList =
      front.toList ++ limit.toList ++ body.toList ++ ending.toList := by
    rw [String.toList_append, String.toList_append, String.toList_append]
  rw [a.text_eq, b.text_eq, hopening, happend, happend]
  exact ((hfront.append hlimit).append hbody).append hend

/-- The lines of a class before its methods. -/
def Class.opening (c : Class) : String :=
  ".class " ++ c.access ++ " " ++ c.name ++ "\n.super " ++ c.superName ++ "\n\n" ++
    String.join (c.fields.map FieldLine.text) ++ (if c.fields.isEmpty then "" else "\n") ++
    (if c.addsConstructor then plainConstructor c.superName ++ "\n" else "")

theorem Class.wholeLines_opening (c : Class) : WholeLines c.opening.toList := by
  have hhead : WholeLines
      (".class " ++ c.access ++ " " ++ c.name ++ "\n.super " ++ c.superName ++ "\n\n").toList := by
    have hbreak : "\n\n" = "\n" ++ "\n" := rfl
    rw [hbreak, ← String.append_assoc]
    exact wholeLines_line _
  have hfields : WholeLines (String.join (c.fields.map FieldLine.text)).toList := by
    induction c.fields with
    | nil => exact .inl rfl
    | cons f rest ih =>
      rw [List.map_cons, String.join_cons, String.toList_append]
      exact WholeLines.append (wholeLines_line _) ih
  have hgap : WholeLines (if c.fields.isEmpty then "" else "\n").toList := by
    split
    · exact .inl rfl
    · exact .inr ⟨[], rfl⟩
  have hconstructor : WholeLines
      (if c.addsConstructor then plainConstructor c.superName ++ "\n" else "").toList := by
    split
    · exact wholeLines_line _
    · exact .inl rfl
  unfold Class.opening
  rw [String.toList_append, String.toList_append, String.toList_append]
  exact ((hhead.append hfields).append hgap).append hconstructor

theorem Class.Like.alike {a b : Class} (h : Class.Like a b) : Alike a.text.toList b.text.toList := by
  have hopening : a.opening = b.opening := by
    have hheader := congrArg Class.opening h.header
    exact hheader
  have hmethods : Alike (String.join (a.methods.map fun m => m.text ++ "\n")).toList
      (String.join (b.methods.map fun m => m.text ++ "\n")).toList := by
    refine .join (fun m m' hm => ?_) h.methods
    rw [String.toList_append, String.toList_append]
    exact hm.alike.append (.same (.inr ⟨[], rfl⟩))
  have htext (c : Class) : c.text = c.opening ++ String.join (c.methods.map fun m => m.text ++ "\n") :=
    rfl
  rw [htext, htext, hopening, String.toList_append, String.toList_append]
  exact (Alike.same b.wholeLines_opening).append hmethods

/-! ### Slot tables affect only slot numbers -/

/-- With any two lists of tables, one table for each method and with all of its names, a class is
refused with the same error or has texts of as many lines, equal line by line but for slots. -/
theorem emit_same_but_slots (c : Flat.Class) (tables tables' : List SlotTable)
    (h : List.Forall₂ SlotTable.Covers tables c.methods)
    (h' : List.Forall₂ SlotTable.Covers tables' c.methods) :
    (∃ e, Class.emit c tables = .error e ∧ Class.emit c tables' = .error e) ∨
      ∃ a b, Class.emit c tables = .ok a ∧ Class.emit c tables' = .ok b ∧
        List.Forall₂ SameButSlot (splitLines a.text.toList) (splitLines b.text.toList) := by
  rcases (Class.emit_paired h h').cases_eq with herror | ⟨a, b, ha, hb, hlike⟩
  · exact .inl herror
  · exact .inr ⟨a, b, ha, hb, hlike.alike.lines⟩

/-- `t = n; return t;` -/
def echoClass : Flat.Class where
  name := "Echo"
  methods := [
    { name := "echo"
      params := [{ name := "n", ty := .int }]
      returnType := .int
      steps := [
        { id := 1, succs := [2]
          instr := .assignTo (.var "t" .int) (.single (.param 1 "n" .int)) },
        { id := 2, instr := .ret (some (.var "t" .int)) }] }]

def echoTable (slot : Nat) : SlotTable :=
  ⟨[("n", ⟨1, .int⟩), ("t", ⟨slot, .int⟩), ("this", ⟨0, .self ""⟩)]⟩

theorem emit_same_but_slots_echo : ∃ a b,
    Class.emit echoClass [echoTable 1] = .ok a ∧ Class.emit echoClass [echoTable 6] = .ok b ∧
      a.text ≠ b.text ∧
      List.Forall₂ SameButSlot (splitLines a.text.toList) (splitLines b.text.toList) := by
  have hsame := emit_same_but_slots echoClass [echoTable 1] [echoTable 6]
    (.cons (by decide) .nil) (.cons (by decide) .nil)
  have hdiffer : (Class.emit echoClass [echoTable 1]).toOption.map Class.text ≠
      (Class.emit echoClass [echoTable 6]).toOption.map Class.text := by
    decide +kernel
  rcases hsame with ⟨e, he, he'⟩ | ⟨a, b, ha, hb, hlines⟩
  · rw [he, he'] at hdiffer
    exact absurd rfl hdiffer
  · refine ⟨a, b, ha, hb, fun htext => hdiffer ?_, hlines⟩
    rw [ha, hb]
    exact congrArg some htext

end JavaMinus.Assembly
