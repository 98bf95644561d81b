import JavaMinus.Proofs.Assembly.Layout
import JavaMinus.Proofs.Assembly.Names
import JavaMinus.Proofs.Slots.Simulation

/-!
# Emission preserves meaning

The lines of an instruction, run on the stack machine, do what the instruction does. Lines that put a
value on the stack evaluate it as flat code does and leave what lies below. Tests are emitted in two
ways, as jumps and as values; both agree with flat code as long as truth values are zero or one.
-/

namespace JavaMinus.Assembly

open JavaMinus.Behaviour
open JavaMinus.Flat (Ty Operand Instr Invocation Cell Flow Platform evalAll evalReceiver callValue
  allocate invoke writeTo)
open JavaMinus.Source (BinOp)

/-- Flat code of the class of the frame, with a cell for each name. -/
def framePlatform (ω : Oracle) (φ : Frame) : Platform NamedCells :=
  namedPlatform ω (linkage φ.cls)

/-- The slots of the frame hold the variables of flat code and the current object. -/
def Mirrors (φ : Frame) (c : NamedCells) (f : Slots) : Prop :=
  HoldsOn φ.slots φ.method.isStatic (· ≠ SlotTable.selfName) c f

/-- No variable is named like the current object, which static methods do not have. -/
structure Usable (φ : Frame) (ops : List Operand) : Prop where
  noSelf : φ.method.isStatic = true → ∀ cls, .self cls ∉ ops
  named : ∀ op ∈ ops, op.name? ≠ some SlotTable.selfName

theorem Usable.mono {φ : Frame} {ops ops' : List Operand} (h : Usable φ ops)
    (hsub : ∀ op ∈ ops', op ∈ ops) : Usable φ ops' where
  noSelf hstatic cls hmem := h.noSelf hstatic cls (hsub _ hmem)
  named op hop := h.named op (hsub op hop)

/-! ### Operands -/

section Operands

variable {φ : Frame} {ω : Oracle} {body lines : List Line} {c : NamedCells} {f : Slots}

theorem eval_cell {S : Type} (π : Platform S) (s : S) {op : Operand} {cell : Cell}
    (h : op.cell? = some cell) : op.eval π s = expect (π.storage.read? s cell) := by
  cases op with
  | var name ty | param index name ty =>
    obtain rfl := Option.some.inj h
    rfl
  | lit | elem | self | classRef => simp [Operand.cell?] at h

theorem Loads.runs {op : Operand} (h : Loads φ op lines) (hself : Usable φ op.parts)
    (hc : Mirrors φ c f) (stack : List Value) (w : World) :
    Runs ω body lines ⟨stack, f⟩ w (op.eval (framePlatform ω φ) c) fun v => (.next, ⟨v :: stack, f⟩) := by
  induction h generalizing stack w with
  | lit value ty => exact runs_op rfl
  | self cls =>
    have hinstance : φ.method.isStatic = false := by
      cases hstatic : φ.method.isStatic with
      | false => rfl
      | true => exact absurd (List.mem_singleton_self _) (hself.noSelf hstatic cls)
    have heval : (Operand.self cls).eval (framePlatform ω φ) c = expect (some (f 0)) := by
      simp [Operand.eval, framePlatform, namedPlatform, namedCells, hc.self, hinstance]
    rw [heval]
    exact runs_op rfl
  | @cell op cell slot hcell hslot =>
    have hname : cell.name ≠ SlotTable.selfName := by
      intro heq
      refine hself.named op (Operand.mem_parts op) ?_
      rw [Operand.name?_eq, hcell, Option.map_some, heq]
    have heval : op.eval (framePlatform ω φ) c = expect (some (f slot.index)) := by
      rw [eval_cell _ _ hcell, ← hc.cells cell.name hname slot hslot]
      rfl
    rw [heval]
    exact runs_op rfl
  | @elem array index a i ty ha hi iha ihi =>
    have hself_a : Usable φ array.parts := hself.mono fun op hop => by
      simp [Operand.parts, hop]
    have hself_i : Usable φ index.parts := hself.mono fun op hop => by
      simp [Operand.parts, hop]
    rw [List.append_assoc]
    refine (iha hself_a stack w).bind fun va w₁ _ => ?_
    refine (ihi hself_i (va :: stack) w₁).bind fun vi w₂ _ => ?_
    exact runs_op (map_bind_pure _ _ _).symm

theorem LoadsAll.runs {ops : List Operand} (h : LoadsAll φ ops lines)
    (hself : Usable φ (ops.flatMap Operand.parts)) (hc : Mirrors φ c f) (stack : List Value)
    (w : World) :
    Runs ω body lines ⟨stack, f⟩ w (evalAll (framePlatform ω φ) c ops) fun vs =>
      (.next, ⟨vs.reverse ++ stack, f⟩) := by
  induction h generalizing stack w with
  | nil =>
    intro pc _
    exact .refl
  | @cons op rest first more hop _ ih =>
    have hself_op : Usable φ op.parts := hself.mono fun x hx => by simp [hx]
    have hself_rest : Usable φ (rest.flatMap Operand.parts) := hself.mono fun x hx => by
      rw [List.flatMap_cons, List.mem_append]
      exact .inr hx
    refine (hop.runs hself_op hc stack w).bind fun v w₁ _ => ?_
    have hrest := ih hself_rest (v :: stack) w₁
    refine Runs.map ?_
    simpa using hrest

theorem length_evalAll {S : Type} {π : Platform S} {s : S} {ops : List Operand} {vs : List Value}
    {w w' : World} (h : evalAll π s ops w = some (vs, w')) : vs.length = ops.length := by
  induction ops generalizing vs w w' with
  | nil =>
    obtain ⟨rfl, _⟩ := pure_eq_some.mp h
    rfl
  | cons op rest ih =>
    unfold evalAll at h
    simp only [bind_eq_some, pure_eq_some] at h
    obtain ⟨v, w₁, _, vs', w₂, hrest, rfl, _⟩ := h
    rw [List.length_cons, List.length_cons, ih hrest]

end Operands

/-! ### Calls -/

section Calls

variable {φ : Frame} {ω : Oracle} {body lines : List Line} {c : NamedCells} {f : Slots}

theorem popArgs?_append {n : Nat} {vs rest : List Value} (h : vs.length = n) :
    popArgs? n (vs.reverse ++ rest) = some (vs, rest) := by
  have hlen : n = vs.reverse.length := by rw [List.length_reverse, h]
  unfold popArgs?
  rw [if_pos (by rw [List.length_append]; omega), hlen, List.take_left, List.drop_left,
    List.reverse_reverse]

theorem evalReceiver_cases {S : Type} {π : Platform S} {s : S} {dispatch : Dispatch}
    {target : Operand} {receiver : Option Value} {w w' : World}
    (h : evalReceiver π s dispatch target w = some (receiver, w')) (rest : List Value) :
    popReceiver? dispatch (receiver.toList ++ rest) = some (receiver, rest) := by
  cases dispatch with
  | static =>
    cases target with
    | classRef cls =>
      obtain ⟨rfl, _⟩ := pure_eq_some.mp h
      rfl
    | lit | var | param | elem | self => exact absurd h failure_ne_some
  | virtual | special =>
    simp only [evalReceiver, bind_eq_some, pure_eq_some] at h
    obtain ⟨v, w₁, _, rfl, _⟩ := h
    rfl

theorem Receives.runs {dispatch : Dispatch} {target : Operand} (h : Receives φ dispatch target lines)
    (hself : Usable φ target.parts) (hc : Mirrors φ c f) (stack : List Value) (w : World) :
    Runs ω body lines ⟨stack, f⟩ w (evalReceiver (framePlatform ω φ) c dispatch target) fun r =>
      (.next, ⟨r.toList ++ stack, f⟩) := by
  cases h with
  | static cls =>
    intro pc _
    exact .refl
  | value hne hload =>
    have hreceiver : evalReceiver (framePlatform ω φ) c dispatch target =
        target.eval (framePlatform ω φ) c >>= fun v => pure (some v) := by
      cases dispatch with
      | static => exact absurd rfl hne
      | virtual | special => rfl
    rw [hreceiver]
    exact Runs.map (hload.runs hself hc stack w)

/-- A call by name. The descriptor of the method tells the machine what to take and what to leave. -/
theorem runs_invoke {dispatch : Dispatch} {target : Operand} {name : String} {args : List Operand}
    {result : Ty} {receiver values : List Line} {ref : MethodRef}
    (hreceiver : Receives φ dispatch target receiver) (hargs : LoadsAll φ args values)
    (href : (linkage φ.cls).method? dispatch target name args result = some ref)
    (hsig : Signature.of? ref.descriptor =
      some ⟨args.length, decide (resultType dispatch result = .void)⟩)
    (hself : Usable φ (target.parts ++ args.flatMap Operand.parts)) (hc : Mirrors φ c f)
    (stack : List Value) (w : World) :
    Runs ω body (receiver ++ values ++ [.op (.invoke dispatch ref)]) ⟨stack, f⟩ w
      (invoke (framePlatform ω φ) c dispatch target (some name) args result) fun v =>
        (.next, ⟨if resultType dispatch result = .void then stack else v :: stack, f⟩) := by
  have hself_t : Usable φ target.parts := hself.mono fun x hx => List.mem_append_left _ hx
  have hself_a : Usable φ (args.flatMap Operand.parts) :=
    hself.mono fun x hx => List.mem_append_right _ hx
  unfold invoke
  rw [expect_some_bind, List.append_assoc]
  refine (hreceiver.runs hself_t hc stack w).bind fun r w₁ hr => ?_
  refine (hargs.runs hself_a hc _ w₁).bind fun vs w₂ hvs => ?_
  have hlink : (framePlatform ω φ).link.method? dispatch target name args result = some ref := href
  rw [hlink, expect_some_bind]
  apply runs_op
  have hpop : popArgs? args.length (vs.reverse ++ (r.toList ++ stack)) = some (vs, r.toList ++ stack) :=
    popArgs?_append (length_evalAll hvs)
  have hexec : (Op.invoke dispatch ref).exec ω ⟨vs.reverse ++ (r.toList ++ stack), f⟩ =
      perform ω (.call dispatch ref r vs) >>= fun v =>
        pure (.next, ⟨if resultType dispatch result = .void then stack else v :: stack, f⟩) := by
    unfold Op.exec
    simp only [hsig, hpop, expect_some_bind, evalReceiver_cases hr stack, decide_eq_true_eq]
  rw [hexec]
  exact (map_bind_pure _ _ _).symm

theorem callValue_named {S : Type} (π : Platform S) (s : S) {invocation : Invocation}
    {dispatch : Dispatch} (h : dispatch? invocation = some dispatch) (target : Operand)
    (method : Option String) (args : List Operand) (result : Ty) :
    callValue π s invocation target method args result =
      invoke π s dispatch target method args result := by
  cases invocation with
  | static | virtual | special =>
    obtain rfl := Option.some.inj h
    rfl
  | new | arrayLength => simp [dispatch?] at h

theorem Calls.runs {invocation : Invocation} {target : Operand} {method : Option String}
    {args : List Operand} {result : Ty} {hasValue : Bool}
    (h : Calls φ invocation target method args result lines hasValue)
    (himports : ∀ path ∈ φ.cls.imports, IsName path)
    (hnames : ∀ op ∈ args, ∀ x ∈ operandNames op, IsName x)
    (hself : Usable φ (target.parts ++ args.flatMap Operand.parts)) (hc : Mirrors φ c f)
    (stack : List Value) (w : World) :
    Runs ω body lines ⟨stack, f⟩ w
      (callValue (framePlatform ω φ) c invocation target method args result) fun v =>
        (.next, ⟨if hasValue then v :: stack else stack, f⟩) := by
  cases h with
  | @newArray size n method rest result hsize =>
    have hself_n : Usable φ size.parts := hself.mono fun x hx => by simp [hx]
    have hvalue : callValue (framePlatform ω φ) c .new (.classRef "array") method (size :: rest) result =
        size.eval (framePlatform ω φ) c >>= fun n => perform ω (.newArray n) := by
      simp only [callValue, allocate, if_true]
      rfl
    rw [hvalue]
    refine (hsize.runs hself_n hc stack w).bind fun v w₁ _ => ?_
    exact runs_op (map_bind_pure _ _ _).symm
  | @newObject name method args result hname =>
    have hvalue : callValue (framePlatform ω φ) c .new (.classRef name) method args result =
        perform ω (.newObject (resolveClass φ.cls.imports name)) := by
      unfold callValue allocate
      cases args with
      | nil => rfl
      | cons size rest =>
        simp only [if_neg hname]
        rfl
    rw [hvalue]
    exact runs_op (map_bind_pure _ _ _).symm
  | @arrayLength target a method args result htarget =>
    have hself_t : Usable φ target.parts := hself.mono fun x hx => List.mem_append_left _ hx
    refine (htarget.runs hself_t hc stack w).bind fun v w₁ _ => ?_
    exact runs_op (map_bind_pure _ _ _).symm
  | named hdispatch hreceiver hargs href =>
    have hsig := signature_of_linkage himports hnames href
    rw [callValue_named _ _ hdispatch]
    simpa using runs_invoke hreceiver hargs href hsig hself hc stack w

end Calls

/-! ### Operands that fit -/

/-- Whatever `x` gives from the world `w` on satisfies `p`, with the world it leaves. -/
def After {α : Type} (x : Act α) (w : World) (p : α → World → Prop) : Prop :=
  ∀ a w', x w = some (a, w') → p a w'

def IsInt (v : Value) : Prop :=
  ∃ n, v = .int n

def IsTruth (v : Value) : Prop :=
  v = .int 0 ∨ v = .int 1

/-- Logical operators take truth values, all others take numbers. -/
def BinaryFits (op : BinOp) (a b : Value) : Prop :=
  match op with
  | .and | .or => IsTruth a ∧ IsTruth b
  | _ => IsInt a ∧ IsInt b

/-- The operands of arithmetic and comparisons are numbers, and those of logical operators and
negations are zero or one. -/
def OperandsFit {S : Type} (π : Platform S) (s : S) : Instr → World → Prop
  | .binary op lhs rhs, w =>
    After (lhs.eval π s) w fun a w₁ => After (rhs.eval π s) w₁ fun b _ => BinaryFits op a b
  | .not op, w => After (op.eval π s) w fun a _ => IsTruth a
  | .assign (.elem array index _) _ rhs, w =>
    After (array.eval π s) w fun _ w₁ =>
      After (index.eval π s) w₁ fun _ w₂ => OperandsFit π s rhs w₂
  | .assign _ _ rhs, w => OperandsFit π s rhs w
  | .branch cond _, w => OperandsFit π s cond w
  | _, _ => True

theorem IsTruth.isInt {v : Value} (h : IsTruth v) : IsInt v := by
  rcases h with rfl | rfl
  · exact ⟨0, rfl⟩
  · exact ⟨1, rfl⟩

theorem BinaryFits.isInt {op : BinOp} {a b : Value} (h : BinaryFits op a b) : IsInt a ∧ IsInt b := by
  cases op with
  | and | or => exact ⟨h.1.isInt, h.2.isInt⟩
  | add | sub | mul | div | lt | gt | le | ge | eq | ne => exact h

/-- Computed operations. On truth values the bitwise operators are the logical ones. -/
theorem binary?_arith {op : BinOp} {a : Arith} (hop : Arith.of? op = some a) {m n : Int32}
    (hfit : BinaryFits op (.int m) (.int n)) :
    binary? op (.int m) (.int n) = (a.compute? m n).map .int := by
  cases op with
  | add | sub | mul =>
    obtain rfl := Option.some.inj hop
    rfl
  | div =>
    obtain rfl := Option.some.inj hop
    simp only [binary?, onNumbers?, Arith.compute?]
    split
    · rfl
    · rfl
  | and | or =>
    obtain rfl := Option.some.inj hop
    obtain ⟨hm, hn⟩ := hfit
    simp only [IsTruth, Value.int.injEq] at hm hn
    rcases hm with rfl | rfl <;> rcases hn with rfl | rfl <;> rfl
  | lt | gt | le | ge | eq | ne => simp [Arith.of?] at hop

theorem binary?_compare {op : BinOp} {cmp : Comparison} (hop : Comparison.of? op = some cmp)
    (m n : Int32) : binary? op (.int m) (.int n) = some (.ofBool (cmp.holds m n)) := by
  cases op with
  | lt | gt | le | ge | eq | ne =>
    obtain rfl := Option.some.inj hop
    rfl
  | add | sub | mul | div | and | or => simp [Comparison.of?] at hop

/-! ### Values -/

section Values

variable {φ : Frame} {ω : Oracle} {body lines : List Line} {c : NamedCells} {f : Slots}

theorem runs_compareLines (hbody : (lineLabels body).Nodup) (cmp : Comparison) (n : Nat) (a b : Int32)
    (stack : List Value) (f : Slots) (w : World) :
    Runs ω body (compareLines cmp n) ⟨.int b :: .int a :: stack, f⟩ w
      (pure (Value.ofBool (cmp.holds a b))) fun v => (.next, ⟨v :: stack, f⟩) := by
  intro pc hplaced
  unfold compareLines at hplaced
  have hzero := hplaced.tail
  have hgoto := hzero.tail
  have hyes := hgoto.tail
  have hone := hyes.tail
  have hdone := hone.tail
  cases hholds : cmp.holds a b with
  | true =>
    have hjump : Reaches (stepLine? ω body) ⟨pc, ⟨.int b :: .int a :: stack, f⟩, w⟩
        ⟨pc + 1 + 1 + 1, ⟨stack, f⟩, w⟩ :=
      reaches_place hplaced.get (by simp only [Op.exec, hholds, if_true]; rfl)
        (place?_of_placed hyes hbody)
    have hconst : Reaches (stepLine? ω body) ⟨pc + 1 + 1 + 1 + 1, ⟨stack, f⟩, w⟩
        ⟨pc + 1 + 1 + 1 + 1 + 1, ⟨.ofBool true :: stack, f⟩, w⟩ :=
      reaches_line hone.get rfl
    exact hjump.trans ((reaches_past_label hyes.get).trans
      (hconst.trans (reaches_past_label hdone.get)))
  | false =>
    have hfall : Reaches (stepLine? ω body) ⟨pc, ⟨.int b :: .int a :: stack, f⟩, w⟩
        ⟨pc + 1, ⟨stack, f⟩, w⟩ :=
      reaches_line hplaced.get (by simp only [Op.exec, hholds, Bool.false_eq_true, if_false]; rfl)
    have hconst : Reaches (stepLine? ω body) ⟨pc + 1, ⟨stack, f⟩, w⟩
        ⟨pc + 1 + 1, ⟨.ofBool false :: stack, f⟩, w⟩ :=
      reaches_line hzero.get rfl
    have hjump : Reaches (stepLine? ω body) ⟨pc + 1 + 1, ⟨.ofBool false :: stack, f⟩, w⟩
        ⟨pc + 1 + 1 + 1 + 1 + 1, ⟨.ofBool false :: stack, f⟩, w⟩ :=
      reaches_place hgoto.get rfl (place?_of_placed hdone hbody)
    exact hfall.trans (hconst.trans (hjump.trans (reaches_past_label hdone.get)))

theorem runs_arith {op : BinOp} {a : Arith} (hop : Arith.of? op = some a) {x y : Value}
    (hfit : BinaryFits op x y) (stack : List Value) (f : Slots) (w : World) :
    Runs ω body [.op (.arith a)] ⟨y :: x :: stack, f⟩ w (expect (binary? op x y)) fun v =>
      (.next, ⟨v :: stack, f⟩) := by
  obtain ⟨⟨m, rfl⟩, ⟨n, rfl⟩⟩ := hfit.isInt
  rw [binary?_arith hop hfit]
  apply runs_op
  simp only [Op.exec]
  cases hvalue : a.compute? m n with
  | none => rfl
  | some k => rfl

theorem runs_not {x : Value} (hfit : IsTruth x) (stack : List Value) (f : Slots) (w : World) :
    Runs ω body [.op (.const 1), .op (.arith .xor)] ⟨x :: stack, f⟩ w (expect x.negation?) fun v =>
      (.next, ⟨v :: stack, f⟩) := by
  refine Runs.after_op rfl (runs_op ?_)
  rcases hfit with rfl | rfl
  · rfl
  · rfl

theorem Pushes.runs {i : Instr} {n n' : Nat} (h : Pushes φ i lines n n')
    (himports : ∀ path ∈ φ.cls.imports, IsName path) (hbody : (lineLabels body).Nodup)
    (hnames : ∀ x ∈ instrNames i, IsName x) (hself : Usable φ i.operands) (hc : Mirrors φ c f)
    (stack : List Value) (w : World) (hfit : OperandsFit (framePlatform ω φ) c i w) :
    Runs ω body lines ⟨stack, f⟩ w (i.value (framePlatform ω φ) c) fun v =>
      (.next, ⟨v :: stack, f⟩) := by
  cases h with
  | single _ h => exact h.runs hself hc stack w
  | arith _ hop hl hr =>
    have hself_l := hself.mono fun x hx => List.mem_append_left _ hx
    have hself_r := hself.mono fun x hx => List.mem_append_right _ hx
    rw [List.append_assoc]
    refine (hl.runs hself_l hc stack w).bind fun a w₁ ha => ?_
    refine (hr.runs hself_r hc (a :: stack) w₁).bind fun b w₂ hb => ?_
    exact runs_arith hop (hfit a w₁ ha b w₂ hb) stack f w₂
  | @compare op cmp lhs rhs l r n hop hl hr =>
    have hself_l := hself.mono fun x hx => List.mem_append_left _ hx
    have hself_r := hself.mono fun x hx => List.mem_append_right _ hx
    rw [List.append_assoc]
    refine (hl.runs hself_l hc stack w).bind fun a w₁ ha => ?_
    refine (hr.runs hself_r hc (a :: stack) w₁).bind fun b w₂ hb => ?_
    obtain ⟨⟨x, rfl⟩, ⟨y, rfl⟩⟩ := (hfit a w₁ ha b w₂ hb).isInt
    rw [binary?_compare hop]
    exact runs_compareLines hbody cmp n x y stack f w₂
  | not _ h =>
    refine (h.runs hself hc stack w).bind fun a w₁ ha => ?_
    exact runs_not (hfit a w₁ ha) stack f w₁
  | @getField object field lines ref n hobject href =>
    have hlink : (framePlatform ω φ).link.field? field = some ref := href
    refine (hobject.runs hself hc stack w).bind fun o w₁ _ => ?_
    rw [hlink, expect_some_bind]
    exact runs_op (map_bind_pure _ _ _).symm
  | @call invocation target method args result lines n h =>
    have hargs := argNames_of_call hnames
    exact h.runs himports hargs hself hc stack w

end Values

/-! ### Instructions -/

/-- The slots after an instruction that leaves these cells: the variable it defines has its slot
filled. -/
def slotsAfter (φ : Frame) (i : Instr) (f : Slots) (c : NamedCells) : Slots :=
  match i.defines? with
  | some name => ((φ.slots.get? name).map fun slot => f.set slot.index (c.cell name)).getD f
  | none => f

section Instructions

variable {φ : Frame} {ω : Oracle} {body lines : List Line} {c c' : NamedCells} {f : Slots}

theorem Pushes.exec {i : Instr} {n n' : Nat} (h : Pushes φ i lines n n') {S : Type} (π : Platform S)
    (s : S) : i.exec π s = i.value π s >>= fun _ => pure (.next, s) := by
  cases h with
  | single | arith | compare | not | getField | call => rfl

theorem Pushes.slotsAfter {i : Instr} {n n' : Nat} (h : Pushes φ i lines n n') :
    slotsAfter φ i f c = f := by
  cases h with
  | single | arith | compare | not | getField | call => rfl

theorem exec_assign_cell {dest : Operand} {cell : Cell} (h : dest.cell? = some cell) (ty : Ty)
    (rhs : Instr) :
    (Instr.assign dest ty rhs).exec (framePlatform ω φ) c =
      rhs.value (framePlatform ω φ) c >>= fun v =>
        pure (.next, { c with cell := fun n => if n = cell.name then v else c.cell n }) := by
  cases dest with
  | var name ty | param index name ty =>
    obtain rfl := Option.some.inj h
    simp only [Instr.exec, writeTo, bind_assoc]
    rfl
  | lit | elem | self | classRef => simp [Operand.cell?] at h

theorem slotsAfter_assign {dest : Operand} {cell : Cell} {slot : Slot} (ty : Ty) (rhs : Instr)
    (hcell : dest.cell? = some cell) (hslot : φ.slots.get? cell.name = some slot) :
    slotsAfter φ (.assign dest ty rhs) f c = f.set slot.index (c.cell cell.name) := by
  have hdefines : (Instr.assign dest ty rhs).defines? = some cell.name := by
    rw [Instr.defines?, Operand.name?_eq, hcell]
    rfl
  simp only [Assembly.slotsAfter, hdefines, hslot, Option.map_some, Option.getD_some]

/-- The lines of an instruction take the machine from an empty stack to an empty stack, and control
and slots to where the instruction takes them. -/
theorem Emits.runs {i : Instr} {n n' : Nat} (h : Emits φ i lines n n')
    (himports : ∀ path ∈ φ.cls.imports, IsName path) (hbody : (lineLabels body).Nodup)
    (hnames : ∀ x ∈ instrNames i, IsName x) (hself : Usable φ i.operands) (hc : Mirrors φ c f)
    (w : World) (hfit : OperandsFit (framePlatform ω φ) c i w) :
    Runs ω body lines ⟨[], f⟩ w (i.exec (framePlatform ω φ) c) fun r =>
      (r.1, ⟨[], slotsAfter φ i f r.2⟩) := by
  cases h with
  | @assignElem array index rhs a i v n n' ty ty' ha hi hv =>
    have hself_a : Usable φ array.parts := hself.mono fun x hx => by
      simp [Instr.operands, Operand.parts, hx]
    have hself_i : Usable φ index.parts := hself.mono fun x hx => by
      simp [Instr.operands, Operand.parts, hx]
    have hself_v : Usable φ rhs.operands := hself.mono fun x hx => by
      simp [Instr.operands, hx]
    have hnames_v : ∀ x ∈ instrNames rhs, IsName x := fun x hx =>
      hnames x (by simp [instrNames, hx])
    simp only [Instr.exec, writeTo, bind_assoc, pure_bind, List.append_assoc]
    -- the array and the index wait on the stack while the value is computed
    refine (ha.runs hself_a hc [] w).bind fun x w₁ hx => ?_
    refine (hi.runs hself_i hc [x] w₁).bind fun y w₂ hy => ?_
    refine (hv.runs himports hbody hnames_v hself_v hc [y, x] w₂ (hfit x w₁ hx y w₂ hy)).bind
      fun z w₃ _ => ?_
    exact Runs.map (runs_op (map_bind_pure _ _ _).symm)
  | @assignCell dest cell slot rhs v n n' ty hcell hslot hv =>
    have hself_v : Usable φ rhs.operands := hself.mono fun x hx => by
      simp [Instr.operands, hx]
    have hnames_v : ∀ x ∈ instrNames rhs, IsName x := fun x hx =>
      hnames x (by simp [instrNames, hx])
    have hfit_v : OperandsFit (framePlatform ω φ) c rhs w := by
      cases dest with
      | elem => simp [Operand.cell?] at hcell
      | lit | var | param | self | classRef => exact hfit
    rw [exec_assign_cell hcell]
    refine (hv.runs himports hbody hnames_v hself_v hc [] w hfit_v).bind fun x w₁ _ => ?_
    apply runs_op
    rw [show (pure _ : Act (Flow × NamedCells)) w₁ = some (_, w₁) from rfl, Option.map_some,
      slotsAfter_assign ty rhs hcell hslot]
    dsimp only
    rw [if_pos rfl]
    rfl
  | retNone => exact runs_op rfl
  | ret _ h =>
    refine (h.runs hself hc [] w).bind fun v w₁ _ => ?_
    exact runs_op rfl
  | goto => exact runs_op rfl
  | nop => exact runs_op rfl
  | @branchCompare op cmp lhs rhs l r label n hop hl hr =>
    have hself_l := hself.mono fun x hx => List.mem_append_left _ hx
    have hself_r := hself.mono fun x hx => List.mem_append_right _ hx
    simp only [Instr.exec, Instr.value, bind_assoc, List.append_assoc]
    refine (hl.runs hself_l hc [] w).bind fun a w₁ ha => ?_
    refine (hr.runs hself_r hc [a] w₁).bind fun b w₂ hb => ?_
    obtain ⟨⟨x, rfl⟩, ⟨y, rfl⟩⟩ := (hfit a w₁ ha b w₂ hb).isInt
    rw [binary?_compare hop, expect_some_bind, Value.truth?_ofBool, expect_some_bind]
    exact runs_op rfl
  | @branchNot op lines label n h =>
    simp only [Instr.exec, Instr.value, bind_assoc]
    refine (h.runs hself hc [] w).bind fun a w₁ ha => ?_
    rcases hfit a w₁ ha with rfl | rfl
    · exact runs_op rfl
    · exact runs_op rfl
  | @branchValue cond lines n n' label h =>
    have hnames_c : ∀ x ∈ instrNames cond, IsName x := fun x hx =>
      hnames x (by simp [instrNames, hx])
    simp only [Instr.exec]
    refine (h.runs himports hbody hnames_c hself hc [] w hfit).bind fun v w₁ _ => ?_
    apply runs_op
    -- the opcode compares with zero; what is no number has no truth value and fails in both
    cases v with
    | int k =>
      have htruth : (Value.int k).truth? = some (k != 0) := rfl
      rw [htruth, expect_some_bind]
      by_cases hk : k = 0
      · have hzero : (k != 0) = false := by simp [hk]
        simp only [Op.exec, hzero, if_pos hk]
        rfl
      · have hnonzero : (k != 0) = true := by simpa using hk
        simp only [Op.exec, hnonzero, if_neg hk]
        rfl
    | null | ref => rfl
  | @putField object field value o x ref n hobject hvalue href =>
    have hself_o := hself.mono fun x hx => List.mem_append_left _ hx
    have hself_x := hself.mono fun x hx => List.mem_append_right _ hx
    have hlink : (framePlatform ω φ).link.field? field = some ref := href
    simp only [Instr.exec, List.append_assoc]
    refine (hobject.runs hself_o hc [] w).bind fun a w₁ _ => ?_
    refine (hvalue.runs hself_x hc [a] w₁).bind fun b w₂ _ => ?_
    rw [hlink, expect_some_bind]
    exact Runs.map (runs_op (map_bind_pure _ _ _).symm)
  | @callVoid invocation target method args result lines n h =>
    have hargs := argNames_of_call hnames
    exact Runs.map (h.runs himports hargs hself hc [] w)
  | discard h =>
    simp only [h.slotsAfter]
    rw [h.exec]
    refine (h.runs himports hbody hnames hself hc [] w hfit).bind fun v w₁ _ => ?_
    exact runs_op rfl

theorem exec_cells {i : Instr} {flow : Flow} {w w' : World}
    (h : i.exec (framePlatform ω φ) c w = some ((flow, c'), w')) :
    (i.defines? = none ∧ c' = c) ∨
      ∃ name v, i.defines? = some name ∧
        c' = { c with cell := fun n => if n = name then v else c.cell n } := by
  cases i with
  | assign dest ty rhs =>
    cases hcell : dest.cell? with
    | some cell =>
      rw [exec_assign_cell hcell] at h
      simp only [bind_eq_some, pure_eq_some, Prod.mk.injEq] at h
      obtain ⟨v, w₁, _, ⟨_, rfl⟩, _⟩ := h
      refine .inr ⟨cell.name, v, ?_, rfl⟩
      rw [Instr.defines?, Operand.name?_eq, hcell]
      rfl
    | none =>
      refine .inl ⟨by rw [Instr.defines?, Operand.name?_eq, hcell]; rfl, ?_⟩
      cases dest with
      | elem array index elemTy =>
        simp only [Instr.exec, writeTo, bind_eq_some, pure_eq_some, Prod.mk.injEq] at h
        obtain ⟨s, w₁, ⟨_, _, _, _, _, _, _, _, _, _, _, _, rfl, _⟩, ⟨_, rfl⟩, _⟩ := h
        rfl
      | var | param => simp [Operand.cell?] at hcell
      | lit | self | classRef =>
        simp only [Instr.exec, writeTo, bind_eq_some, failure_ne_some, false_and, exists_false] at h
  | ret value =>
    cases value with
    | none =>
      simp only [Instr.exec, pure_eq_some, Prod.mk.injEq] at h
      exact .inl ⟨rfl, h.1.2⟩
    | some op =>
      simp only [Instr.exec, bind_eq_some, pure_eq_some, Prod.mk.injEq] at h
      obtain ⟨_, _, _, ⟨_, rfl⟩, _⟩ := h
      exact .inl ⟨rfl, rfl⟩
  | goto | nop =>
    simp only [Instr.exec, pure_eq_some, Prod.mk.injEq] at h
    exact .inl ⟨rfl, h.1.2⟩
  | branch cond label =>
    simp only [Instr.exec, bind_eq_some, pure_eq_some, Prod.mk.injEq] at h
    obtain ⟨_, _, _, _, _, _, ⟨_, rfl⟩, _⟩ := h
    exact .inl ⟨rfl, rfl⟩
  | putField object field value =>
    simp only [Instr.exec, bind_eq_some, pure_eq_some, Prod.mk.injEq] at h
    obtain ⟨_, _, _, _, _, _, _, _, _, _, _, _, ⟨_, rfl⟩, _⟩ := h
    exact .inl ⟨rfl, rfl⟩
  | binary | not | call | getField | single =>
    simp only [Instr.exec, bind_eq_some, pure_eq_some, Prod.mk.injEq] at h
    obtain ⟨_, _, _, ⟨_, rfl⟩, _⟩ := h
    exact .inl ⟨rfl, rfl⟩

end Instructions

end JavaMinus.Assembly
