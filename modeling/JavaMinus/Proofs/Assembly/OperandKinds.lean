import JavaMinus.Proofs.Assembly.Demands
import JavaMinus.Proofs.Assembly.StackDepths

/-!
# Kinds of operands

Flat code that uses its operands at their types becomes assembly whose opcodes find values of the kinds
that they ask for, along every path. There is one exception. A test whether two references are the same
becomes a comparison of integers.
-/

namespace JavaMinus.Flat

open JavaMinus.Assembly (Kind)
open JavaMinus.Source (BinOp)

/-! ### Code that uses operands at their types -/

/-- The operand has a value, and its parts are of the types that it takes them for. -/
def Operand.isTyped : Operand → Bool
  | .lit _ ty => ty.isScalar
  | .var _ ty | .param _ _ ty => ty.isValue
  | .elem array index ty =>
    array.isTyped && index.isTyped && ty.isValue && array.ty == .array ty && index.ty == .int
  | .self _ => true
  | .classRef _ => false

theorem Operand.isValue_ty {op : Operand} (h : op.isTyped = true) : op.ty.isValue = true := by
  cases op with
  | lit value ty =>
    unfold Operand.ty Ty.isValue
    rw [show ty.isScalar = true from h]
    rfl
  | var | param => exact h
  | elem array index ty =>
    simp only [Operand.isTyped, Bool.and_eq_true] at h
    exact h.1.1.2
  | self => rfl
  | classRef => cases h

def Operand.isTypedScalar (op : Operand) : Bool :=
  op.isTyped && op.ty.isScalar

def Operand.isTypedRef (op : Operand) : Bool :=
  op.isTyped && op.ty.isReference

def Ty.isArray : Ty → Bool
  | .array _ => true
  | _ => false

namespace Instr

/-- Only tests for equality take references. -/
def binaryFits (op : BinOp) (lhs rhs : Operand) : Bool :=
  (lhs.isTypedScalar && rhs.isTypedScalar) ||
    ((op == .eq || op == .ne) && lhs.isTypedRef && rhs.isTypedRef)

/-- The operands of a call are of the types that it takes them for. -/
def callFits (invocation : Invocation) (target : Operand) (args : List Operand) (result : Ty) : Bool :=
  match invocation with
  | .new => target != .classRef "array" || args.head?.any Operand.isTypedScalar
  | .arrayLength => target.isTyped && target.ty.isArray
  | .static => args.all Operand.isTyped && (result == .void || result.isValue)
  | .virtual => target.isTypedRef && args.all Operand.isTyped && (result == .void || result.isValue)
  | .special => target.isTypedRef && args.all Operand.isTyped

/-- The kind of the value that a call leaves, if it leaves one. -/
def callKind? (invocation : Invocation) (result : Ty) : Option Kind :=
  match invocation with
  | .new => some .ref
  | .arrayLength => some .int
  | .static | .virtual => if result = .void then none else some (.of result)
  | .special => none

/-- The kind of the value of an instruction that uses its operands at their types. -/
def valueKind? : Instr → Option Kind
  | .single op => if op.isTyped then some (.of op.ty) else none
  | .binary op lhs rhs => if binaryFits op lhs rhs then some .int else none
  | .not op => if op.isTypedScalar then some .int else none
  | .getField object field =>
    if object.isTypedRef && field.ty.isValue then some (.of field.ty) else none
  | .call invocation target _ args result =>
    if callFits invocation target args result then callKind? invocation result else none
  | _ => none

/-- The instruction uses its operands at their types. What is assigned or stored is of the kind of its
destination, and conditions are numbers or truth values. -/
def isTyped : Instr → Bool
  | .assign dest _ rhs => dest.isTyped && rhs.valueKind? == some (.of dest.ty)
  | .call invocation target _ args result => callFits invocation target args result
  | .ret value => value.all Operand.isTyped
  | .goto _ | .nop => true
  | .branch cond _ => cond.valueKind? == some .int
  | .putField object field value =>
    object.isTypedRef && value.isTyped && field.ty.isValue && Kind.of value.ty == .of field.ty
  | i => i.valueKind?.isSome

/-- The instruction tests whether two references are the same. -/
def comparesReferences : Instr → Bool
  | .binary _ lhs rhs => lhs.ty.isReference && rhs.ty.isReference
  | .assign _ _ rhs => rhs.comparesReferences
  | .branch cond _ => cond.comparesReferences
  | _ => false

end Instr

end JavaMinus.Flat

namespace JavaMinus.Assembly

open JavaMinus.Behaviour
open JavaMinus.Flat (Ty Operand Instr Invocation Header Code labelsOf)
open JavaMinus.Source (BinOp)

/-! ### Lines -/

/-- The line is an integer test for equality that finds two references. -/
def Line.TestsReferences (line : Line) (stack : List Kind) : Prop :=
  ∃ cmp label rest, line = .op (.ifCompare cmp label) ∧ (cmp = .eq ∨ cmp = .ne) ∧
    stack = .ref :: .ref :: rest

/-- The opcode finds what it asks for. Where `lax` holds, an integer test for equality may also find two
references. -/
def Respects (lax : Prop) (o : Op) (stack stack' : List Kind) : Prop :=
  ∃ d, o.demand? = some d ∧ stack' = d.after stack ∧
    (d.metBy stack = true ∨ lax ∧ (Line.op o).TestsReferences stack)

/-- The lines lead from a stack of kinds `x` to `y`. -/
def Moves (lax : Prop) (lines : List Line) (x y : List Kind) : Prop :=
  ∃ xs, Threads (Respects lax) lines x xs y

/-- The lines lead to what their last opcode, which passes control on, takes; it leaves `puts`. -/
def MovesTo (lax : Prop) (lines : List Line) (x puts : List Kind) : Prop :=
  ∃ front o takes, lines = front ++ [.op o] ∧ o.Passes ∧ o.demand? = some (.exact takes puts) ∧
    Moves lax front x (takes ++ x)

section Lines

variable {lax : Prop} {φ : Frame} {lines more : List Line} {x y z : List Kind}

theorem respects_exact {o : Op} {takes puts : List Kind} (h : o.demand? = some (.exact takes puts))
    (rest : List Kind) : Respects lax o (takes ++ rest) (puts ++ rest) :=
  ⟨_, h, (Demand.after_exact takes puts rest).symm, .inl (Demand.metBy_exact takes puts rest)⟩

theorem Moves.nil (x : List Kind) : Moves lax [] x x :=
  ⟨[], .nil x⟩

theorem Moves.append (h : Moves lax lines x y) (h' : Moves lax more y z) :
    Moves lax (lines ++ more) x z := by
  obtain ⟨xs, hxs⟩ := h
  obtain ⟨ys, hys⟩ := h'
  exact ⟨xs ++ ys, hxs.append hys⟩

theorem Moves.snoc {takes puts rest : List Kind} (h : Moves lax lines x (takes ++ rest)) (o : Op)
    (hpasses : o.Passes) (hdemand : o.demand? = some (.exact takes puts)) :
    Moves lax (lines ++ [.op o]) x (puts ++ rest) :=
  h.append ⟨_, .op hpasses (respects_exact hdemand rest) (.nil _)⟩

theorem MovesTo.moves {puts : List Kind} (h : MovesTo lax lines x puts) :
    Moves lax lines x (puts ++ x) := by
  obtain ⟨front, o, takes, rfl, hpasses, hdemand, hfront⟩ := h
  exact hfront.snoc o hpasses hdemand

/-- The kinds of two operands of a comparison: integers, or references where that may be. -/
def Comparable (lax : Prop) (cmp : Comparison) (kind : Kind) : Prop :=
  kind = .int ∨ lax ∧ kind = .ref ∧ (cmp = .eq ∨ cmp = .ne)

theorem respects_compare {cmp : Comparison} {kind : Kind} (h : Comparable lax cmp kind)
    (label : String) (rest : List Kind) :
    Respects lax (.ifCompare cmp label) (kind :: kind :: rest) rest := by
  refine ⟨_, rfl, rfl, ?_⟩
  rcases h with rfl | ⟨hlax, rfl, hcmp⟩
  · exact .inl rfl
  · exact .inr ⟨hlax, cmp, label, rest, rfl, hcmp, rfl⟩

theorem Moves.compare {cmp : Comparison} {kind : Kind} {rest : List Kind}
    (h : Moves lax lines x (kind :: kind :: rest)) (hkind : Comparable lax cmp kind) (n : Nat) :
    Moves lax (lines ++ compareLines cmp n) x (.int :: rest) := by
  have hconst (b : Int32) : Respects lax (.const b) ([] ++ rest) ([.int] ++ rest) :=
    respects_exact rfl rest
  have hgoto (label : String) :
      Respects lax (.goto label) ([] ++ .int :: rest) ([] ++ .int :: rest) :=
    respects_exact rfl _
  have hcompare : Moves lax (compareLines cmp n ++ []) (kind :: kind :: rest) (.int :: rest) :=
    ⟨_, .compare cmp n (fun label => respects_compare hkind label rest) hconst hgoto (.nil _)⟩
  rw [List.append_nil] at hcompare
  exact h.append hcompare

/-! ### Operands -/

theorem Loads.moves {op : Operand} (h : Loads φ op lines) (htyped : op.isTyped = true)
    (x : List Kind) : Moves lax lines x (.of op.ty :: x) := by
  induction h generalizing x with
  | lit value ty =>
    have hkind : Kind.of ty = .int := Kind.of_scalar htyped
    rw [Operand.ty, hkind]
    exact (Moves.nil x).snoc (.const value) ⟨rfl, rfl⟩ rfl
  | self cls => exact (Moves.nil x).snoc (.load .ref 0) ⟨rfl, rfl⟩ rfl
  | @cell op cell slot _ _ => exact (Moves.nil x).snoc (.load (.of op.ty) slot.index) ⟨rfl, rfl⟩ rfl
  | @elem array index a i ty _ _ iha ihi =>
    simp only [Operand.isTyped, Bool.and_eq_true, beq_iff_eq] at htyped
    obtain ⟨⟨⟨⟨harray, hindex⟩, _⟩, harrayTy⟩, hindexTy⟩ := htyped
    have ha : Moves lax a x (.ref :: x) := by
      have := iha harray x
      rwa [harrayTy] at this
    have hi : Moves lax i (.ref :: x) (.int :: .ref :: x) := by
      have := ihi hindex (.ref :: x)
      rwa [hindexTy] at this
    exact (ha.append hi).snoc (.arrayLoad (.of ty)) ⟨rfl, rfl⟩ rfl

theorem Loads.moves_scalar {op : Operand} (h : Loads φ op lines) (htyped : op.isTypedScalar = true)
    (x : List Kind) : Moves lax lines x (.int :: x) := by
  obtain ⟨htyped, hscalar⟩ := Bool.and_eq_true_iff.mp htyped
  rw [← Kind.of_scalar hscalar]
  exact h.moves htyped x

theorem Loads.moves_ref {op : Operand} (h : Loads φ op lines) (htyped : op.isTypedRef = true)
    (x : List Kind) : Moves lax lines x (.ref :: x) := by
  obtain ⟨htyped, href⟩ := Bool.and_eq_true_iff.mp htyped
  rw [← Kind.of_reference href]
  exact h.moves htyped x

theorem LoadsAll.moves {ops : List Operand} (h : LoadsAll φ ops lines)
    (htyped : ops.all Operand.isTyped = true) (x : List Kind) :
    Moves lax lines x ((ops.map fun op => Kind.of op.ty).reverse ++ x) := by
  induction h generalizing x with
  | nil => exact .nil x
  | @cons op rest first more hop _ ih =>
    rw [List.all_cons, Bool.and_eq_true] at htyped
    have hrest := ih htyped.2 (.of op.ty :: x)
    rw [List.map_cons, List.reverse_cons, List.append_assoc]
    exact (hop.moves htyped.1 x).append hrest

/-- The two operands of a comparison or of an arithmetic operation. -/
theorem binary_moves {op : BinOp} {lhs rhs : Operand} {l r : List Line} (hl : Loads φ lhs l)
    (hr : Loads φ rhs r) (hfits : Instr.binaryFits op lhs rhs = true) (x : List Kind) :
    ∃ kind, Moves lax (l ++ r) x (kind :: kind :: x) ∧
      (kind = .int ∨ kind = .ref ∧ (op = .eq ∨ op = .ne) ∧
        (Instr.binary op lhs rhs).comparesReferences = true) := by
  simp only [Instr.binaryFits, Bool.or_eq_true, Bool.and_eq_true, beq_iff_eq] at hfits
  rcases hfits with ⟨hlhs, hrhs⟩ | ⟨⟨hop, hlhs⟩, hrhs⟩
  · exact ⟨.int, (hl.moves_scalar hlhs x).append (hr.moves_scalar hrhs _), .inl rfl⟩
  · refine ⟨.ref, (hl.moves_ref hlhs x).append (hr.moves_ref hrhs _), .inr ⟨rfl, hop, ?_⟩⟩
    rw [Instr.comparesReferences, (Bool.and_eq_true_iff.mp hlhs).2, (Bool.and_eq_true_iff.mp hrhs).2]
    rfl

/-! ### Calls -/

theorem Receives.moves {dispatch : Dispatch} {target : Operand}
    (h : Receives φ dispatch target lines) (htarget : dispatch ≠ .static → target.isTypedRef = true)
    (x : List Kind) : Moves lax lines x ((if dispatch = .static then [] else [.ref]) ++ x) := by
  cases h with
  | static cls => exact .nil x
  | value hne hload =>
    rw [if_neg hne]
    exact hload.moves_ref (htarget hne) x

theorem demand_invoke {c : Flat.Class} {dispatch : Dispatch} {target : Operand} {name : String}
    {args : List Operand} {result : Ty} {ref : MethodRef}
    (himports : ∀ path ∈ c.imports, IsName path)
    (hargs : ∀ op ∈ args, ∀ name ∈ operandNames op, IsName name)
    (htyped : args.all Operand.isTyped = true)
    (hresult : resultType dispatch result = .void ∨ (resultType dispatch result).isValue = true)
    (h : (linkage c).method? dispatch target name args result = some ref) :
    (Op.invoke dispatch ref).demand? = some (.exact
      ((args.map fun op => Kind.of op.ty).reverse ++ if dispatch = .static then [] else [.ref])
      (if resultType dispatch result = .void then none
        else some (Kind.of (resultType dispatch result))).toList) := by
  obtain ⟨_, _, hdescriptor⟩ := linkage_method h
  have hnames : ∀ ty ∈ args.map Operand.ty, ∀ name ∈ tyNames ty, IsName name := by
    intro ty hty name hname
    obtain ⟨op, hop, rfl⟩ := List.mem_map.mp hty
    exact hargs op hop name (tyNames_subset op name hname)
  have hvalues : ∀ ty ∈ args.map Operand.ty, ty.isValue = true := by
    intro ty hty
    obtain ⟨op, hop, rfl⟩ := List.mem_map.mp hty
    exact Operand.isValue_ty (List.all_eq_true.mp htyped op hop)
  rw [Op.demand?, methodKinds?_descriptor himports hnames hvalues hresult hdescriptor, List.map_map]
  rfl

theorem callFits_named {invocation : Invocation} {dispatch : Dispatch} {target : Operand}
    {args : List Operand} {result : Ty} (hdispatch : dispatch? invocation = some dispatch)
    (h : Instr.callFits invocation target args result = true) :
    (dispatch ≠ .static → target.isTypedRef = true) ∧ args.all Operand.isTyped = true ∧
      (resultType dispatch result = .void ∨ (resultType dispatch result).isValue = true) ∧
      (if resultType dispatch result = .void then none
        else some (Kind.of (resultType dispatch result))) = Instr.callKind? invocation result := by
  cases invocation with
  | static =>
    obtain rfl : Dispatch.static = dispatch := by simpa [dispatch?] using hdispatch
    simp only [Instr.callFits, Bool.and_eq_true, Bool.or_eq_true, beq_iff_eq] at h
    exact ⟨fun hne => absurd rfl hne, h.1, h.2, rfl⟩
  | virtual =>
    obtain rfl : Dispatch.virtual = dispatch := by simpa [dispatch?] using hdispatch
    simp only [Instr.callFits, Bool.and_eq_true, Bool.or_eq_true, beq_iff_eq] at h
    exact ⟨fun _ => h.1.1, h.1.2, h.2, rfl⟩
  | special =>
    obtain rfl : Dispatch.special = dispatch := by simpa [dispatch?] using hdispatch
    simp only [Instr.callFits, Bool.and_eq_true] at h
    exact ⟨fun _ => h.1, h.2, .inl rfl, rfl⟩
  | new | arrayLength => simp [dispatch?] at hdispatch

theorem Calls.hasValue_eq {invocation : Invocation} {target : Operand} {method : Option String}
    {args : List Operand} {result : Ty} {hasValue : Bool}
    (h : Calls φ invocation target method args result lines hasValue) :
    hasValue = (Instr.callKind? invocation result).isSome := by
  cases h with
  | newArray | newObject | arrayLength => rfl
  | @named _ dispatch _ _ _ _ _ _ _ hdispatch _ _ _ =>
    cases invocation with
    | static | virtual =>
      obtain rfl := Option.some.inj hdispatch
      by_cases hvoid : result = .void
      · simp [Instr.callKind?, resultType, hvoid]
      · simp [Instr.callKind?, resultType, hvoid]
    | special =>
      obtain rfl := Option.some.inj hdispatch
      simp [Instr.callKind?, resultType]
    | new | arrayLength => cases hdispatch

theorem Calls.movesTo {invocation : Invocation} {target : Operand} {method : Option String}
    {args : List Operand} {result : Ty} {hasValue : Bool}
    (h : Calls φ invocation target method args result lines hasValue)
    (hfits : Instr.callFits invocation target args result = true)
    (himports : ∀ path ∈ φ.cls.imports, IsName path)
    (hargs : ∀ op ∈ args, ∀ name ∈ operandNames op, IsName name) (x : List Kind) :
    MovesTo lax lines x (Instr.callKind? invocation result).toList := by
  cases h with
  | @newArray size n _ _ _ hsize =>
    have hscalar : size.isTypedScalar = true := by simpa [Instr.callFits] using hfits
    exact ⟨n, .newIntArray, [.int], rfl, ⟨rfl, rfl⟩, rfl, hsize.moves_scalar hscalar x⟩
  | @newObject name _ _ _ _ => exact ⟨[], .new _, [], rfl, ⟨rfl, rfl⟩, rfl, .nil x⟩
  | @arrayLength _ a _ _ _ htarget =>
    simp only [Instr.callFits, Bool.and_eq_true] at hfits
    have harray : Kind.of target.ty = .ref := by
      cases hty : target.ty with
      | array elem => rfl
      | int | bool | str | void | object | classRef | self => simp [hty, Ty.isArray] at hfits
    have hload : Moves lax a x (.of target.ty :: x) := htarget.moves hfits.1 x
    rw [harray] at hload
    exact ⟨a, .arrayLength, [.ref], rfl, ⟨rfl, rfl⟩, rfl, hload⟩
  | @named _ dispatch _ name _ _ receiver values ref hdispatch hreceiver hvalues href =>
    obtain ⟨htarget, htyped, hresult, hkind⟩ := callFits_named hdispatch hfits
    have hdemand := demand_invoke himports hargs htyped hresult href
    rw [hkind] at hdemand
    have hfront : Moves lax (receiver ++ values) x (((args.map fun op => Kind.of op.ty).reverse ++
        if dispatch = .static then [] else [.ref]) ++ x) := by
      rw [List.append_assoc]
      exact (hreceiver.moves htarget x).append (hvalues.moves htyped _)
    exact ⟨receiver ++ values, .invoke dispatch ref, _, rfl, ⟨rfl, rfl⟩, hdemand, hfront⟩

/-! ### Values -/

theorem field_kind {c : Flat.Class} {field : Operand} {ref : FieldRef}
    (h : (linkage c).field? field = some ref) (hvalue : field.ty.isValue = true) :
    descriptorKind? ref.descriptor.toList = some (.of field.ty) := by
  cases field with
  | var name ty =>
    obtain ⟨d, hd, rfl⟩ := Option.map_eq_some_iff.mp h
    cases hty : typeDescriptor c.imports ty with
    | error e => simp [hty, Except.toOption] at hd
    | ok text =>
      obtain rfl : text = d := by simpa [hty, Except.toOption] using hd
      exact descriptorKind?_type hvalue hty
  | lit | param | elem | self | classRef => simp [linkage] at h

theorem comparison_equality {op : BinOp} {cmp : Comparison} (hcmp : Comparison.of? op = some cmp)
    (h : op = .eq ∨ op = .ne) : cmp = .eq ∨ cmp = .ne := by
  rcases h with rfl | rfl
  · exact .inl (Option.some.inj hcmp).symm
  · exact .inr (Option.some.inj hcmp).symm

theorem arith_equality {op : BinOp} {a : Arith} (ha : Arith.of? op = some a) :
    ¬ (op = .eq ∨ op = .ne) := by
  rintro (rfl | rfl)
  · cases ha
  · cases ha

/-- An instruction that is emitted as a value leaves a value of its kind. -/
theorem Pushes.moves {i : Instr} {n n' : Nat} (h : Pushes φ i lines n n') {kind : Kind}
    (hkind : i.valueKind? = some kind) (hlax : i.comparesReferences = true → lax)
    (himports : ∀ path ∈ φ.cls.imports, IsName path) (hnames : ∀ name ∈ instrNames i, IsName name)
    (x : List Kind) : Moves lax lines x (kind :: x) := by
  cases h with
  | single _ hload =>
    obtain ⟨htyped, ⟨⟩⟩ := Option.ite_none_right_eq_some.mp hkind
    exact hload.moves htyped x
  | @arith op a lhs rhs l r _ hop hl hr =>
    obtain ⟨hfits, ⟨⟩⟩ := Option.ite_none_right_eq_some.mp hkind
    obtain ⟨kind, hboth, rfl | ⟨_, hequality, _⟩⟩ := binary_moves hl hr hfits x
    · exact hboth.snoc (.arith a) ⟨rfl, rfl⟩ rfl
    · exact absurd hequality (arith_equality hop)
  | @compare op cmp lhs rhs l r _ hop hl hr =>
    obtain ⟨hfits, ⟨⟩⟩ := Option.ite_none_right_eq_some.mp hkind
    obtain ⟨kind, hboth, hcases⟩ := binary_moves hl hr hfits x
    refine hboth.compare ?_ _
    rcases hcases with rfl | ⟨rfl, hequality, hrefs⟩
    · exact .inl rfl
    · exact .inr ⟨hlax hrefs, rfl, comparison_equality hop hequality⟩
  | @not op l _ hload =>
    obtain ⟨hscalar, ⟨⟩⟩ := Option.ite_none_right_eq_some.mp hkind
    have hconst : Moves lax (l ++ [.op (.const 1)]) x (.int :: .int :: x) :=
      (hload.moves_scalar hscalar x).snoc (.const 1) ⟨rfl, rfl⟩ rfl
    have hlast := hconst.snoc (.arith .xor) ⟨rfl, rfl⟩ rfl
    rw [List.append_assoc] at hlast
    exact hlast
  | @getField object field l ref _ hload href =>
    obtain ⟨hfits, ⟨⟩⟩ := Option.ite_none_right_eq_some.mp hkind
    obtain ⟨hobject, hvalue⟩ := Bool.and_eq_true_iff.mp hfits
    have hdemand : (Op.getField ref).demand? = some (.exact [.ref] [.of field.ty]) := by
      rw [Op.demand?, field_kind href hvalue]
      rfl
    exact (hload.moves_ref hobject x).snoc (.getField ref) ⟨rfl, rfl⟩ hdemand
  | @call invocation target method args result _ _ hcalls =>
    obtain ⟨hfits, hkind⟩ := Option.ite_none_right_eq_some.mp hkind
    have hto : MovesTo lax lines x (Instr.callKind? invocation result).toList :=
      hcalls.movesTo hfits himports (argNames_of_call hnames) x
    rw [hkind] at hto
    exact hto.moves

theorem Pushes.exists_kind {i : Instr} {n n' : Nat} (h : Pushes φ i lines n n')
    (htyped : i.isTyped = true) : ∃ kind, i.valueKind? = some kind := by
  cases h with
  | single | arith | compare | not | getField => exact Option.isSome_iff_exists.mp htyped
  | @call invocation target method args result _ _ hcalls =>
    have hfits : Instr.callFits invocation target args result = true := htyped
    rw [Instr.valueKind?, if_pos hfits]
    exact Option.isSome_iff_exists.mp hcalls.hasValue_eq.symm

/-! ### Instructions -/

theorem Moves.closes {takes : List Kind} {o : Op} (h : Moves lax lines [] takes)
    (hlast : Respects lax o takes []) :
    ∃ xs, Closes (Respects lax) [] (lines ++ [.op o]) xs (Line.op o).target? := by
  obtain ⟨xs, hxs⟩ := h
  exact ⟨_, lines, o, xs, takes, rfl, rfl, hxs, hlast, rfl⟩

theorem respects_last {o : Op} {takes : List Kind} (h : o.demand? = some (.exact takes [])) :
    Respects lax o takes [] := by
  have hlast : Respects lax o (takes ++ []) [] := respects_exact h []
  rwa [List.append_nil] at hlast

/-- The lines of an instruction that uses its operands at their types lead from the empty stack to the
empty stack. -/
theorem Emits.closes {i : Instr} {n n' : Nat} (h : Emits φ i lines n n') (htyped : i.isTyped = true)
    (hlax : i.comparesReferences = true → lax) (himports : ∀ path ∈ φ.cls.imports, IsName path)
    (hnames : ∀ name ∈ instrNames i, IsName name) :
    ∃ xs, Closes (Respects lax) [] lines xs (Lowering.target? i) := by
  cases h with
  | @assignElem array index rhs a i v _ _ ty ty' ha hi hv =>
    simp only [Instr.isTyped, Bool.and_eq_true, beq_iff_eq] at htyped
    obtain ⟨hdest, hkind⟩ := htyped
    have hrhs : ∀ name ∈ instrNames rhs, IsName name :=
      fun name hname => hnames name (List.mem_append_right _ hname)
    simp only [Operand.isTyped, Bool.and_eq_true, beq_iff_eq] at hdest
    obtain ⟨⟨⟨⟨harray, hindex⟩, _⟩, harrayTy⟩, hindexTy⟩ := hdest
    have ha : Moves lax a [] [.of array.ty] := ha.moves harray []
    rw [harrayTy] at ha
    have hi : Moves lax i [.ref] [.of index.ty, .ref] := hi.moves hindex [.ref]
    rw [hindexTy] at hi
    have hv := hv.moves hkind hlax himports hrhs [.int, .ref]
    exact ((ha.append hi).append hv).closes (respects_last rfl)
  | @assignCell dest cell slot rhs v _ _ ty hcell _ hv =>
    simp only [Instr.isTyped, Bool.and_eq_true, beq_iff_eq] at htyped
    have hrhs : ∀ name ∈ instrNames rhs, IsName name :=
      fun name hname => hnames name (List.mem_append_right _ hname)
    exact (hv.moves htyped.2 hlax himports hrhs []).closes (respects_last rfl)
  | retNone => exact (Moves.nil []).closes (respects_last rfl)
  | ret _ hload => exact (hload.moves htyped []).closes (respects_last rfl)
  | goto label => exact (Moves.nil []).closes (o := .goto label) (respects_last rfl)
  | @branchCompare op cmp lhs rhs l r label _ hop hl hr =>
    simp only [Instr.isTyped, beq_iff_eq] at htyped
    obtain ⟨hfits, _⟩ := Option.ite_none_right_eq_some.mp htyped
    obtain ⟨kind, hboth, hcases⟩ := binary_moves hl hr hfits []
    refine hboth.closes (respects_compare ?_ label [])
    rcases hcases with rfl | ⟨rfl, hequality, hrefs⟩
    · exact .inl rfl
    · exact .inr ⟨hlax hrefs, rfl, comparison_equality hop hequality⟩
  | branchNot label _ hload =>
    simp only [Instr.isTyped, beq_iff_eq] at htyped
    obtain ⟨hscalar, _⟩ := Option.ite_none_right_eq_some.mp htyped
    exact (hload.moves_scalar hscalar []).closes (o := .ifZero label) (respects_last rfl)
  | @branchValue cond _ _ _ label hv =>
    simp only [Instr.isTyped, beq_iff_eq] at htyped
    have hcond : ∀ name ∈ instrNames cond, IsName name :=
      fun name hname => hnames name (List.mem_append_left _ hname)
    exact (hv.moves htyped hlax himports hcond []).closes (o := .ifNonzero label) (respects_last rfl)
  | @putField object field value o v ref _ hobject hvalue href =>
    simp only [Instr.isTyped, Bool.and_eq_true, beq_iff_eq] at htyped
    obtain ⟨⟨⟨hobjectTyped, hvalueTyped⟩, hfield⟩, hkind⟩ := htyped
    have hv : Moves lax v [.ref] [.of value.ty, .ref] := hvalue.moves hvalueTyped [.ref]
    rw [hkind] at hv
    refine ((hobject.moves_ref hobjectTyped []).append hv).closes (o := .putField ref) ?_
    apply respects_last
    rw [Op.demand?, field_kind href hfield]
    rfl
  | nop => exact (Moves.nil []).closes (o := .nop) (respects_last rfl)
  | @callVoid invocation target method args result _ _ hcalls =>
    have hkind : Instr.callKind? invocation result = none := by
      simpa using hcalls.hasValue_eq.symm
    have hto : MovesTo lax lines [] (Instr.callKind? invocation result).toList :=
      hcalls.movesTo htyped himports (argNames_of_call hnames) []
    rw [hkind] at hto
    obtain ⟨front, o, takes, rfl, hpasses, hdemand, hfront⟩ := hto
    rw [List.append_nil] at hfront
    have hcloses := hfront.closes (respects_last hdemand)
    rw [hpasses.2] at hcloses
    exact hcloses
  | discard hv =>
    obtain ⟨kind, hkind⟩ := hv.exists_kind htyped
    have hcloses := (hv.moves hkind hlax himports hnames []).closes (o := .pop)
      ⟨_, rfl, rfl, .inl rfl⟩
    cases hv with
    | single | arith | compare | not | getField | call => exact hcloses

end Lines

/-! ### Methods -/

/-- With a consistent chart, every path finds on the stack what the chart says. -/
theorem Tracked.charted {lax : Prop} {body : List Line} {xs : List (List Kind)}
    (hconsistent : ∀ i, i < body.length → Consistent (Respects lax) body xs i)
    (hfirst : ∀ x, xs[0]? = some x → x = []) {i : Nat} {stack x : List Kind}
    (h : Tracked body i stack) (hx : xs[i]? = some x) : x = stack := by
  induction h generalizing x with
  | start => exact hfirst x hx
  | @step i j stack line d h hline hdemand hleads ih =>
    obtain ⟨line', x', y, hline', hx', hturns, hedge⟩ :=
      hconsistent i (List.getElem?_eq_some_iff.mp hline).1
    obtain rfl : line = line' := Option.some.inj (hline.symm.trans hline')
    obtain rfl := ih hx'
    rw [hedge j x hleads hx]
    cases line with
    | label name =>
      obtain rfl := Option.some.inj hdemand
      exact hturns
    | op o =>
      obtain ⟨d', hdemand', rfl, _⟩ := hturns
      rw [Option.some.inj (hdemand.symm.trans hdemand')]

theorem exists_kindChart {header : Header} {code : Code} {m : Flat.Method}
    (hm : Flat.Method.assemble header code = .ok m) (hlabels : (labelsOf code).Nodup)
    (hlead : ∀ l ∈ labelsOf code, ¬ "cmp_".toList <+: l.toList) {cls : Flat.Class}
    (hnames : Named cls m) (htyped : ∀ s ∈ m.steps, s.instr.isTyped = true) {table : SlotTable}
    {blocks : List (List Line)} {σ : EmitState}
    (hemits : EmitsAll ⟨cls, m, table⟩ m.steps blocks {} σ) :
    ∃ xs, Charted (Respects (∃ s ∈ m.steps, s.instr.comparesReferences = true)) [] m blocks xs := by
  have hcloses : ∀ (k : Nat) (s : Flat.Step) (block : List Line), m.steps[k]? = some s →
      blocks[k]? = some block → ∃ vs,
        Closes (Respects (∃ s ∈ m.steps, s.instr.comparesReferences = true)) [] block vs
          (Lowering.target? s.instr) := by
    intro k s block hs hblock
    have hmem := List.mem_of_getElem? hs
    obtain ⟨block', σ₁, σ₂, hblock', hinstr⟩ := hemits.has_block hs
    obtain rfl : block = block' := Option.some.inj (hblock.symm.trans hblock')
    exact (instruction_emits hinstr).closes (htyped s hmem) (fun hrefs => ⟨s, hmem, hrefs⟩)
      hnames.imports (hnames.steps s hmem)
  obtain ⟨xs, harranged⟩ := exists_arranged hemits.length_eq hcloses
  obtain ⟨ds, htraced⟩ := exists_traced hm hlabels hlead hnames hemits
  exact ⟨xs, harranged, htraced.lengths, htraced.nodup, htraced.targets, respects_last rfl⟩

/-- Opcodes find values of the kinds that they ask for. Let a method use its operands at their types,
and follow the kinds of the values on the stack along any path of its emitted body. Then every line has
a demand, and the values that it finds meet it, unless the line is an integer test for equality that
finds two references. Only a method that tests whether two references are the same has such lines. -/
theorem emit_operand_kinds (cls : Flat.Class) (m : Flat.Method) (table : SlotTable) (header : Header)
    (code : Code) (out : Method) (hm : Flat.Method.assemble header code = .ok m)
    (hlabels : (labelsOf code).Nodup) (hlead : ∀ l ∈ labelsOf code, ¬ "cmp_".toList <+: l.toList)
    (hnames : Named cls m) (hout : Method.emit cls m table = .ok out)
    (htyped : ∀ s ∈ m.steps, s.instr.isTyped = true) (i : Nat) (stack : List Kind) (line : Line)
    (hpath : Tracked out.body i stack) (hline : out.body[i]? = some line) :
    ∃ d, line.demand? = some d ∧
      (d.metBy stack = true ∨
        (∃ s ∈ m.steps, s.instr.comparesReferences = true) ∧ line.TestsReferences stack) := by
  obtain ⟨blocks, σ, hemits, hbody⟩ := emit_body hout
  obtain ⟨xs, hcharted⟩ := exists_kindChart hm hlabels hlead hnames htyped hemits
  rw [hbody] at hpath hline
  have hi := (List.getElem?_eq_some_iff.mp hline).1
  obtain ⟨line', x, y, hline', hx, hturns, _⟩ := hcharted.consistent hi
  obtain rfl : line = line' := Option.some.inj (hline.symm.trans hline')
  obtain rfl := hpath.charted (fun _ => hcharted.consistent) (fun _ => hcharted.base_first) hx
  cases line with
  | label name => exact ⟨_, rfl, .inl rfl⟩
  | op o =>
    obtain ⟨d, hdemand, _, hmeets⟩ := hturns
    exact ⟨d, hdemand, hmeets⟩

theorem Tracked.next {body : List Line} {i : Nat} {stack stack' : List Kind} {line : Line}
    {d : Demand} (h : Tracked body i stack) (hline : body[i]? = some line)
    (hdemand : line.demand? = some d) (hfalls : line.falls = true) (hafter : d.after stack = stack') :
    Tracked body (i + 1) stack' := by
  rw [← hafter]
  exact .step h hline hdemand (leads_next hline hfalls)

/-- The method `pick` calls a method of an object with a number, and stores a number into an array. -/
theorem emit_operand_kinds_pick :
    (Tracked pickOut.body 6 [.int, .ref] ∧
      ∃ d, (Line.op (.invoke .virtual ⟨"java/util/Random", "nextInt", "(I)I"⟩)).demand? = some d ∧
        d.metBy [.int, .ref] = true) ∧
    Tracked pickOut.body 11 [.int, .int, .ref] ∧
      ∃ d, (Line.op (.arrayStore .int)).demand? = some d ∧ d.metBy [.int, .int, .ref] = true := by
  have hnew : Tracked pickOut.body 3 [.ref] :=
    ((Tracked.start.next rfl rfl rfl rfl).next rfl rfl rfl rfl).next rfl rfl rfl rfl
  have hinit : Tracked pickOut.body 4 [] :=
    hnew.next (d := .exact [.ref] []) rfl (by decide +kernel) rfl rfl
  have hcall : Tracked pickOut.body 6 [.int, .ref] :=
    (hinit.next rfl rfl rfl rfl).next rfl rfl rfl rfl
  have hresult : Tracked pickOut.body 7 [.int] :=
    hcall.next (d := .exact [.int, .ref] [.int]) rfl (by decide +kernel) rfl rfl
  have hstore : Tracked pickOut.body 11 [.int, .int, .ref] :=
    (((hresult.next rfl rfl rfl rfl).next rfl rfl rfl rfl).next rfl rfl rfl rfl).next rfl rfl rfl rfl
  have hkinds := emit_operand_kinds pickClass pickMethod pickTable pickMethod.toHeader pickCode pickOut
    assemble_pick (by decide) (by decide) named_pick emit_pick (by decide)
  have hrefs : ¬ ∃ s ∈ pickMethod.steps, s.instr.comparesReferences = true := by decide
  obtain ⟨d, hdemand, hmet⟩ := hkinds 6 _ _ hcall rfl
  obtain ⟨d', hdemand', hmet'⟩ := hkinds 11 _ _ hstore rfl
  exact ⟨⟨hcall, d, hdemand, hmet.resolve_right fun h => hrefs h.1⟩, hstore, d', hdemand',
    hmet'.resolve_right fun h => hrefs h.1⟩

/-- `return a == b;` of two objects. -/
def sameCode : Code :=
  [.instr (.assignTo (.var "t1" .bool)
      (.binary .eq (.param 1 "a" (.object "Node")) (.param 2 "b" (.object "Node")))),
    .instr (.ret (some (.var "t1" .bool)))]

def sameMethod : Flat.Method where
  name := "same"
  params := [{ name := "a", ty := .object "Node" }, { name := "b", ty := .object "Node" }]
  returnType := .bool
  steps := [
    { id := 1, succs := [2]
      instr := .assignTo (.var "t1" .bool)
        (.binary .eq (.param 1 "a" (.object "Node")) (.param 2 "b" (.object "Node"))) },
    { id := 2, instr := .ret (some (.var "t1" .bool)) }]

def sameClass : Flat.Class where
  name := "Node"
  methods := [sameMethod]

def sameTable : SlotTable :=
  ⟨[("a", ⟨1, .object "Node"⟩), ("b", ⟨2, .object "Node"⟩), ("t1", ⟨3, .bool⟩),
    ("this", ⟨0, .self ""⟩)]⟩

def sameOut : Method where
  access := .pack
  isStatic := false
  name := "same"
  descriptor := "(LNode;LNode;)Z"
  stackLimit := 2
  localsLimit := 4
  body := [.op (.load .ref 1), .op (.load .ref 2), .op (.ifCompare .eq "cmp_true_0"), .op (.const 0),
    .op (.goto "cmp_end_1"), .label "cmp_true_0", .op (.const 1), .label "cmp_end_1",
    .op (.store .int 3), .op (.load .int 3), .op (.retValue .int)]

/-- Not every opcode finds the kinds that it asks for: references are compared as integers. -/
theorem not_forall_demands_met :
    ¬ ∀ (cls : Flat.Class) (m : Flat.Method) (table : SlotTable) (header : Header) (code : Code)
      (out : Method), Flat.Method.assemble header code = .ok m → (labelsOf code).Nodup →
      (∀ l ∈ labelsOf code, ¬ "cmp_".toList <+: l.toList) → Named cls m →
      Method.emit cls m table = .ok out → (∀ s ∈ m.steps, s.instr.isTyped = true) →
      ∀ (i : Nat) (stack : List Kind) (line : Line), Tracked out.body i stack →
        out.body[i]? = some line → ∃ d, line.demand? = some d ∧ d.metBy stack = true := by
  intro h
  have hfirst : Tracked sameOut.body 1 [.ref] := Tracked.start.next rfl rfl rfl rfl
  have hpath : Tracked sameOut.body 2 [.ref, .ref] := hfirst.next rfl rfl rfl rfl
  obtain ⟨d, hdemand, hmet⟩ := h sameClass sameMethod sameTable sameMethod.toHeader sameCode sameOut
    (by decide) (by decide) (by decide) ⟨by decide, by decide, by decide, by decide, by decide⟩
    (by decide +kernel) (by decide) 2 _ _ hpath rfl
  obtain rfl := Option.some.inj hdemand
  exact absurd hmet (by decide)

end JavaMinus.Assembly
