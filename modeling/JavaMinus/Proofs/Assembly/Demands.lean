import JavaMinus.Proofs.Assembly.StackEffect

/-!
# Demands of opcodes

The machine tells integers from references. Every opcode asks for values of certain kinds on top of the
stack and leaves values of certain kinds in their place; fields and methods show these kinds in their
descriptors. From there the kinds on the stack can be tracked along every path of a body.
-/

namespace JavaMinus.Flat

/-- Numbers and truth values. -/
def Ty.isScalar : Ty → Bool
  | .int | .bool => true
  | _ => false

/-- Values have this type. Nothing is of type `void`, and a class is no value. -/
def Ty.isValue (ty : Ty) : Bool :=
  ty.isScalar || ty.isReference

end JavaMinus.Flat

namespace JavaMinus.Assembly

open JavaMinus.Flat (Ty)

/-! ### Kinds in descriptors -/

/-- The kind of values of the type that is spelled so. -/
def descriptorKind? : List Char → Option Kind
  | ['I'] | ['Z'] => some .int
  | 'L' :: _ | '[' :: _ => some .ref
  | _ => none

/-- The kinds of the parameters of a method and the kind of its result, if it has one. -/
def methodKinds? (descriptor : String) : Option (List Kind × Option Kind) := do
  let (params, result) ← splitMethod? descriptor
  let kinds ← params.mapM descriptorKind?
  if result = ['V'] then return (kinds, none)
  else return (kinds, some (← descriptorKind? result))

section Descriptors

variable {imports : List String} {ty : Ty} {d : String}

theorem Kind.of_scalar (h : ty.isScalar = true) : Kind.of ty = .int := by
  cases ty with
  | int | bool => rfl
  | str | void | array | object | classRef | self => simp [Ty.isScalar] at h

theorem Kind.of_reference (h : ty.isReference = true) : Kind.of ty = .ref :=
  if_pos h

theorem descriptorKind?_type (hvalue : ty.isValue = true) (h : typeDescriptor imports ty = .ok d) :
    descriptorKind? d.toList = some (.of ty) := by
  have hclass {cls : String} (hcls : classDescriptor imports cls = .ok d) :
      descriptorKind? d.toList = some .ref := by
    obtain rfl := classDescriptor_eq hcls
    simp [descriptorKind?]
  cases ty with
  | int | bool | str =>
    cases h
    rfl
  | array elem =>
    obtain ⟨_, e, _, rfl⟩ := typeDescriptor_array h
    simp [descriptorKind?, Kind.of, Ty.isReference]
  | object cls | self cls => exact hclass h
  | void | classRef => simp [Ty.isValue, Ty.isScalar, Ty.isReference] at hvalue

theorem mapM_descriptorKind? {tys : List Ty} {texts : List String}
    (hvalues : ∀ ty ∈ tys, ty.isValue = true)
    (h : List.Forall₂ (fun ty d => typeDescriptor imports ty = .ok d) tys texts) :
    (texts.map String.toList).mapM descriptorKind? = some (tys.map Kind.of) := by
  induction h with
  | nil => rfl
  | cons hd _ ih =>
    rw [List.forall_mem_cons] at hvalues
    rw [List.map_cons, List.mapM_cons, descriptorKind?_type hvalues.1 hd, ih hvalues.2]
    rfl

/-- The descriptor of a method shows the kinds of its parameters and of its result. -/
theorem methodKinds?_descriptor (himports : ∀ path ∈ imports, IsName path) {tys : List Ty}
    {result : Ty} (hnames : ∀ ty ∈ tys, ∀ name ∈ tyNames ty, IsName name)
    (hvalues : ∀ ty ∈ tys, ty.isValue = true) (hresult : result = .void ∨ result.isValue = true)
    (h : methodDescriptor imports tys result = .ok d) :
    methodKinds? d =
      some (tys.map Kind.of, if result = .void then none else some (.of result)) := by
  obtain ⟨texts, r, htexts, hr, hsplit⟩ :=
    splitMethod?_descriptor (fun ty hty => endsOnce_of_isName himports (hnames ty hty)) h
  have hvoid : r.toList = ['V'] ↔ result = .void := by
    have := typeDescriptor_void hr
    rw [← decide_eq_true_eq (p := result = .void), ← this, beq_iff_eq]
  simp only [methodKinds?, hsplit, mapM_descriptorKind? hvalues htexts, Option.bind_eq_bind,
    Option.bind_some, hvoid]
  split
  · rfl
  · next hne =>
    rw [descriptorKind?_type (hresult.resolve_left hne) hr]
    rfl

end Descriptors

/-! ### Demands -/

/-- What an opcode takes off the stack, the top first, and what it puts there. Where no kind is given,
a value of either kind will do. -/
structure Demand where
  takes : List (Option Kind)
  puts : List Kind
deriving DecidableEq

namespace Demand

/-- A demand that tells all kinds. -/
def exact (takes puts : List Kind) : Demand :=
  ⟨takes.map some, puts⟩

def meets : List (Option Kind) → List Kind → Bool
  | [], _ => true
  | want :: wants, kind :: rest => want.all (· == kind) && meets wants rest
  | _ :: _, [] => false

/-- The values on top of the stack are of the kinds that the opcode asks for. -/
def metBy (d : Demand) (stack : List Kind) : Bool :=
  meets d.takes stack

/-- The stack behind the opcode, whether its demand was met or not. -/
def after (d : Demand) (stack : List Kind) : List Kind :=
  d.puts ++ stack.drop d.takes.length

theorem metBy_exact (takes puts rest : List Kind) :
    (exact takes puts).metBy (takes ++ rest) = true := by
  unfold exact metBy
  induction takes with
  | nil => rfl
  | cons kind takes ih =>
    rw [List.map_cons, List.cons_append, meets, ih, Option.all_some, beq_self_eq_true, Bool.true_and]

theorem after_exact (takes puts rest : List Kind) :
    (exact takes puts).after (takes ++ rest) = puts ++ rest := by
  simp [exact, after]

end Demand

def Op.demand? : Op → Option Demand
  | .const _ => some (.exact [] [.int])
  | .load kind _ => some (.exact [] [kind])
  | .store kind _ => some (.exact [kind] [])
  | .arrayLoad kind => some (.exact [.int, .ref] [kind])
  | .arrayStore kind => some (.exact [kind, .int, .ref] [])
  | .arith _ => some (.exact [.int, .int] [.int])
  | .pop => some ⟨[none], []⟩
  | .nop | .goto _ | .ret => some (.exact [] [])
  | .ifZero _ | .ifNonzero _ => some (.exact [.int] [])
  | .ifCompare .. => some (.exact [.int, .int] [])
  | .retValue kind => some (.exact [kind] [])
  | .getField field =>
    (descriptorKind? field.descriptor.toList).map fun kind => .exact [.ref] [kind]
  | .putField field =>
    (descriptorKind? field.descriptor.toList).map fun kind => .exact [kind, .ref] []
  | .invoke dispatch method =>
    (methodKinds? method.descriptor).map fun (params, result) =>
      .exact (params.reverse ++ if dispatch = .static then [] else [.ref]) result.toList
  | .new _ => some (.exact [] [.ref])
  | .newIntArray => some (.exact [.int] [.ref])
  | .arrayLength => some (.exact [.ref] [.int])

def Line.demand? : Line → Option Demand
  | .label _ => some (.exact [] [])
  | .op o => o.demand?

/-! ### Paths -/

/-- Some path from the first line, which starts on the empty stack, comes to line `i` with values of
these kinds on the stack, the top first. -/
inductive Tracked (body : List Line) : Nat → List Kind → Prop
  | start : Tracked body 0 []
  | step {i j : Nat} {stack : List Kind} {line : Line} {d : Demand} (h : Tracked body i stack)
      (hline : body[i]? = some line) (hdemand : line.demand? = some d) (hleads : Leads body i j) :
      Tracked body j (d.after stack)

end JavaMinus.Assembly
