import JavaMinus.Proofs.Flat.Run
import JavaMinus.Proofs.Slots.Storage

/-!
# The stack machine

What assembly lines do. An opcode works on a stack of operands and on numbered slots, and has the same
events as the instructions of flat code. Loads and stores move values of either kind. A call takes as
many arguments off the stack as the descriptor of its method lists.
-/

namespace JavaMinus.Assembly

open JavaMinus.Behaviour
open JavaMinus.Flat (Flow Point)

/-! ### Descriptors -/

def addParam (text : List Char) (p : List (List Char) × List Char) : List (List Char) × List Char :=
  (text :: p.1, p.2)

/-- The descriptors of the parameters up to the closing parenthesis, and the text behind it. What has
been read of the first one is given, and the flag tells whether that ends inside the name of a class. -/
def splitParams : Bool → List Char → List Char → Option (List (List Char) × List Char)
  | _, _, [] => none
  | true, begun, c :: rest =>
    if c = ';' then (splitParams false [] rest).map (addParam (begun ++ [c]))
    else splitParams true (begun ++ [c]) rest
  | false, begun, c :: rest =>
    if c = '[' then splitParams false (begun ++ [c]) rest
    else if c = 'L' then splitParams true (begun ++ [c]) rest
    else if c ∈ ['I', 'Z', 'V'] then (splitParams false [] rest).map (addParam (begun ++ [c]))
    else if c = ')' ∧ begun = [] then some ([], rest)
    else none

/-- The descriptors of the parameters of a method and the one of its result. -/
def splitMethod? (descriptor : String) : Option (List (List Char) × List Char) :=
  match descriptor.toList with
  | '(' :: rest => splitParams false [] rest
  | _ => none

structure Signature where
  arity : Nat
  isVoid : Bool
deriving DecidableEq

/-- Every type takes one cell. -/
def Signature.of? (descriptor : String) : Option Signature :=
  (splitMethod? descriptor).map fun (params, result) => ⟨params.length, result == ['V']⟩

/-! ### Opcodes -/

/-- What an opcode works on: the operands, with the top of the stack first, and the slots. -/
structure Work where
  stack : List Value
  slots : Slots

/-- Arithmetic wraps around, and a division by zero has no value. -/
def Arith.compute? : Arith → Int32 → Int32 → Option Int32
  | .add, a, b => some (a + b)
  | .sub, a, b => some (a - b)
  | .mul, a, b => some (a * b)
  | .div, a, b => if b = 0 then none else some (a / b)
  | .and, a, b => some (a &&& b)
  | .or, a, b => some (a ||| b)
  | .xor, a, b => some (a ^^^ b)

def Comparison.holds : Comparison → Int32 → Int32 → Bool
  | .lt, a, b => a < b
  | .gt, a, b => b < a
  | .le, a, b => a ≤ b
  | .ge, a, b => b ≤ a
  | .eq, a, b => a = b
  | .ne, a, b => a ≠ b

def popArgs? (n : Nat) (stack : List Value) : Option (List Value × List Value) :=
  if n ≤ stack.length then some ((stack.take n).reverse, stack.drop n) else none

def popReceiver? : Dispatch → List Value → Option (Option Value × List Value)
  | .static, stack => some (none, stack)
  | _, v :: rest => some (some v, rest)
  | _, [] => none

def Op.exec (ω : Oracle) (s : Work) : Op → Act (Flow × Work)
  | .const n => pure (.next, { s with stack := .int n :: s.stack })
  | .load _ slot => pure (.next, { s with stack := s.slots slot :: s.stack })
  | .store _ slot =>
    match s.stack with
    | v :: rest => pure (.next, { stack := rest, slots := s.slots.set slot v })
    | _ => failure
  | .arrayLoad _ =>
    match s.stack with
    | i :: a :: rest => do
      let v ← perform ω (.getElement a i)
      return (.next, { s with stack := v :: rest })
    | _ => failure
  | .arrayStore _ =>
    match s.stack with
    | v :: i :: a :: rest => do
      let _ ← perform ω (.putElement a i v)
      return (.next, { s with stack := rest })
    | _ => failure
  | .arith op =>
    match s.stack with
    | .int b :: .int a :: rest => do
      let n ← expect (op.compute? a b)
      return (.next, { s with stack := .int n :: rest })
    | _ => failure
  | .pop =>
    match s.stack with
    | _ :: rest => pure (.next, { s with stack := rest })
    | _ => failure
  | .nop => pure (.next, s)
  | .goto label => pure (.jump label, s)
  | .ifZero label =>
    match s.stack with
    | .int n :: rest => pure (if n = 0 then .jump label else .next, { s with stack := rest })
    | _ => failure
  | .ifNonzero label =>
    match s.stack with
    | .int n :: rest => pure (if n = 0 then .next else .jump label, { s with stack := rest })
    | _ => failure
  | .ifCompare cmp label =>
    match s.stack with
    | .int b :: .int a :: rest =>
      pure (if cmp.holds a b then .jump label else .next, { s with stack := rest })
    | _ => failure
  | .ret => pure (.ret none, s)
  | .retValue _ =>
    match s.stack with
    | v :: rest => pure (.ret (some v), { s with stack := rest })
    | _ => failure
  | .getField field =>
    match s.stack with
    | o :: rest => do
      let v ← perform ω (.getField field o)
      return (.next, { s with stack := v :: rest })
    | _ => failure
  | .putField field =>
    match s.stack with
    | v :: o :: rest => do
      let _ ← perform ω (.putField field o v)
      return (.next, { s with stack := rest })
    | _ => failure
  | .invoke dispatch method => do
    let signature ← expect (Signature.of? method.descriptor)
    let (args, rest) ← expect (popArgs? signature.arity s.stack)
    let (receiver, rest) ← expect (popReceiver? dispatch rest)
    let v ← perform ω (.call dispatch method receiver args)
    return (.next, { s with stack := if signature.isVoid then rest else v :: rest })
  | .new cls => do
    let v ← perform ω (.newObject cls)
    return (.next, { s with stack := v :: s.stack })
  | .newIntArray =>
    match s.stack with
    | n :: rest => do
      let v ← perform ω (.newArray n)
      return (.next, { s with stack := v :: rest })
    | _ => failure
  | .arrayLength =>
    match s.stack with
    | a :: rest => do
      let v ← perform ω (.arrayLength a)
      return (.next, { s with stack := v :: rest })
    | _ => failure

/-! ### Lines -/

def place? (body : List Line) (label : String) : Option Nat :=
  body.findIdx? fun line => line == .label label

/-- One step. There is none from a return, from the end, or from an opcode that fails. -/
def stepLine? (ω : Oracle) (body : List Line) (p : Point Work) : Option (Point Work) :=
  match body[p.pc]? with
  | some (.label _) => some { p with pc := p.pc + 1 }
  | some (.op o) =>
    match o.exec ω p.store p.world with
    | some ((.next, store), world) => some { pc := p.pc + 1, store, world }
    | some ((.jump label, store), world) => (place? body label).map fun pc => { pc, store, world }
    | _ => none
  | none => none

/-- The machine comes to a return that gives back this value and leaves this world. -/
def Returns (ω : Oracle) (body : List Line) (p : Point Work) (value : Option Value) (w : World) :
    Prop :=
  ∃ q o s, Reaches (stepLine? ω body) p q ∧ body[q.pc]? = some (.op o) ∧
    o.exec ω q.store q.world = some ((.ret value, s), w)

/-- The machine comes to an opcode that fails. -/
def Crashes (ω : Oracle) (body : List Line) (p : Point Work) : Prop :=
  ∃ q o, Reaches (stepLine? ω body) p q ∧ body[q.pc]? = some (.op o) ∧
    o.exec ω q.store q.world = none

/-! ### Runs of lines -/

section Steps

variable {ω : Oracle} {body : List Line} {pc : Nat} {s s' : Work} {w w' : World}

theorem reaches_line {o : Op} (hget : body[pc]? = some (.op o))
    (hexec : o.exec ω s w = some ((.next, s'), w')) :
    Reaches (stepLine? ω body) ⟨pc, s, w⟩ ⟨pc + 1, s', w'⟩ := by
  apply reaches_of_step
  simp only [stepLine?, hget, hexec]

theorem reaches_place {o : Op} {label : String} {target : Nat} (hget : body[pc]? = some (.op o))
    (hexec : o.exec ω s w = some ((.jump label, s'), w')) (htarget : place? body label = some target) :
    Reaches (stepLine? ω body) ⟨pc, s, w⟩ ⟨target, s', w'⟩ := by
  apply reaches_of_step
  simp only [stepLine?, hget, hexec, htarget, Option.map_some]

theorem reaches_past_label {label : String} (hget : body[pc]? = some (.label label)) :
    Reaches (stepLine? ω body) ⟨pc, s, w⟩ ⟨pc + 1, s, w⟩ := by
  apply reaches_of_step
  simp only [stepLine?, hget]

end Steps

/-- What becomes of a run from `p` when its last opcode had this effect and `next` is the position
behind it. -/
def Follows (ω : Oracle) (body : List Line) (p : Point Work) (next : Nat) :
    Option ((Flow × Work) × World) → Prop
  | some ((.next, s), w) => Reaches (stepLine? ω body) p ⟨next, s, w⟩
  | some ((.jump label, s), w) =>
    ∀ target, place? body label = some target → Reaches (stepLine? ω body) p ⟨target, s, w⟩
  | some ((.ret value, _), w) => Returns ω body p value w
  | none => Crashes ω body p

/-- Wherever these lines stand in the body, started on `s` they do what `x` does. Then control flows
and the operands and slots are as `f` says. -/
def Runs {α : Type} (ω : Oracle) (body lines : List Line) (s : Work) (w : World) (x : Act α)
    (f : α → Flow × Work) : Prop :=
  ∀ pc, Placed body pc lines →
    Follows ω body ⟨pc, s, w⟩ (pc + lines.length) ((x w).map fun p => (f p.1, p.2))

section Runs

variable {ω : Oracle} {body a b : List Line} {p q : Point Work} {s : Work} {w : World} {next : Nat}
  {r : Option ((Flow × Work) × World)} {α β : Type} {x : Act α}

theorem Follows.trans (hpq : Reaches (stepLine? ω body) p q) (h : Follows ω body q next r) :
    Follows ω body p next r := by
  cases r with
  | none =>
    obtain ⟨q', o, hreach, hget, hexec⟩ := h
    exact ⟨q', o, hpq.trans hreach, hget, hexec⟩
  | some r =>
    obtain ⟨⟨flow, s'⟩, w'⟩ := r
    cases flow with
    | next => exact Relation.ReflTransGen.trans hpq h
    | jump label => exact fun target htarget => Relation.ReflTransGen.trans hpq (h target htarget)
    | ret value =>
      obtain ⟨q', o, s'', hreach, hget, hexec⟩ := h
      exact ⟨q', o, s'', hpq.trans hreach, hget, hexec⟩

theorem runs_op {o : Op} {f : α → Flow × Work}
    (h : o.exec ω s w = (x w).map fun p => (f p.1, p.2)) : Runs ω body [.op o] s w x f := by
  intro pc hplaced
  have hget := hplaced.get
  rw [← h]
  cases hexec : o.exec ω s w with
  | none => exact ⟨⟨pc, s, w⟩, o, .refl, hget, hexec⟩
  | some r =>
    obtain ⟨⟨flow, s'⟩, w'⟩ := r
    cases flow with
    | next => exact reaches_line hget hexec
    | jump label => exact fun target htarget => reaches_place hget hexec htarget
    | ret value => exact ⟨⟨pc, s, w⟩, o, s', .refl, hget, hexec⟩

theorem Runs.bind {f : α → Work} {g : α → Act β} {f' : β → Flow × Work}
    (ha : Runs ω body a s w x fun v => (.next, f v))
    (hb : ∀ v w', x w = some (v, w') → Runs ω body b (f v) w' (g v) f') :
    Runs ω body (a ++ b) s w (x >>= g) f' := by
  intro pc hplaced
  have hfirst := ha pc hplaced.left
  rw [show (x >>= g) w = (x w).bind fun p => g p.1 p.2 from rfl]
  cases hx : x w with
  | none =>
    rw [hx] at hfirst
    exact hfirst
  | some r =>
    obtain ⟨v, w'⟩ := r
    rw [hx] at hfirst
    have hsecond := hb v w' hx (pc + a.length) hplaced.right
    rw [List.length_append, ← Nat.add_assoc]
    exact Follows.trans hfirst hsecond

theorem Runs.after_op {o : Op} {s' : Work} {f : α → Flow × Work}
    (hexec : o.exec ω s w = some ((.next, s'), w)) (h : Runs ω body a s' w x f) :
    Runs ω body (.op o :: a) s w x f := by
  intro pc hplaced
  have hrest := h (pc + 1) hplaced.tail
  rw [show pc + (Line.op o :: a).length = pc + 1 + a.length by rw [List.length_cons]; omega]
  exact Follows.trans (reaches_line hplaced.get hexec) hrest

theorem Runs.map {f : α → β} {g : β → Flow × Work} (h : Runs ω body a s w x fun v => g (f v)) :
    Runs ω body a s w (x >>= fun v => pure (f v)) g := by
  intro pc hplaced
  have hrun := h pc hplaced
  rw [← map_bind_pure, Option.map_map]
  exact hrun

end Runs

end JavaMinus.Assembly
