import JavaMinus.Assembly.Line
import Mathlib.Logic.Relation

/-!
# Values, memory and events

What source trees, flat code and assembly share when they run. A method works on values and acts on
the world outside of its variables through events: accesses of fields and array elements, allocations
and calls. The memory decides what an access yields. What allocations and calls yield, and what they
do to the memory, comes from an oracle that knows the whole history; it never sees a variable.
-/

namespace JavaMinus.Behaviour

open JavaMinus.Assembly (Dispatch FieldRef MethodRef)
open JavaMinus.Source (BinOp)

/-! ### Values -/

inductive Value where
  /-- A number. The truth values are zero and one. -/
  | int (n : Int32)
  | null
  /-- An object or array. -/
  | ref (address : Nat)
deriving DecidableEq, Inhabited

namespace Value

def ofBool (b : Bool) : Value :=
  .int (if b then 1 else 0)

/-- Every number but zero counts as true. References have no truth value. -/
def truth? : Value → Option Bool
  | .int n => some (n != 0)
  | _ => none

def negation? (v : Value) : Option Value :=
  v.truth?.map fun b => ofBool !b

theorem truth?_ofBool (b : Bool) : (ofBool b).truth? = some b := by
  cases b <;> rfl

end Value

/-- A binary operation on numbers. Arithmetic wraps around, and a division by zero has no value. -/
def onNumbers? (op : BinOp) (a b : Int32) : Option Value :=
  match op with
  | .add => some (.int (a + b))
  | .sub => some (.int (a - b))
  | .mul => some (.int (a * b))
  | .div => if b = 0 then none else some (.int (a / b))
  | .lt => some (.ofBool (a < b))
  | .gt => some (.ofBool (b < a))
  | .le => some (.ofBool (a ≤ b))
  | .ge => some (.ofBool (b ≤ a))
  | .eq => some (.ofBool (a = b))
  | .ne => some (.ofBool (a ≠ b))
  | .and => some (.ofBool (a ≠ 0 && b ≠ 0))
  | .or => some (.ofBool (a ≠ 0 || b ≠ 0))

/-- A binary operation on values that are there already. References can only be compared for being
the same. -/
def binary? (op : BinOp) (a b : Value) : Option Value :=
  match a, b with
  | .int m, .int n => onNumbers? op m n
  | _, _ =>
    match op with
    | .eq => some (.ofBool (a = b))
    | .ne => some (.ofBool (a ≠ b))
    | _ => none

/-! ### Memory -/

structure Memory where
  field : Nat → String → Value
  array : Nat → Option (List Value)

namespace Memory

def getField? (m : Memory) (name : String) : Value → Option Value
  | .ref a => some (m.field a name)
  | _ => none

def putField? (m : Memory) (name : String) (v : Value) : Value → Option Memory
  | .ref a => some { m with field := fun b n => if b = a ∧ n = name then v else m.field b n }
  | _ => none

def place? : Value → Option Nat
  | .int i => if 0 ≤ i then some i.toInt.toNat else none
  | _ => none

def getElement? (m : Memory) (index : Value) : Value → Option Value
  | .ref a => do (← m.array a)[← place? index]?
  | _ => none

def putElement? (m : Memory) (index v : Value) : Value → Option Memory
  | .ref a => do
    let elements ← m.array a
    let k ← place? index
    if k < elements.length then
      some { m with array := fun b => if b = a then some (elements.set k v) else m.array b }
    else none
  | _ => none

def length? (m : Memory) : Value → Option Value
  | .ref a => (m.array a).map fun elements => .int (Int32.ofNat elements.length)
  | _ => none

end Memory

/-! ### Events -/

/-- What a method does outside of its variables, with the values it does it to. -/
inductive Event where
  | getField (field : FieldRef) (object : Value)
  | putField (field : FieldRef) (object value : Value)
  | getElement (array index : Value)
  | putElement (array index value : Value)
  | arrayLength (array : Value)
  | newObject (cls : String)
  /-- An `int` array of the given size. -/
  | newArray (size : Value)
  /-- A call; static calls have no receiver. A constructor run is a special call on the object that
  is being initialised. -/
  | call (dispatch : Dispatch) (method : MethodRef) (receiver : Option Value) (args : List Value)
deriving DecidableEq

/-- The memory, and all events so far with the oldest first. -/
structure World where
  memory : Memory
  trace : List Event := []

/-- The answer to an allocation or call after a history: its value and the memory it leaves. There is
none if it does not come back. -/
abbrev Oracle := List Event → Memory → Event → Option (Value × Memory)

/-- The value that an event yields and the memory after it. A write yields what it wrote. -/
def answer? (ω : Oracle) (w : World) (e : Event) : Option (Value × Memory) :=
  match e with
  | .getField field object => (w.memory.getField? field.name object).map fun v => (v, w.memory)
  | .putField field object v => (w.memory.putField? field.name v object).map fun m => (v, m)
  | .getElement array index => (w.memory.getElement? index array).map fun v => (v, w.memory)
  | .putElement array index v => (w.memory.putElement? index v array).map fun m => (v, m)
  | .arrayLength array => (w.memory.length? array).map fun v => (v, w.memory)
  | .newObject _ | .newArray _ | .call .. => ω w.trace w.memory e

/-! ### Acts -/

/-- A computation that acts on the world and may fail to come back. -/
abbrev Act := StateT World Option

def perform (ω : Oracle) (e : Event) : Act Value := fun w =>
  (answer? ω w e).map fun (v, memory) => (v, { memory, trace := w.trace ++ [e] })

/-- A value that may be missing; the world stays as it is. -/
def expect {α : Type} (a : Option α) : Act α := fun w =>
  a.map fun a => (a, w)

section Acts

variable {α β : Type} {w w' : World}

@[simp] theorem bind_eq_some {x : Act α} {f : α → Act β} {b : β} :
    (x >>= f) w = some (b, w') ↔ ∃ a w₁, x w = some (a, w₁) ∧ f a w₁ = some (b, w') := by
  simp only [bind, StateT.bind, Option.bind_eq_some_iff, Prod.exists]

@[simp] theorem pure_eq_some {a b : α} : (pure a : Act α) w = some (b, w') ↔ b = a ∧ w' = w := by
  change some (a, w) = some (b, w') ↔ _
  rw [Option.some.injEq, Prod.mk.injEq]
  constructor <;> (rintro ⟨rfl, rfl⟩; exact ⟨rfl, rfl⟩)

@[simp] theorem expect_eq_some {a : Option α} {b : α} :
    expect a w = some (b, w') ↔ a = some b ∧ w' = w := by
  simp only [expect, Option.map_eq_some_iff, Prod.mk.injEq]
  constructor
  · rintro ⟨c, hc, rfl, rfl⟩
    exact ⟨hc, rfl⟩
  · rintro ⟨hc, rfl⟩
    exact ⟨b, hc, rfl, rfl⟩

@[simp] theorem failure_ne_some {b : α} : ¬ (failure : Act α) w = some (b, w') := by
  simp [failure, StateT.failure]

theorem expect_some_bind (a : α) (f : α → Act β) : (expect (some a) >>= f) = f a :=
  rfl

theorem map_bind_pure (x : Act α) (f : α → β) (w : World) :
    ((x w).map fun p => (f p.1, p.2)) = (x >>= fun a => pure (f a)) w := by
  rw [show (x >>= fun a => pure (f a)) w = (x w).bind fun p => some (f p.1, p.2) from rfl]
  cases x w with
  | none => rfl
  | some p => rfl

end Acts

/-! ### Runs -/

/-- Some number of steps leads from one point of a run to another. -/
abbrev Reaches {α : Type} (step? : α → Option α) : α → α → Prop :=
  Relation.ReflTransGen fun p q => step? p = some q

theorem reaches_of_step {α : Type} {step? : α → Option α} {p q : α} (h : step? p = some q) :
    Reaches step? p q :=
  .single h

/-- The lines `c` stand in `P` from position `pc` on. -/
def Placed {α : Type} (P : List α) (pc : Nat) (c : List α) : Prop :=
  ∃ before after, P = before ++ c ++ after ∧ before.length = pc

namespace Placed

variable {α : Type} {P c d : List α} {pc : Nat} {x : α}

theorem whole (P : List α) : Placed P 0 P :=
  ⟨[], [], by simp, rfl⟩

theorem left (h : Placed P pc (c ++ d)) : Placed P pc c := by
  obtain ⟨before, after, rfl, hlen⟩ := h
  exact ⟨before, d ++ after, by simp, hlen⟩

theorem right (h : Placed P pc (c ++ d)) : Placed P (pc + c.length) d := by
  obtain ⟨before, after, rfl, rfl⟩ := h
  exact ⟨before ++ c, after, by simp, by simp⟩

theorem tail (h : Placed P pc (x :: c)) : Placed P (pc + 1) c :=
  right (c := [x]) h

theorem get (h : Placed P pc (x :: c)) : P[pc]? = some x := by
  obtain ⟨before, after, rfl, rfl⟩ := h
  simp

theorem get_add (h : Placed P pc d) {k : Nat} (hk : d[k]? = some x) : P[pc + k]? = some x := by
  obtain ⟨before, after, rfl, rfl⟩ := h
  obtain ⟨hlt, _⟩ := List.getElem?_eq_some_iff.mp hk
  rw [List.append_assoc, List.getElem?_append_right (Nat.le_add_right ..), Nat.add_sub_cancel_left,
    List.getElem?_append_left hlt, hk]

theorem behind (h : Placed P pc c) (a : List α) : Placed (a ++ P) (a.length + pc) c := by
  obtain ⟨before, after, rfl, rfl⟩ := h
  exact ⟨a ++ before, after, by simp, by simp⟩

theorem before (h : Placed P pc c) (b : List α) : Placed (P ++ b) pc c := by
  obtain ⟨before, after, rfl, hlen⟩ := h
  exact ⟨before, after ++ b, by simp, hlen⟩

end Placed

end JavaMinus.Behaviour
