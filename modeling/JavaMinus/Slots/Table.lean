import JavaMinus.Flat.Method

/-!
# Slot tables

Where the variables of one method live at run time: a slot number and a type for each name. The
table is kept in the order of the names. Slot zero holds the current object in an instance method,
and the parameters follow in order. Slot numbers have 16 bits, and counting them wraps around.
-/

namespace JavaMinus

open JavaMinus.Flat (Ty Method Param)

instance instCoeSlotNumberNat : Coe UInt16 Nat := ⟨UInt16.toNat⟩

/-- A number of more than 16 bits wraps around. -/
instance instCoeNatSlotNumber : Coe Nat UInt16 := ⟨UInt16.ofNat⟩

structure Slot where
  index : UInt16
  ty : Ty
deriving DecidableEq, Inhabited

/-- Put an entry at its place in an ascending list, replacing one of the same name. -/
def insertEntry (name : String) (slot : Slot) : List (String × Slot) → List (String × Slot)
  | [] => [(name, slot)]
  | (n, s) :: rest =>
    if name < n then (name, slot) :: (n, s) :: rest
    else if name = n then (name, slot) :: rest
    else (n, s) :: insertEntry name slot rest

theorem lookup_cons_entry (key name : String) (slot : Slot) (rest : List (String × Slot)) :
    List.lookup key ((name, slot) :: rest) =
      if key = name then some slot else rest.lookup key := by
  by_cases h : key = name
  · simp [h]
  · have hb : (key == name) = false := by simpa using h
    rw [List.lookup_cons, hb, if_neg h]

theorem lookup_insertEntry (name key : String) (slot : Slot) (entries : List (String × Slot)) :
    (insertEntry name slot entries).lookup key =
      if key = name then some slot else entries.lookup key := by
  induction entries with
  | nil => simp only [insertEntry, lookup_cons_entry]
  | cons e rest ih =>
    obtain ⟨n, s⟩ := e
    simp only [insertEntry]
    split
    · rw [lookup_cons_entry]
    · split
      · next _ h =>
        subst h
        simp only [lookup_cons_entry]
        split <;> rfl
      · next _ h =>
        simp only [lookup_cons_entry, ih]
        by_cases hk : key = name
        · subst hk
          simp [h]
        · simp [hk]

structure SlotTable where
  /-- The entries, ascending by name. -/
  entries : List (String × Slot) := []
deriving DecidableEq, Inhabited

namespace SlotTable

def insert (t : SlotTable) (name : String) (index : UInt16) (ty : Ty) : SlotTable :=
  ⟨insertEntry name { index, ty } t.entries⟩

def get? (t : SlotTable) (name : String) : Option Slot :=
  t.entries.lookup name

theorem get?_insert (t : SlotTable) (name key : String) (index : UInt16) (ty : Ty) :
    (t.insert name index ty).get? key =
      if key = name then some { index, ty } else t.get? key :=
  lookup_insertEntry name key { index, ty } t.entries

def contains (t : SlotTable) (name : String) : Bool :=
  (t.get? name).isSome

def size (t : SlotTable) : Nat :=
  t.entries.length

/-- One more than the highest slot in use. The number after the last slot of all wraps to zero. -/
def localsLimit (t : SlotTable) : Nat :=
  (t.entries.map fun e => (e.2.index + 1).toNat).foldl max 0

/-- The name under which the current object is listed. -/
def selfName : String := "this"

/-- Give the next free slots to the parameters, in order. -/
def addParams (t : SlotTable) (next : UInt16) : List Param → SlotTable × UInt16
  | [] => (t, next)
  | p :: rest => addParams (t.insert p.name next p.ty) (next + 1) rest

/-- The slots that the calling convention fixes, and the first free slot. -/
def fixed (m : Method) : SlotTable × UInt16 :=
  if m.isStatic then addParams {} 0 m.params
  else addParams (SlotTable.insert {} selfName 0 (.self "")) 1 m.params

/-- Give each variable that has no slot yet the next free one. -/
def addVars (t : SlotTable) (next : UInt16) : List (String × Ty) → SlotTable
  | [] => t
  | (name, ty) :: rest =>
    if t.contains name then addVars t next rest else addVars (t.insert name next ty) (next + 1) rest

/-- A slot of its own for every variable, in order of first appearance. -/
def oneSlotEach (m : Method) : SlotTable :=
  addVars (fixed m).1 (fixed m).2 m.vars

end SlotTable

end JavaMinus
