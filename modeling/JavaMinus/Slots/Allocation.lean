import JavaMinus.Liveness
import JavaMinus.Slots.Table

/-!
# Sharing slots

Two variables interfere if one is defined while the other is live. A definition interferes even if
nobody reads it, because the store still overwrites the slot. Variables are coloured greedily in
order of first appearance, each with the lowest colour that no coloured neighbour has; the colour
counts slots from the first free one. The current object and the parameters keep their own slots.
-/

namespace JavaMinus

open JavaMinus.Flat (Method)

structure InterferenceGraph where
  /-- The variables in colouring order. -/
  nodes : List String
  /-- For every definition of a node, the node and the other nodes that are live after it. -/
  clashes : List (String × List String)
deriving DecidableEq, Inhabited

namespace InterferenceGraph

/-- The nodes that clash with `a`, with repeats: those live after a definition of `a`, and those
with a definition after which `a` is live. -/
def neighbours (g : InterferenceGraph) (a : String) : List String :=
  g.clashes.flatMap fun (defined, live) =>
    if defined == a then live else if live.contains a then [defined] else []

/-- One of the two is defined while the other is live. -/
def interferes (g : InterferenceGraph) (a b : String) : Bool :=
  (g.neighbours a).contains b

/-- What one definition clashes with: the other nodes live after it. -/
def clashAt (nodes : List String) (defined : String) (liveOut : NameSet) :
    Option (String × List String) :=
  if nodes.contains defined then
    some (defined, liveOut.toList.filter fun v => v != defined && nodes.contains v)
  else none

/-- The interference graph of a method under given live sets. -/
def build (m : Method) (lv : Liveness) : InterferenceGraph :=
  let table := (SlotTable.fixed m).1
  let nodes := (m.vars.map (·.1)).filter fun name => !table.contains name
  let clashes := m.steps.filterMap fun s =>
    match s.instr.defines?, lv.row? s.id with
    | some d, some r => clashAt nodes d r.liveOut
    | _, _ => none
  { nodes, clashes }

/-- The least number that is not taken. -/
def lowestFree (taken : List UInt16) : UInt16 :=
  (((List.range (taken.length + 1)).map UInt16.ofNat).find? fun c => !taken.contains c).getD 0

/-- The colours of the neighbours of `node` among the coloured nodes. -/
def takenBy (g : InterferenceGraph) (coloured : List (String × UInt16)) (node : String) :
    List UInt16 :=
  let near := g.neighbours node
  (coloured.filter fun c => near.contains c.1).map (·.2)

/-- Colour the nodes in order. -/
def colours (g : InterferenceGraph) : List (String × UInt16) :=
  g.nodes.foldl (fun done node => done ++ [(node, lowestFree (g.takenBy done node))]) []

/-- How many colours are in use. -/
def colourCount (coloured : List (String × UInt16)) : Nat :=
  (coloured.map fun c => (c.2 + 1).toNat).foldl max 0

end InterferenceGraph

namespace SlotTable

/-- Add the coloured variables, with the types they have in the method. -/
def addColoured (t : SlotTable) (firstFree : UInt16) (vars : List (String × Flat.Ty)) :
    List (String × UInt16) → SlotTable
  | [] => t
  | (name, colour) :: rest =>
    match vars.lookup name with
    | some ty => addColoured (t.insert name (firstFree + colour) ty) firstFree vars rest
    | none => addColoured t firstFree vars rest

/-- A table in which variables share slots. A `limit` above zero bounds the number of slots after
the fixed ones. -/
def allocate (m : Method) (lv : Liveness) (limit : Nat) : Except Error SlotTable :=
  let coloured := (InterferenceGraph.build m lv).colours
  let needed := InterferenceGraph.colourCount coloured
  if limit > 0 && needed > limit then .error (.slotLimit m.name needed limit)
  else .ok (addColoured (fixed m).1 (fixed m).2 m.vars coloured)

/-- The table of a method: one slot for each variable, or shared slots under a limit. -/
def forMethod (m : Method) : Option Nat → Except Error SlotTable
  | none => .ok (oneSlotEach m)
  | some limit => allocate m (Liveness.analyze m) limit

end SlotTable

end JavaMinus
