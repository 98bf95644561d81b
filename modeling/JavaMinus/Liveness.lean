import JavaMinus.NameSet
import JavaMinus.Flat.Method

/-!
# Liveness

A name is live at an instruction if its present value may still be read. The analysis starts from
empty sets and sweeps over the instructions from last to first, using each new set at once, until a
sweep changes nothing. The number of sweeps is part of the result.
-/

namespace JavaMinus

open JavaMinus.Flat (Step Method)

/-- The sets of one instruction: what it defines and uses, and what is live before and after it. -/
structure LiveRow where
  id : Nat
  defs : NameSet
  uses : NameSet
  liveIn : NameSet
  liveOut : NameSet
deriving DecidableEq, Inhabited

structure Liveness where
  /-- One row per instruction, in order. -/
  rows : List LiveRow
  /-- Every name that the method defines, read or not. -/
  exit : NameSet
  /-- How many sweeps were made, the last one being the one that changed nothing. -/
  passes : Nat
deriving DecidableEq, Inhabited

namespace LiveRow

/-- The row of an instruction before the first sweep. -/
def start (s : Step) : LiveRow where
  id := s.id
  defs := NameSet.ofList s.instr.defines?.toList
  uses := NameSet.ofList s.instr.reads
  liveIn := ∅
  liveOut := ∅

/-- The row of the instruction with this id. -/
def find? (rows : List LiveRow) (id : Nat) : Option LiveRow :=
  rows.find? fun r => r.id == id

/-- What is live before the instruction with this id; nothing if there is none. -/
def liveInAt (rows : List LiveRow) (id : Nat) : NameSet :=
  match find? rows id with
  | some r => r.liveIn
  | none => ∅

/-- What is live after an instruction with these successors. -/
def outAt (rows : List LiveRow) (succs : List Nat) : NameSet :=
  NameSet.unions (succs.map (liveInAt rows))

/-- What is live before an instruction, given what is live after it. -/
def transfer (r : LiveRow) (out : NameSet) : NameSet :=
  r.uses.union (out.diff r.defs)

/-- Recompute the row of one instruction from the present rows. -/
def update (s : Step) (rows : List LiveRow) : List LiveRow :=
  let out := outAt rows s.succs
  rows.map fun r => if r.id = s.id then { r with liveIn := r.transfer out, liveOut := out } else r

/-- Recompute every row, from the last instruction to the first. -/
def sweep (steps : List Step) (rows : List LiveRow) : List LiveRow :=
  steps.foldr update rows

/-- Sweep until nothing changes, and count the sweeps. -/
def settle (steps : List Step) : Nat → Nat → List LiveRow → Nat × List LiveRow
  | 0, passes, rows => (passes, rows)
  | fuel + 1, passes, rows =>
    let next := sweep steps rows
    if next = rows then (passes + 1, next) else settle steps fuel (passes + 1) next

end LiveRow

namespace Liveness

/-- A bound on the number of sweeps: each one but the last adds a used name to some set, and there
are two sets per instruction. -/
def sweepBound (rows : List LiveRow) : Nat :=
  2 * rows.length * (NameSet.unions (rows.map (·.uses))).toList.length + 1

/-- The liveness of a method. -/
def analyze (m : Method) : Liveness :=
  let rows := m.steps.map LiveRow.start
  let (passes, settled) := LiveRow.settle m.steps (sweepBound rows) 0 rows
  { rows := settled, exit := NameSet.unions (settled.map (·.defs)), passes }

/-- The row of the instruction with this id. -/
def row? (lv : Liveness) (id : Nat) : Option LiveRow :=
  LiveRow.find? lv.rows id

/-- The sets obey the flow equations of the method. A successor that the method does not have counts
for nothing. -/
def isFixpoint (lv : Liveness) (m : Method) : Bool :=
  m.steps.all fun s =>
    match lv.row? s.id with
    | some r =>
      let out := LiveRow.outAt lv.rows (s.succs.filter (m.steps.map (·.id)).contains)
      r.liveOut == out && r.liveIn == r.transfer out
    | none => false

/-- A text filled up with blanks on the left to a width. -/
def padLeft (width : Nat) (text : String) : String :=
  String.ofList (List.replicate (width - text.length) ' ') ++ text

/-- A text filled up with blanks on the right to a width. -/
def padRight (width : Nat) (text : String) : String :=
  text ++ String.ofList (List.replicate (width - text.length) ' ')

/-- One line of a report: the instruction and its four sets. -/
def rowText (s : Step) (r : LiveRow) : String :=
  "  " ++ padLeft 3 (toString s.id) ++ ": " ++ padRight 40 s.instr.text ++ " def" ++ r.defs.text ++
    " use" ++ r.uses.text ++ " in" ++ r.liveIn.text ++ " out" ++ r.liveOut.text ++ "\n"

/-- The report on one method. -/
def text (lv : Liveness) (m : Method) : String :=
  m.name ++ " (" ++ toString lv.passes ++ " passes)\n" ++
    String.join (m.steps.map fun s => rowText s ((lv.row? s.id).getD (LiveRow.start s))) ++
    "  exit" ++ lv.exit.text ++ "\n"

end Liveness

end JavaMinus
