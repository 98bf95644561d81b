import JavaMinus.Assembly.Class
import JavaMinus.Lowering.Class
import JavaMinus.Slots.Allocation

/-!
# Compilation

From a unit to its two texts: flat code and assembly. Nothing is returned unless every stage
succeeds.
-/

namespace JavaMinus

open JavaMinus.Source (CompilationUnit)

/-- The texts made from one unit. -/
structure Artifacts where
  className : String
  flat : String
  assembly : String
deriving DecidableEq, Inhabited

/-- The flat form of a unit. A unit with error reports is refused. -/
def lowerUnit (u : CompilationUnit) : Except Error Flat.Class := do
  if u.errorCount > 0 then throw (.rejectedUnit u.errorCount)
  let cls ← Lowering.lowerProgram u.program u.symbols
  cls.checkConstructors
  return cls

/-- The slot tables of the methods of a class. -/
def slotTables (c : Flat.Class) (limit : Option Nat) : Except Error (List SlotTable) :=
  c.methods.mapM fun m => SlotTable.forMethod m limit

/-- Both texts of a unit. Without a limit every variable has a slot of its own; with one, slots are
shared, and a limit above zero bounds their number. -/
def compileUnit (u : CompilationUnit) (limit : Option Nat) : Except Error Artifacts := do
  let cls ← lowerUnit u
  let tables ← slotTables cls limit
  let assembly ← Assembly.Class.emit cls tables
  return { className := cls.name, flat := cls.text, assembly := assembly.text }

/-- The liveness of every method of a unit, as text. -/
def livenessReport (u : CompilationUnit) : Except Error String := do
  let cls ← lowerUnit u
  return String.join (cls.methods.map fun m => (Liveness.analyze m).text m)

end JavaMinus
