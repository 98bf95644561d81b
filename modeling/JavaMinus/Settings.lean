import JavaMinus.Toml.Text

/-!
# Settings

The settings of the compiler come from the table `compiler` of a TOML file beside the unit. Every
setting has a default, unknown keys are skipped, and a value of the wrong kind makes the file
invalid.
-/

namespace JavaMinus

structure Settings where
  /-- Absent: one slot for each variable. Zero: slots are shared freely. Else: slots are shared, and
  this many are allowed beside those of the receiver and the parameters. -/
  slotLimit : Option Nat := none
  debug : Bool := false
  /-- Write the flat code beside the assembly. -/
  writeFlat : Bool := true
deriving DecidableEq

namespace Settings

/-- The name of the settings file. -/
def fileName : String := "jmm.toml"

/-- A settings file that spells out the defaults. -/
def defaultText : String :=
  "[compiler]\n# register_allocation = 0\ndebug = false\nemit_ollir = true\n"

def readLimit : Toml → Option Nat
  | .int n => if 0 ≤ n ∧ n < UInt32.size then some n.toNat else none
  | _ => none

def readSwitch : Toml → Option Bool
  | .bool b => some b
  | _ => none

/-- Read one setting: the default if it is missing, nothing if it has the wrong kind. -/
def orDefault {α : Type} (default : α) (read : Toml → Option α) : Option Toml → Option α
  | none => some default
  | some v => read v

/-- The settings with the given values, each of which may be missing. -/
def ofValues? (limit debug writeFlat : Option Toml) : Option Settings := do
  return {
    slotLimit := ← orDefault none (fun v => (readLimit v).map some) limit
    debug := ← orDefault false readSwitch debug
    writeFlat := ← orDefault true readSwitch writeFlat }

/-- The settings in a document. The settings may also be listed in an array in a fixed order; what
follows them there is skipped. A moment counts as a table with no setting in it. -/
def ofToml? (document : Toml.Entries) : Option Settings :=
  match document.lookup "compiler" with
  | none => some {}
  | some (.table _ entries) =>
    ofValues? (entries.lookup "register_allocation") (entries.lookup "debug")
      (entries.lookup "emit_ollir")
  | some (.list items) => ofValues? items[0]? items[1]? items[2]?
  | some (.moment _) => some {}
  | some _ => none

/-- The settings in the text of a settings file. -/
def parse? (text : String) : Option Settings :=
  (Toml.parse? text).bind ofToml?

end Settings

end JavaMinus
