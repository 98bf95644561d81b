import JavaMinus.Command.Arguments
import JavaMinus.Command.Files
import JavaMinus.Compile
import JavaMinus.Settings
import JavaMinus.Source.Decoding

/-!
# Running commands

A command writes to two text streams and to files. It ends with status 0, or with status 1 and a
message if it fails, or with status 2 if the words give no command. Settings are read before the
unit, and the reports of a unit are shown before it is compiled.
-/

namespace JavaMinus

open JavaMinus.Source (CompilationUnit Report)

/-- The text streams written so far. -/
structure Output where
  out : String := ""
  err : String := ""

/-- The end of a command. -/
structure Outcome extends Output where
  status : Nat

/-- Why settings cannot be used. -/
inductive SettingsError where
  | file (error : FileError)
  | invalid

def SettingsError.text : SettingsError → String
  | .file e => e.text
  | .invalid => "invalid settings"

namespace Settings

variable {m : Type → Type} [Monad m] [Files m]

/-- The settings in a file. -/
def load (p : Path) : m (Except SettingsError Settings) := do
  match ← Files.read p with
  | .error e => return .error (.file e)
  | .ok text =>
    match parse? text with
    | some s => return .ok s
    | none => return .error .invalid

/-- The settings file in the folder of a path, if there is one. -/
def find? (p : Path) : m (Option Path) := do
  match p.parent? with
  | none => return none
  | some folder =>
    let candidate := folder.join fileName
    return if ← Files.isFile candidate then some candidate else none

end Settings

namespace Command

variable {m : Type → Type} [Monad m] [Files m]

/-- A running command: it fails with a message, and what it wrote before stays. -/
abbrev Run (m : Type → Type) := ExceptT String (StateT Output m)

def print (text : String) : Run m Unit :=
  modify fun o => { o with out := o.out ++ text }

def printError (text : String) : Run m Unit :=
  modify fun o => { o with err := o.err ++ text }

/-- Do a step of the file system, and turn its failure into a message. -/
def attempt {ε α : Type} (message : ε → String) (step : m (Except ε α)) : Run m α := do
  match ← (step : m (Except ε α)) with
  | .ok a => return a
  | .error e => throw (message e)

def compiled {α : Type} : Except Error α → Run m α
  | .ok a => return a
  | .error e => throw e.message

/-- A message about the file at a path. -/
def about (p : Path) (text : String) : String :=
  p.text ++ ": " ++ text

/-- The settings named by an option, else those beside the unit, else the defaults. A limit given
as an option comes first. -/
def settingsFor (unit : UnitArguments) : Run m Settings := do
  let found : Option Path ←
    match unit.settings with
    | some p => pure (some p)
    | none => (Settings.find? unit.path : m (Option Path))
  let settings ←
    match found with
    | some p => attempt (fun e => about p (SettingsError.text e)) (Settings.load p)
    | none => pure {}
  return { settings with slotLimit := unit.slotLimit.or settings.slotLimit }

def readUnit (p : Path) : Run m CompilationUnit := do
  let text ← attempt (fun e => about p (FileError.text e)) (Files.read p)
  match CompilationUnit.decode? text with
  | some u => return u
  | none => throw (about p "invalid unit")

/-- Compile a unit and write its files. Returns their paths. -/
def buildUnit (p : Path) (folder : Option Path) (settings : Settings) : Run m (List Path) := do
  let u ← readUnit p
  printError (String.join (u.reports.map fun r => r.text ++ "\n"))
  let artifacts ← compiled (compileUnit u settings.slotLimit)
  let folder := folder.getD (p.parent?.getD ⟨"."⟩)
  attempt FileError.text (Files.makeFolders folder)
  let assemblyPath := folder.join (artifacts.className ++ ".j")
  attempt FileError.text (Files.write assemblyPath artifacts.assembly)
  if !settings.writeFlat then return [assemblyPath]
  let flatPath := folder.join (artifacts.className ++ ".ollir")
  attempt FileError.text (Files.write flatPath artifacts.flat)
  return [assemblyPath, flatPath]

/-- Write a settings file with the defaults, unless there is one. Returns its path. -/
def initFolder (folder : Path) : Run m Path := do
  let p := folder.join Settings.fileName
  if (← (Files.kind? p : m (Option FileKind))).isSome then throw (p.text ++ " already exists")
  attempt FileError.text (Files.makeFolders folder)
  attempt FileError.text (Files.write p Settings.defaultText)
  return p

def execute : Command → Run m Unit
  | .build unit folder omitFlat => do
    let settings ← settingsFor unit
    let settings := if omitFlat then { settings with writeFlat := false } else settings
    let written ← buildUnit unit.path folder settings
    print (String.join (written.map fun p => "Wrote " ++ p.text ++ "\n"))
  | .flat unit => do
    let _ ← settingsFor unit
    let cls ← compiled (lowerUnit (← readUnit unit.path))
    print cls.text
  | .assembly unit => do
    let settings ← settingsFor unit
    let artifacts ← compiled (compileUnit (← readUnit unit.path) settings.slotLimit)
    print artifacts.assembly
  | .liveness unit => do
    let _ ← settingsFor unit
    print (← compiled (livenessReport (← readUnit unit.path)))
  | .init folder => do
    let p ← initFolder folder
    print ("Created " ++ p.text ++ "\n")

def usageText : String :=
  "usage: jmmc [-v] build UNIT [--config FILE] [-r N] [--out-dir DIR] [--no-ollir]\n" ++
  "       jmmc [-v] ollir|jasmin|liveness UNIT [--config FILE] [-r N]\n" ++
  "       jmmc [-v] init [DIR]\n"

/-- Run the command that the words give. -/
def run (words : List String) : m Outcome := do
  match ofWords words with
  | .error .help => return { status := 0, out := usageText }
  | .error .usage => return { status := 2, err := usageText }
  | .ok command =>
    let (result, output) ← ((execute command).run).run {}
    match result with
    | .ok () => return { output with status := 0 }
    | .error message =>
      return { output with err := output.err ++ "error: " ++ message ++ "\n", status := 1 }

end Command

end JavaMinus
