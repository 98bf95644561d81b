import JavaMinus.Command.Run

/-!
# Command line

Runs the command given by the arguments on the files of the machine.
-/

namespace JavaMinus

/-- The cause of a failed step with a code. The system gives error codes with either sign. -/
def FileError.ofCode (code : UInt32) (e : IO.Error) : FileError :=
  if code = 20 ∨ code = -20 then .notFolder
  else if code = 21 ∨ code = -21 then .isFolder
  else if code = 22 ∨ code = -22 then .zeroCharacter
  else if code = 36 ∨ code = -36 then .nameTooLong
  else .other (toString e)

/-- The cause of a failed step. -/
def FileError.ofSystem (e : IO.Error) : FileError :=
  match e with
  | .noFileOrDirectory .. => .notFound
  | .alreadyExists .. => .alreadyExists
  | .inappropriateType _ code _ => .ofCode code e
  | .invalidArgument _ code _ => .ofCode code e
  | e => .other (toString e)

def fileStep {α : Type} (step : IO α) : IO (Except FileError α) := do
  match ← step.toBaseIO with
  | .ok a => return .ok a
  | .error e => return .error (FileError.ofSystem e)

instance : Files IO where
  kind? p := do
    match ← fileStep (IO.FS.withFile p.text .read fun h => h.read 1) with
    | .ok _ => return some .file
    | .error .isFolder => return some .folder
    | .error _ => return none
  read p := fileStep (IO.FS.readFile p.text)
  write p text := fileStep (IO.FS.writeFile p.text text)
  makeFolder p := fileStep (IO.FS.createDir p.text)

end JavaMinus

def main (args : List String) : IO UInt32 := do
  let outcome ← JavaMinus.Command.run args
  IO.eprint outcome.err
  IO.print outcome.out
  return outcome.status.toUInt32
