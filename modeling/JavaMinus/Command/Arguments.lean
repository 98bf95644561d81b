import JavaMinus.Command.Path

/-!
# Arguments

The words after the name of the program. A verb says what to do; options may stand before and after
the operands of the verb, long (`--registers 2`, `--registers=2`) or short (`-r 2`, `-r2`, `-r=2`),
and several short ones may share a dash (`-vr2`). After a word `--` only operands follow. Only `-v`
and `-h` may also stand before the verb. No option may be repeated.
-/

namespace JavaMinus

/-- What every command on a unit takes. -/
structure UnitArguments where
  path : Path
  settings : Option Path := none
  slotLimit : Option Nat := none

inductive Command where
  | build (unit : UnitArguments) (folder : Option Path) (omitFlat : Bool)
  | flat (unit : UnitArguments)
  | assembly (unit : UnitArguments)
  | liveness (unit : UnitArguments)
  | init (folder : Path)

/-- Why the words give no command. -/
inductive Refusal where
  | usage
  /-- Help was asked for. -/
  | help
deriving DecidableEq

namespace Command

inductive Verb where
  | build
  | flat
  | assembly
  | liveness
  | init
deriving DecidableEq

def Verb.ofWord? : String → Option Verb
  | "build" => some .build
  | "ollir" => some .flat
  | "jasmin" => some .assembly
  | "liveness" => some .liveness
  | "init" => some .init
  | _ => none

inductive Opt where
  | verbose
  | help
  | settings
  | slotLimit
  | folder
  | omitFlat
deriving DecidableEq

namespace Opt

def ofLong? : String → Option Opt
  | "verbose" => some .verbose
  | "help" => some .help
  | "config" => some .settings
  | "registers" => some .slotLimit
  | "out-dir" => some .folder
  | "no-ollir" => some .omitFlat
  | _ => none

def ofShort? : Char → Option Opt
  | 'v' => some .verbose
  | 'h' => some .help
  | 'r' => some .slotLimit
  | _ => none

def takesValue : Opt → Bool
  | .settings | .slotLimit | .folder => true
  | _ => false

/-- The options known where `verb` was given; before a verb, `none`. -/
def isKnown (verb : Option Verb) : Opt → Bool
  | .verbose | .help => true
  | .settings | .slotLimit =>
    match verb with
    | some .init | none => false
    | _ => true
  | .folder | .omitFlat => verb = some .build

end Opt

/-- The number a word spells: digits after an optional sign, at most `2 ^ 32 - 1`. -/
def number? (word : String) : Option Nat := do
  let (negative, digits) := match word.toList with
    | '+' :: cs => (false, cs)
    | '-' :: cs => (true, cs)
    | cs => (false, cs)
  guard (!digits.isEmpty && digits.all Char.isDigit)
  let n := digits.foldl (fun n c => n * 10 + (c.toNat - '0'.toNat)) 0
  guard (n < UInt32.size ∧ (negative → n = 0))
  return n

/-- May the word be the value of an option? -/
def isValue (opt : Opt) (word : String) : Bool :=
  match opt with
  | .slotLimit => (number? word).isSome
  | _ => !word.isEmpty

/-- What was given so far at one level. -/
structure Given where
  options : List (Opt × String) := []
  operands : List String := []

namespace Given

def value? (g : Given) (opt : Opt) : Option String :=
  g.options.lookup opt

def has (g : Given) (opt : Opt) : Bool :=
  (g.value? opt).isSome

/-- Add an option with its value, the empty text if it takes none. -/
def addOption (g : Given) (opt : Opt) (value : String) : Except Refusal Given :=
  if opt = .help then .error .help
  else if g.has opt || (opt.takesValue && !isValue opt value) then .error .usage
  else .ok { g with options := g.options ++ [(opt, value)] }

/-- Add an operand: one at most, and not the empty text. -/
def addOperand (g : Given) (word : String) : Except Refusal Given :=
  if g.operands.isEmpty && !word.isEmpty then .ok { g with operands := [word] }
  else .error .usage

end Given

/-- A word with its meaning. -/
inductive Word where
  /-- The word `--`. -/
  | divider
  /-- A long option, with the value after an equals sign if there is one. -/
  | long (name : String) (value : Option String)
  /-- Short options behind one dash. -/
  | short (letters : List Char)
  | plain (text : String)

def Word.ofText (text : String) : Word :=
  match text.toList with
  | ['-', '-'] => .divider
  | '-' :: '-' :: cs =>
    match cs.dropWhile (· != '=') with
    | [] => .long (String.ofList cs) none
    | _ :: value => .long (String.ofList (cs.takeWhile (· != '='))) (some (String.ofList value))
  | '-' :: c :: cs => .short (c :: cs)
  | _ => .plain text

/-- Short options behind one dash, and the option at their end that still needs a value. -/
def addShort (verb : Option Verb) : List Char → Given → Except Refusal (Given × Option Opt)
  | [], g => .ok (g, none)
  | c :: rest, g =>
    match Opt.ofShort? c with
    | none => .error .usage
    | some opt =>
      if !opt.isKnown verb then .error .usage
      else if !opt.takesValue then do addShort verb rest (← g.addOption opt "")
      else
        match rest with
        | [] => .ok (g, some opt)
        | '=' :: value => do return (← g.addOption opt (String.ofList value), none)
        | value => do return (← g.addOption opt (String.ofList value), none)

/-- A long option, and the option if it still needs a value. -/
def addLong (verb : Option Verb) (name : String) (value : Option String) (g : Given) :
    Except Refusal (Given × Option Opt) :=
  match Opt.ofLong? name, value with
  | none, _ => .error .usage
  | some opt, value =>
    if !opt.isKnown verb then .error .usage
    else
      match opt.takesValue, value with
      | true, some v => do return (← g.addOption opt v, none)
      | true, none => .ok (g, some opt)
      | false, none => do return (← g.addOption opt "", none)
      | false, some _ => .error .usage

/-- The words after a verb. `pending` is an option whose value comes next. -/
def readWords (verb : Verb) : (pending : Option Opt) → Given → List String → Except Refusal Given
  | none, g, [] => .ok g
  | some _, _, [] => .error .usage
  | some opt, g, word :: rest =>
    match Word.ofText word with
    | .plain value => do readWords verb none (← g.addOption opt value) rest
    | _ => .error .usage
  | none, g, word :: rest =>
    match Word.ofText word with
    | .divider => rest.foldlM Given.addOperand g
    | .long name value => do
      let (g, pending) ← addLong (some verb) name value g
      readWords verb pending g rest
    | .short letters => do
      let (g, pending) ← addShort (some verb) letters g
      readWords verb pending g rest
    | .plain text => do readWords verb none (← g.addOperand text) rest

def unitArguments (g : Given) : Except Refusal UnitArguments :=
  match g.operands with
  | [] => .error .usage
  | path :: _ => .ok {
      path := ⟨path⟩
      settings := (g.value? .settings).map Path.mk
      slotLimit := (g.value? .slotLimit).bind number? }

def ofGiven (verb : Verb) (g : Given) : Except Refusal Command :=
  match verb with
  | .build => do
    return .build (← unitArguments g) ((g.value? .folder).map Path.mk) (g.has .omitFlat)
  | .flat => do return .flat (← unitArguments g)
  | .assembly => do return .assembly (← unitArguments g)
  | .liveness => do return .liveness (← unitArguments g)
  | .init => .ok (.init ⟨g.operands.head?.getD "."⟩)

/-- The word `help` takes one verb at most, or `help` itself. -/
def helpOn : List String → Refusal
  | [] => .help
  | [word] => if word == "help" || (Verb.ofWord? word).isSome then .help else .usage
  | _ => .usage

/-- The words before and with the verb, then the rest. -/
def readFront : Given → List String → Except Refusal Command
  | _, [] => .error .usage
  | g, word :: rest =>
    match Word.ofText word with
    | .divider => .error .usage
    | .long name value => do
      let (g, _) ← addLong none name value g
      readFront g rest
    | .short letters => do
      let (g, _) ← addShort none letters g
      readFront g rest
    | .plain "help" => .error (helpOn rest)
    | .plain text =>
      match Verb.ofWord? text with
      | none => .error .usage
      | some verb => do ofGiven verb (← readWords verb none {} rest)

/-- The command that the words give. -/
def ofWords (words : List String) : Except Refusal Command :=
  readFront {} words

end Command

end JavaMinus
