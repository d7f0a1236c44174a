import Chip8.Text.Similarity

/-! # Command-line arguments

Reading of command-line arguments by a grammar of switches, positional arguments and subcommands.

* **Switches** are written `--long` or `-s`. A value follows as the next argument, or behind `=`, or
  directly behind a short switch; short switches can be joined. A value never starts with `-`, the
  lone `-` apart, unless it is attached.
* **Positional arguments** are all others, and all behind `--`.
* **Order.** The value of a switch or positional argument is checked when the next one is found or
  the arguments end; what is wrong earlier is reported. That an argument is missing is noticed at the
  end. -/

namespace Chip8.Cli

/-- Why arguments are not carried out. -/
inductive UsageError where
  | unknownArgument
  /-- A word that looks like a subcommand and is none. -/
  | invalidSubcommand
  | missingArgument
  /-- A value is missing or empty. -/
  | emptyValue
  /-- A value that cannot be read. -/
  | badValue
  /-- A value for a switch that takes none. -/
  | unneededValue
  /-- A switch that is given twice. -/
  | repeated
  | helpRequested
  | versionRequested
deriving DecidableEq, Repr

/-- What a switch does. -/
inductive SwitchKind (α : Type) where
  | help
  | version
  /-- Stands for a setting. -/
  | flag (setting : α)
  /-- Reads a setting from a value, once or any number of times. -/
  | value (repeatable : Bool) (read : String → Except UsageError α)

/-- A switch. -/
structure Switch (α : Type) where
  long : String
  short : Option Char
  kind : SwitchKind α

/-- What arguments a command takes. -/
structure Grammar (α : Type) where
  switches : List (Switch α)
  /-- How positional arguments are read. -/
  positional : String → Except UsageError α
  /-- The number of positional arguments that have to be there. -/
  required : Nat
  /-- The number of positional arguments that may be there. -/
  allowed : Nat
  subcommands : List String

/-- What was found and is not checked yet. -/
inductive Pending (α : Type) where
  /-- A switch and its value, if there is one yet. -/
  | switch (s : Switch α) (value : Option String)
  | positional (value : String)

/-- What has been read so far. -/
structure Reading (α : Type) where
  /-- The settings of switches with the names of these. -/
  settings : List (String × α)
  /-- The settings of positional arguments. -/
  positionals : List α
  pending : Option (Pending α)
  /-- The number of positional arguments found. -/
  found : Nat
  /-- Whether `--` was found. -/
  onlyPositionals : Bool

namespace Reading

variable {α : Type}

def start : Reading α := ⟨[], [], none, 0, false⟩

/-- Note the setting of a switch. -/
def put (r : Reading α) (s : Switch α) (repeatable : Bool) (read : Except UsageError α) :
    Except UsageError (Reading α) :=
  if ¬ repeatable ∧ r.settings.any (·.1 = s.long) then .error .repeated
  else read.map fun a => { r with settings := r.settings ++ [(s.long, a)] }

/-- Check what is pending. -/
def resolve (r : Reading α) (g : Grammar α) : Except UsageError (Reading α) :=
  let cleared := { r with pending := none }
  match r.pending with
  | none => .ok r
  | some (.switch _ none) => .error .emptyValue
  | some (.switch s (some value)) =>
      match s.kind with
      | .value repeatable read => cleared.put s repeatable (read value)
      | _ => .ok cleared
  | some (.positional value) =>
      (g.positional value).map fun a => { cleared with positionals := r.positionals ++ [a] }

/-- Meet a switch with the value attached to it, if there is one. -/
def meet (r : Reading α) (g : Grammar α) (s : Switch α) (attached : Option String) :
    Except UsageError (Reading α) := do
  let r ← r.resolve g
  match s.kind with
  | .help => throw .helpRequested
  | .version => throw .versionRequested
  | .flag setting => r.put s false (.ok setting)
  | .value .. =>
      let r := { r with pending := some (.switch s attached) }
      if attached.isSome then r.resolve g else return r

/-- Whether the next argument is the value of a switch. -/
def awaitsValue (r : Reading α) : Bool :=
  match r.pending with
  | some (.switch _ none) => true
  | _ => false

/-- Take the value of the switch that awaits one. -/
def takeValue (r : Reading α) (value : String) : Reading α :=
  match r.pending with
  | some (.switch s none) => { r with pending := some (.switch s (some value)) }
  | _ => r

end Reading

namespace Grammar

variable {α : Type}

def longSwitch? (g : Grammar α) (name : List Char) : Option (Switch α) :=
  g.switches.find? fun s => s.long.toList = name

def shortSwitch? (g : Grammar α) (c : Char) : Option (Switch α) :=
  g.switches.find? fun s => s.short = some c

/-- Read a long switch, its name and attached value given without the `--`. -/
def readLong (g : Grammar α) (r : Reading α) (body : List Char) :
    Except UsageError (Reading α) :=
  let attached := match body.dropWhile (· ≠ '=') with
    | [] => none
    | _ :: value => some (String.ofList value)
  match g.longSwitch? (body.takeWhile (· ≠ '=')) with
  | none => .error .unknownArgument
  | some s =>
      match s.kind with
      | .value .. => r.meet g s attached
      | _ => if attached.isSome then .error .unneededValue else r.meet g s none

/-- Read joined short switches, given without the `-`. -/
def readShorts (g : Grammar α) (r : Reading α) : List Char → Except UsageError (Reading α)
  | [] => .ok r
  | c :: cs =>
      match g.shortSwitch? c with
      | none => .error .unknownArgument
      | some s =>
          match s.kind with
          | .value .. =>
              match cs with
              | [] => r.meet g s none
              | '=' :: value => r.meet g s (some (String.ofList value))
              | value => r.meet g s (some (String.ofList value))
          | _ => (r.meet g s none).bind fun r => readShorts g r cs

/-- How much a word has to resemble a subcommand to be taken for a misspelt one: more than this
fraction. -/
def resemblance : Nat × Nat := (7, 10)

/-- What is wrong with a positional argument that there is no room for. -/
def surplus (g : Grammar α) (r : Reading α) (arg : String) : UsageError :=
  let resembles (name : String) : Bool :=
    Similarity.exceeds resemblance.1 resemblance.2 arg.toList name.toList
  if r.onlyPositionals ∧ g.subcommands.contains arg then .unknownArgument
  else if g.subcommands.any resembles then .invalidSubcommand
  else .unknownArgument

/-- Read a positional argument. -/
def readPositional (g : Grammar α) (r : Reading α) (arg : String) :
    Except UsageError (Reading α) :=
  if r.found < g.allowed then
    (r.resolve g).map fun r =>
      { r with pending := some (.positional arg), found := r.found + 1 }
  else .error (g.surplus r arg)

/-- Read an argument that is no subcommand. -/
def readArgument (g : Grammar α) (r : Reading α) (arg : String) : Except UsageError (Reading α) :=
  if r.onlyPositionals then g.readPositional r arg
  else
    match arg.toList with
    | ['-', '-'] => .ok { r with onlyPositionals := true }
    | '-' :: '-' :: body => g.readLong r body
    | '-' :: c :: cs => g.readShorts r (c :: cs)
    | _ => if r.awaitsValue then .ok (r.takeValue arg) else g.readPositional r arg

/-- Read arguments up to the end or up to a subcommand. The answer tells the subcommand and what
follows it. -/
def readArguments (g : Grammar α) (r : Reading α) :
    List String → Except UsageError (Reading α × Option (String × List String))
  | [] => .ok (r, none)
  | arg :: args =>
      if ¬ r.onlyPositionals ∧ ¬ r.awaitsValue ∧ g.subcommands.contains arg then
        .ok (r, some (arg, args))
      else (g.readArgument r arg).bind fun r => readArguments g r args

/-- Check what is pending at the end, and that nothing is missing. -/
def conclude (g : Grammar α) (r : Reading α) : Except UsageError (List α × List α) := do
  let r ← r.resolve g
  if r.positionals.length < g.required then throw .missingArgument
  return (r.settings.map Prod.snd, r.positionals)

end Grammar

end Chip8.Cli
