import Chip8.Cli.Arguments
import Chip8.Decimal.Reading
import Chip8.Machine.Config

/-! # Invocations

What the command line asks for.

* `run` executes a source or binary file, `compile` assembles one into a binary, `check` only
  assembles it; a path alone is run, and without arguments there is a greeting.
* `Invocation.read` reads the arguments; a subcommand is read before what stands in front of it is
  checked. -/

namespace Chip8.Cli

/-- How a program is run. -/
structure RunOptions where
  speed : Float32
  machine : Config
  /-- Labels or addresses to stop at. -/
  breakpoints : List String
  /-- The time to run at most, in milliseconds. -/
  timeout : Option Nat
  /-- Whether nothing but the result is printed, and that in plain text. -/
  minimal : Bool
  /-- The load address, if not that of the machine. -/
  origin : Option UInt16

/-- How a program is run if nothing else is said. -/
def RunOptions.standard : RunOptions := ⟨1, Config.standard, [], none, false, none⟩

/-- What the command line asks for. -/
inductive Invocation where
  | welcome
  | run (path : String) (options : RunOptions)
  | compile (path : String) (dest : Option String) (origin : Option UInt16)
  | check (path : String) (origin : Option UInt16)

/-- The setting that an argument stands for. -/
inductive Setting where
  | speed (v : Float32)
  | machine (c : Config)
  | breakAt (target : String)
  | timeout (milliseconds : Nat)
  | minimal
  | origin (address : UInt16)
  | path (p : String)

/-- A 16-bit address as users write it. -/
def parseAddress? (text : String) : Option UInt16 :=
  match Numeral.ofUser? text.toList with
  | some n => if n < 0x10000 then some n.toUInt16 else none
  | none => none

/-- What is said about a text that is no address. -/
def notAddress (text : String) : String := "'" ++ text ++ "' is not a 16-bit address"

namespace Setting

private def orBad {α : Type} (f : α → Setting) : Option α → Except UsageError Setting
  | some a => .ok (f a)
  | none => .error .badValue

/-- Read a path, which must not be empty. -/
def readPath (text : String) : Except UsageError Setting :=
  if text.isEmpty then .error .emptyValue else .ok (.path text)

def help : Switch Setting := ⟨"help", some 'h', .help⟩

def originSwitch : Switch Setting :=
  ⟨"origin", none, .value false fun text => orBad .origin (parseAddress? text)⟩

/-- The switches of `run`. -/
def runSwitches : List (Switch Setting) :=
  [⟨"speed", some 's', .value false fun text => orBad .speed (Decimal.read? text.toList)⟩,
    ⟨"machine", none, .value false fun text => orBad .machine (Config.parse text).toOption⟩,
    ⟨"break", some 'b', .value true fun text => .ok (.breakAt text)⟩,
    ⟨"timeout", some 't', .value false fun text =>
      orBad .timeout (Numeral.readSigned 10 Numeral.wordMax text.toList).toOption⟩,
    ⟨"minimal", some 'm', .flag .minimal⟩, originSwitch, help]

/-- Put a setting into the options. -/
def applyTo (o : RunOptions) : Setting → RunOptions
  | speed v => { o with speed := v }
  | machine c => { o with machine := c }
  | breakAt target => { o with breakpoints := o.breakpoints ++ [target] }
  | timeout ms => { o with timeout := some ms }
  | minimal => { o with minimal := true }
  | origin a => { o with origin := some a }
  | path _ => o

def path? : Setting → Option String
  | path p => some p
  | _ => none

def origin? : Setting → Option UInt16
  | origin a => some a
  | _ => none

end Setting

namespace Invocation

/-- The commands that can be named. -/
inductive Verb where
  | run
  | compile
  | check
  | help
deriving DecidableEq, Repr

def Verb.text : Verb → String
  | .run => "run"
  | .compile => "compile"
  | .check => "check"
  | .help => "help"

def Verb.all : List Verb := [.run, .compile, .check, .help]

def Verb.ofText? (text : String) : Option Verb := Verb.all.find? fun v => v.text = text

/-- The grammar in front of a subcommand. -/
def grammar : Grammar Setting :=
  ⟨[Setting.help, ⟨"version", some 'V', .version⟩], Setting.readPath, 0, 1,
    Verb.all.map Verb.text⟩

/-- The grammar behind a subcommand. -/
def Verb.grammar : Verb → Grammar Setting
  | .run => ⟨Setting.runSwitches, Setting.readPath, 1, 1, []⟩
  | .compile => ⟨[Setting.originSwitch, Setting.help], Setting.readPath, 1, 2, []⟩
  | .check => ⟨[Setting.originSwitch, Setting.help], Setting.readPath, 1, 1, []⟩
  | .help => ⟨[], Setting.readPath, 0, 0, []⟩

/-- The invocation for the settings behind a subcommand. -/
def ofSettings (settings positionals : List Setting) : Verb → Option Invocation
  | .run =>
      positionals.head?.bind Setting.path? |>.map fun p =>
        .run p (settings.foldl Setting.applyTo RunOptions.standard)
  | .compile =>
      positionals.head?.bind Setting.path? |>.map fun p =>
        .compile p (positionals[1]?.bind Setting.path?) (settings.findSome? Setting.origin?)
  | .check =>
      positionals.head?.bind Setting.path? |>.map fun p =>
        .check p (settings.findSome? Setting.origin?)
  | .help => none

/-- Ask for help, on one command if it is named. No command has commands of its own. -/
def readHelp : List String → UsageError
  | [] => .helpRequested
  | [name] => if (Verb.ofText? name).isSome then .helpRequested else .invalidSubcommand
  | _ => .invalidSubcommand

/-- Read the arguments behind a subcommand. -/
def readVerb (verb : Verb) (args : List String) : Except UsageError Invocation := do
  if verb = .help then throw (readHelp args)
  let (reading, _) ← verb.grammar.readArguments .start args
  let (settings, positionals) ← verb.grammar.conclude reading
  match ofSettings settings positionals verb with
  | some invocation => return invocation
  | none => throw .missingArgument

/-- Read the arguments of the command line. -/
def read (args : List String) : Except UsageError Invocation := do
  let (reading, sub) ← grammar.readArguments .start args
  match sub with
  | some (name, rest) =>
      match Verb.ofText? name with
      | some verb =>
          let invocation ← readVerb verb rest
          let _ ← grammar.conclude reading
          return invocation
      | none => throw .invalidSubcommand
  | none =>
      let (_, positionals) ← grammar.conclude reading
      match positionals.head?.bind Setting.path? with
      | some path => return .run path RunOptions.standard
      | none => return .welcome

end Invocation

end Chip8.Cli
