import Chip8.Cli.Directory

/-! # Command line

Carries out the command line in the directory where the program is started. What is printed goes to
the standard output, notices and errors go to the standard error. `CHIP8_TRACE=1` asks for a notice
about every instruction. -/

namespace Chip8.Cli

/-- What went wrong with a file. -/
def fileError : IO.Error → FileError
  | .noFileOrDirectory .. => .notFound
  | .inappropriateType .. => .isDirectory
  | e => .other (toString e)

def readFile (path : String) : IO (Except FileError (List UInt8)) := do
  try
    return .ok (← IO.FS.readBinFile path).toList
  catch e => return .error (fileError e)

def writeFile (path : String) (bytes : List UInt8) : IO (Except FileError Unit) := do
  try
    IO.FS.writeBinFile path ⟨bytes.toArray⟩
    return .ok ()
  catch e => return .error (fileError e)

/-- What is said about arguments that are not carried out. -/
def usageText : UsageError → String
  | .unknownArgument => "unexpected argument"
  | .invalidSubcommand => "unrecognized subcommand"
  | .missingArgument => "a required argument is missing"
  | .emptyValue => "a value is missing"
  | .badValue => "a value cannot be read"
  | .unneededValue => "a value is given where none is taken"
  | .repeated => "an argument is given twice"
  | .helpRequested => "commands: run, compile, check, help"
  | .versionRequested => "chisel 0.1.0"

/-- Whether an invocation wants nothing but its result. -/
def isMinimal : Invocation → Bool
  | .run _ options => options.minimal
  | _ => false

/-- Carry out an invocation. -/
def carryOut (invocation : Invocation) : IO Exit := do
  let traces := (← IO.getEnv "CHIP8_TRACE") == some "1"
  let content ← match invocation.input? with
    | some path => readFile path
    | none => pure (.ok [])
  let session := invocation.perform traces content
  for notice in session.notices do
    IO.eprint (notice.render (isMinimal invocation) false)
  IO.print session.output
  match session.ending with
  | .done => return .success
  | .failed message => return .failure message
  | .save path bytes report =>
      match ← writeFile path bytes with
      | .ok () =>
          IO.print report
          return .success
      | .error e => return .failure e.message

end Chip8.Cli

open Chip8.Cli in
/-- The program. -/
def main (args : List String) : IO UInt32 := do
  let exit ← match Invocation.read args with
    | .ok invocation => carryOut invocation
    | .error e => pure (.usage e)
  match exit with
  | .success => pure ()
  | .failure message => IO.eprintln ("Error: " ++ message)
  | .usage e => IO.eprintln (usageText e)
  return exit.code.toUInt32
