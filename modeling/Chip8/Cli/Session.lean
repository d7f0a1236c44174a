import Chip8.Cli.Headless
import Chip8.Cli.Path
import Chip8.Cli.Target

/-! # Sessions

What an invocation does with the content of the file that it names: what it prints, what it saves,
and how it ends. -/

namespace Chip8.Cli

/-- Why a file cannot be read or written. -/
inductive FileError where
  | notFound
  | notDirectory
  | isDirectory
  /-- The content is no text. -/
  | notText
  | other (message : String)
deriving DecidableEq, Repr

def FileError.message : FileError → String
  | notFound => "No such file or directory (os error 2)"
  | notDirectory => "Not a directory (os error 20)"
  | isDirectory => "Is a directory (os error 21)"
  | notText => "stream did not contain valid UTF-8"
  | other message => message

/-- How an invocation ends. -/
inductive Ending where
  | done
  | failed (message : String)
  /-- A file has to be saved; if that succeeds something more is printed. -/
  | save (path : String) (bytes : List UInt8) (report : String)
deriving DecidableEq, Repr

/-- What an invocation does. -/
structure Session where
  /-- What is printed. -/
  output : String
  /-- What is noted beside the output. -/
  notices : List Notice
  ending : Ending

namespace Session

/-- A line of two columns. -/
def line (left right : String) : String := Numeral.field 12 left ++ " " ++ right ++ "\n"

/-- A line about a file. -/
def fileLine (left path : String) : String := line left ("target " ++ path)

/-- Print something first. -/
def printing (output : String) (s : Session) : Session := { s with output := output ++ s.output }

/-- Note something first. -/
def noting (notices : List Notice) (s : Session) : Session :=
  { s with notices := notices ++ s.notices }

def failure (message : String) : Session := ⟨"", [], .failed message⟩

/-- The category of a diagnostic. -/
def category : Asm.Severity → Category
  | .error => .error
  | .warning => .warning
  | .advice => .info

/-- A diagnostic as a notice. -/
def noticeOf (path : String) (d : Asm.Diagnostic) : Notice :=
  ⟨.always, category d.severity, path ++ ":" ++ Numeral.decimal d.span.start ++ ": " ++ d.cause.text ++
    " (" ++ d.cause.code ++ ")\n"⟩

/-- Assemble a source file and go on with the program. -/
def withProgram (path : String) (origin : UInt16) (content : Except FileError (List UInt8))
    (next : Asm.Program → Session) : Session :=
  match content with
  | .error err => failure err.message
  | .ok bytes =>
      match String.fromUTF8? ⟨bytes.toArray⟩ with
      | none => failure FileError.notText.message
      | some source =>
          match Asm.assemble source origin with
          | .ok p => (next p).noting (p.notes.map (noticeOf path))
          | .error ds =>
              (failure ("Assembly failed with " ++
                Numeral.decimal (ds.countP Asm.Diagnostic.isError) ++ " error(s)")).noting
                (ds.map (noticeOf path))

/-- What is printed about the end of a run, and how the session ends. -/
def conclusion (path : String) (change : Option StateChange) : String × Ending :=
  match change with
  | some ⟨_, _, _, some fault⟩ => ("", .failed ("Execution stopped: " ++ fault.message))
  | some ⟨_, .stoppedBreakpoint, pc, _⟩ =>
      (line "Breakpoint" ("0x" ++ Numeral.hex 3 pc.toNat), .done)
  | _ => (fileLine "Completed" path, .done)

/-- Run a program and print the registers and the screen. -/
def ofRun (path : String) (minimal : Bool) (job : Job) : Session :=
  match job.run with
  | .error refusal => failure refusal.message
  | .ok r =>
      let (last, ending) := conclusion path r.change
      let unlessMinimal (text : String) : String := if minimal then "" else text
      ⟨unlessMinimal (line "Running" "emitted binary") ++ r.machine.registersText minimal ++
        r.frame.text minimal ++ unlessMinimal last, r.notices, ending⟩

/-- The breakpoints for all targets, or what is wrong with the first one that has none. -/
def resolveTargets (program : Option Asm.Program) :
    List String → Except TargetError (List Breakpoint)
  | [] => .ok []
  | t :: ts => do
      let b ← resolveTarget program t
      let bs ← resolveTargets program ts
      return b :: bs

/-- Run a source or binary file. -/
def run (path : String) (o : RunOptions) (traces : Bool)
    (content : Except FileError (List UInt8)) : Session :=
  let origin := o.origin.getD o.machine.loadAddress
  let go (bytes : List UInt8) (program : Option Asm.Program) : Session :=
    match resolveTargets program o.breakpoints with
    | .error err => failure err.message
    | .ok bs => ofRun path o.minimal ⟨o.machine, o.speed, origin, bytes, bs, o.timeout, traces⟩
  match Path.kind path.toList with
  | .error err => failure err.message
  | .ok .source =>
      (withProgram path origin content fun p => go p.bytes (some p)).printing
        (if o.minimal then "" else fileLine "Assembling" path)
  | .ok .binary =>
      match content with
      | .error err => failure err.message
      | .ok bytes => go bytes none

/-- Assemble a source file into a binary file. -/
def compile (path : String) (dest : Option String) (origin : UInt16)
    (content : Except FileError (List UInt8)) : Session :=
  let dest := dest.getD (String.ofList (Path.withExtension path.toList "ch8".toList))
  (withProgram path origin content fun p =>
    ⟨"", [], .save dest p.bytes
      (line "Finished" (Numeral.decimal p.bytes.length ++ " bytes") ++ fileLine "Saved" dest)⟩)
    |>.printing (fileLine "Assembling" path)

/-- Assemble a source file to see what is wrong with it. -/
def check (path : String) (origin : UInt16) (content : Except FileError (List UInt8)) : Session :=
  (withProgram path origin content fun _ => ⟨line "Success" "no errors found!", [], .done⟩)
    |>.printing (fileLine "Checking" path)

/-- What is printed if nothing is asked for. -/
def greeting : String :=
  "\n~ chisel v0.1.0 ~\n\n" ++
    "Welcome to chisel, a toolchain for assembling and running CHIP-8 programs.\n" ++
    "Please use `-h` or `--help` to access the usage instructions and documentation.\n\n"

/-- The address that source files are assembled for. -/
def defaultOrigin : UInt16 := Config.standard.loadAddress

end Session

namespace Invocation

/-- The path of the file that is read. -/
def input? : Invocation → Option String
  | welcome => none
  | run path _ | compile path _ _ | check path _ => some path

/-- Carry out an invocation, given the content of the file that is read. -/
def perform (traces : Bool) (content : Except FileError (List UInt8)) : Invocation → Session
  | welcome => ⟨Session.greeting, [], .done⟩
  | run path options => Session.run path options traces content
  | compile path dest origin =>
      Session.compile path dest (origin.getD Session.defaultOrigin) content
  | check path origin => Session.check path (origin.getD Session.defaultOrigin) content

end Invocation

end Chip8.Cli
