import Chip8.Cli.Session

/-! # Directories

A directory of files held in memory, and what an invocation does in it. -/

namespace Chip8.Cli

/-- The files of a directory without subdirectories. -/
structure Directory where
  files : List (String × List UInt8)
deriving DecidableEq, Repr

namespace Directory

/-- The content of the file of a name. -/
def get? (d : Directory) (name : String) : Option (List UInt8) :=
  (d.files.find? fun (n, _) => n = name).map Prod.snd

/-- Put a file into the directory in the place of one of the same name. -/
def put (d : Directory) (name : String) (bytes : List UInt8) : Directory :=
  ⟨d.files.filter (·.1 ≠ name) ++ [(name, bytes)]⟩

/-- Where a path leads: to a name in the directory, or to something else. -/
def locate (d : Directory) (path : String) : Except FileError String :=
  if path.isEmpty then .error .notFound
  else
    match Path.parts path.toList with
    | [] => .error .isDirectory
    | [part] =>
        if path.startsWith "/" then .error .notFound
        else if part = ['.', '.'] then .error .isDirectory
        else .ok (String.ofList part)
    | part :: _ =>
        if (d.get? (String.ofList part)).isSome then .error .notDirectory else .error .notFound

/-- Read the file at a path. -/
def read (d : Directory) (path : String) : Except FileError (List UInt8) := do
  let name ← d.locate path
  match d.get? name with
  | none => throw .notFound
  | some bytes => if Path.tail path.toList = .name then return bytes else throw .notDirectory

/-- Write the file at a path. A name with slashes behind it is never made a file. -/
def write (d : Directory) (path : String) (bytes : List UInt8) : Except FileError Directory := do
  let name ← d.locate path
  match Path.tail path.toList with
  | .name => return d.put name bytes
  | .slash => throw .isDirectory
  | .inside => throw (if (d.get? name).isSome then .notDirectory else .notFound)

end Directory

/-- How the program ended. -/
inductive Exit where
  | success
  | failure (message : String)
  | usage (e : UsageError)
deriving DecidableEq, Repr

/-- The exit code. Asking for help or the version is no mistake. -/
def Exit.code : Exit → Nat
  | success => 0
  | failure _ => 1
  | usage .helpRequested | usage .versionRequested => 0
  | usage _ => 2

/-- Carry out a command line in a directory: what is printed, how it ends, and what the directory
holds then. -/
def Directory.execute (d : Directory) (args : List String) : String × Exit × Directory :=
  match Invocation.read args with
  | .error e => ("", .usage e, d)
  | .ok invocation =>
      let content := d.read (invocation.input?.getD "")
      let session := invocation.perform false content
      match session.ending with
      | .done => (session.output, .success, d)
      | .failed message => (session.output, .failure message, d)
      | .save path bytes report =>
          match d.write path bytes with
          | .ok d => (session.output ++ report, .success, d)
          | .error e => (session.output, .failure e.message, d)

end Chip8.Cli
