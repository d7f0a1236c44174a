/-! # Paths

Names of files. The parts of a path are separated by `/`; the name of the file is the last part, and
neither slashes nor `.` parts at the end count. The extension of a name is what follows its last
point, unless that is the first character. -/

namespace Chip8.Cli.Path

/-- The reversed path without the slashes and `.` parts at its end. -/
def trimReversed : List Char → List Char
  | '/' :: cs => trimReversed cs
  | '.' :: '/' :: cs => trimReversed cs
  | cs => cs

/-- The path in front of the last part, and the last part. -/
def splitLast (path : List Char) : List Char × List Char :=
  let r := trimReversed path.reverse
  ((r.dropWhile (· ≠ '/')).reverse, (r.takeWhile (· ≠ '/')).reverse)

/-- The name of the file. -/
def fileName? (path : List Char) : Option (List Char) :=
  let name := (splitLast path).2
  if name = [] ∨ name = ['.'] ∨ name = ['.', '.'] then none else some name

/-- A file name without its extension, and the extension. -/
def splitExtension (name : List Char) : List Char × Option (List Char) :=
  let r := name.reverse
  match r.dropWhile (· ≠ '.') with
  | [] => (name, none)
  | [_] => (name, none)
  | _ :: stem => (stem.reverse, some (r.takeWhile (· ≠ '.')).reverse)

/-- The extension of a path. -/
def extension? (path : List Char) : Option (List Char) :=
  (fileName? path).bind fun name => (splitExtension name).2

/-- The path with its extension replaced, or with one added. A path that names no file stays as it
is. -/
def withExtension (path extension : List Char) : List Char :=
  match fileName? path with
  | none => path
  | some name => (splitLast path).1 ++ (splitExtension name).1 ++ ['.'] ++ extension

/-- The parts of a path that lead somewhere. -/
def parts (path : List Char) : List (List Char) :=
  (path.splitOn '/').filter fun part => part ≠ [] ∧ part ≠ ['.']

/-- What the end of a path says about what it names. -/
inductive Tail where
  /-- The path ends with the name. -/
  | name
  /-- Slashes follow the name: it has to be a directory. -/
  | slash
  /-- A `.` part follows the name: the path leads into it. -/
  | inside
deriving DecidableEq, Repr

/-- The end of a path. -/
def tail (path : List Char) : Tail :=
  let r := path.reverse.dropWhile (· = '/')
  if trimReversed r ≠ r then .inside else if path.getLast? = some '/' then .slash else .name

/-- What the extension says about a file. -/
inductive FileKind where
  | source
  | binary
deriving DecidableEq, Repr

/-- Why the kind of a file is not known. -/
inductive KindError where
  | unknownExtension
  | noExtension
deriving DecidableEq, Repr

def KindError.message : KindError → String
  | unknownExtension => "File has unknown extension. Exiting..."
  | noExtension => "File has no extension. Exiting..."

/-- The kind of the file at a path. -/
def kind (path : List Char) : Except KindError FileKind :=
  match extension? path with
  | none => .error .noExtension
  | some ext =>
      if ext ∈ ["c8s".toList, "asm".toList, "s".toList] then .ok .source
      else if ext ∈ ["ch8".toList, "c8".toList, "bin".toList] then .ok .binary
      else .error .unknownExtension

end Chip8.Cli.Path
