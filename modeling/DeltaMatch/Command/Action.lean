import DeltaMatch.EdgeTable

/-! Actions: what a command does to files and to its output, as data. An action is
carried out on real files by the program and on a pure directory here. -/
namespace DeltaMatch
namespace Command

/-- Why a command fails. -/
inductive CommandError where
  /-- A file cannot be read or written. -/
  | file (path : String)
  /-- A snapshot file holds no snapshot. -/
  | snapshot
  /-- The delimiter is not a single byte. -/
  | delimiter
  /-- The drawing of random edges reaches its limit. -/
  | exhausted
  | spec (cause : SpecError)
  | table (cause : TableError)
  | graph (cause : GraphError)
  deriving DecidableEq

namespace CommandError

/-- Whether the cause is not reported but ends the program. -/
def isPanic : CommandError → Bool
  | graph cause => cause.isPanic
  | _ => false

/-- The wording of the cause. -/
def message : CommandError → String
  | file path => "cannot access '" ++ path ++ "'"
  | snapshot => "invalid snapshot"
  | delimiter => "delimiter must be a single-byte character"
  | exhausted => "random source exhausted"
  | spec cause => cause.message
  | table cause => cause.message
  | graph cause => cause.message

end CommandError

/-- A sequence of effects. -/
inductive Action where
  /-- Read a whole file and go on with its bytes. -/
  | read (path : String) (next : ByteArray → Action)
  /-- Replace a whole file. -/
  | write (path : String) (content : String) (next : Action)
  /-- Print a text. -/
  | print (text : String) (next : Action)
  | done
  | fail (cause : CommandError)

/-- A flat directory of named files. -/
structure Directory where
  files : List (String × ByteArray)

namespace Directory

/-- The name that a relative path has in a flat directory, in which a path may step
to the directory itself before it names a file. -/
def nameOf? (path : String) : Option String :=
  match path.toList.splitOn '/' with
  | [] :: _ => none
  | steps =>
    match steps.dropWhile fun step => step = [] ∨ step = ['.'] with
    | [name] => if name = ['.', '.'] then none else some (String.ofList name)
    | _ => none

/-- The bytes of a file. -/
def read? (d : Directory) (path : String) : Option ByteArray :=
  (nameOf? path).bind fun name => d.files.lookup name

/-- Replaces a file or adds it at the end. -/
def put (d : Directory) (name : String) (content : ByteArray) : Directory :=
  if d.files.any (·.1 == name) then
    ⟨d.files.map fun f => if f.1 == name then (name, content) else f⟩
  else ⟨d.files ++ [(name, content)]⟩

/-- Writes a file, unless the path leads out of the directory. -/
def write? (d : Directory) (path content : String) : Option Directory :=
  (nameOf? path).map fun name => d.put name content.toUTF8

end Directory

/-- What an action leaves behind in a directory. -/
structure Aftermath where
  directory : Directory
  output : String
  failure : Option CommandError

namespace Action

/-- Carries out an action in a directory, stopping at the first file that cannot be
read or written. -/
def runIn : Action → Directory → String → Aftermath
  | read path next, d, output =>
    match d.read? path with
    | some content => (next content).runIn d output
    | none => ⟨d, output, some (.file path)⟩
  | write path content next, d, output =>
    match d.write? path content with
    | some d => next.runIn d output
    | none => ⟨d, output, some (.file path)⟩
  | print text next, d, output => next.runIn d (output ++ text)
  | done, d, output => ⟨d, output, none⟩
  | fail cause, d, output => ⟨d, output, some cause⟩

end Action
end Command
end DeltaMatch
