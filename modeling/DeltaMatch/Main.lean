import DeltaMatch.Command.Run

/-! The program: it carries out the action of its command line on real files. -/
namespace DeltaMatch

/-- Carries out an action and gives the exit status. -/
def perform : Command.Action → IO UInt32
  | .read path next => do
    match ← (IO.FS.readBinFile path).toBaseIO with
    | .ok content => perform (next content)
    | .error e => failWith (toString e)
  | .write path content next => do
    match ← (IO.FS.writeFile path content).toBaseIO with
    | .ok () => perform next
    | .error e => failWith (toString e)
  | .print text next => do
    IO.print text
    perform next
  | .done => return 0
  | .fail cause => do
    IO.eprintln ((if cause.isPanic then "panic: " else "error: ") ++ cause.message)
    return (Command.Ending.failure cause).status
where
  failWith (message : String) : IO UInt32 := do
    IO.eprintln ("error: " ++ message)
    return 1

end DeltaMatch

open DeltaMatch in
/-- Runs the program on its arguments. -/
def main (args : List String) : IO UInt32 :=
  match Command.Invocation.ofArgs args with
  | .rejected => do
    IO.eprintln "error: the arguments are not understood"
    return Command.Ending.usage.status
  | .version => do
    IO.print Command.versionLine
    return 0
  | .run format request => perform (request.action format)
