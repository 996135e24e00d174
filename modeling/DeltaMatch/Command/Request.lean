import DeltaMatch.Command.Options
import DeltaMatch.EdgeTable
import DeltaMatch.Join

/-! Requests: what a command line asks for. -/
namespace DeltaMatch
namespace Command

/-- How results are printed. -/
inductive OutputFormat where
  | text
  | json
  deriving DecidableEq

/-- Reads the name of an output format. -/
def OutputFormat.ofName? : String → Option OutputFormat
  | "text" => some .text
  | "json" => some .json
  | _ => none

/-- Whether an edit adds or deletes its edge. -/
inductive EditKind where
  | add
  | delete
  deriving DecidableEq

/-- An edit of a graph, its edge as it was written. -/
structure Edit where
  kind : EditKind
  spec : String
  deriving DecidableEq

/-- The pattern that a request asks for and the file of the graph. -/
structure PatternRequest where
  snapshot : String
  specs : List String
  batchSize : Nat

/-- The commands with their options. -/
inductive Request where
  /-- Write a random edge table. -/
  | generate (out : String) (vertices : UInt32) (edges : Nat) (edgeTypes : Int16)
      (seed : UInt64)
  /-- Turn an edge table into a snapshot. The delimiter is still a character. -/
  | importTable (table out : String) (layout : EdgeTable.Layout) (delimiter : Char)
  /-- Summarize a snapshot. -/
  | stats (snapshot : String)
  /-- List or count the matches of a pattern. -/
  | listMatches (pattern : PatternRequest) (countOnly : Bool)
  /-- List how the matches change under edits, and perhaps keep the edits. -/
  | delta (pattern : PatternRequest) (edits : List Edit) (commit : Bool)

/-! ## Values of options -/

/-- Whether a path is not empty. -/
def isPath (value : String) : Bool := !value.isEmpty

/-- Reads a 64-bit number without a sign. -/
def number? (value : String) : Option Nat := Numeral.word64? value.toList

/-- Reads a number between two bounds, both included. A sign is allowed. -/
def numberIn? (low high : Int) (value : String) : Option Int :=
  Numeral.integer? low high value.toList

/-- Reads a 32-bit number; zero may have a minus sign. -/
def word32? (value : String) : Option UInt32 :=
  (numberIn? 0 (UInt32.size - 1) value).map fun n => UInt32.ofNat n.toNat

/-- Reads a signed 16-bit number. -/
def int16? (value : String) : Option Int16 := Numeral.int16? value.toList

/-- Reads a single character. -/
def char? (value : String) : Option Char :=
  match value.toList with
  | [c] => some c
  | _ => none

/-! ## Options of the commands -/

/-- The option for the output format, which every command has. -/
def formatOption : OptionForm :=
  { name := "format", accepts := fun v => (OutputFormat.ofName? v).isSome }

/-- A required option for a path. -/
def pathOption (name : String) : OptionForm :=
  { name, required := true, accepts := isPath }

/-- The options of random tables. -/
def generateOptions : List OptionForm :=
  [formatOption, pathOption "out",
    { name := "vertices", accepts := fun v => (word32? v).isSome },
    { name := "edges", accepts := fun v => (number? v).isSome },
    { name := "edge-types", accepts := fun v => (int16? v).isSome },
    { name := "seed", accepts := fun v => (number? v).isSome }]

/-- The options of imports. -/
def importOptions : List OptionForm :=
  [formatOption, pathOption "edges", pathOption "out",
    { name := "from-column" }, { name := "to-column" }, { name := "type-column" },
    { name := "vertex-count", accepts := fun v => (number? v).isSome },
    { name := "delimiter", accepts := fun v => (char? v).isSome }]

/-- The options of summaries. -/
def statsOptions : List OptionForm := [formatOption, pathOption "snapshot"]

/-- The options that describe a pattern. -/
def patternOptions : List OptionForm :=
  [formatOption, pathOption "snapshot",
    { name := "edge", required := true, repeatable := true },
    { name := "batch-size", accepts := fun v => (number? v).isSome }]

/-- The options of matches. -/
def matchOptions : List OptionForm :=
  patternOptions ++ [{ name := "count", takesValue := false }]

/-- The options of deltas. -/
def deltaOptions : List OptionForm :=
  patternOptions ++
    [{ name := "add", repeatable := true }, { name := "delete", repeatable := true },
      { name := "commit", takesValue := false }]

/-! ## Requests from options -/

/-- The value of a path option. -/
def pathOf (given : List Given) (name : String) : String := (Given.valueOf? given name).getD ""

/-- The value of an option that is read by a function, or the value it has when it
is not given. -/
def valueOr {α : Type} (given : List Given) (name : String) (read? : String → Option α)
    (absent : α) : α :=
  ((Given.valueOf? given name).bind read?).getD absent

/-- The pattern that options describe. -/
def patternOf (given : List Given) : PatternRequest where
  snapshot := pathOf given "snapshot"
  specs := Given.valuesOf given "edge"
  batchSize := valueOr given "batch-size" number? defaultBatchSize

/-- What is told of a repeatable option: its values in the order in which they are given, and
their positions on the command line. -/
structure Occurrences where
  values : List String
  positions : List Nat

/-- The occurrences of an option. -/
def occurrencesOf (given : List Given) (name : String) : Occurrences :=
  ⟨Given.valuesOf given name, Given.positionsOf given name⟩

/-- The edits of one kind, each with its position. Where none is told, positions count on from a
number. -/
def placedEdits (kind : EditKind) (o : Occurrences) (start : Nat) : List (Nat × Edit) :=
  o.values.mapIdx fun i spec => (o.positions.getD i (start + i), ⟨kind, spec⟩)

/-- The edits of both kinds by their positions. -/
def orderedEdits (adds deletes : Occurrences) : List Edit :=
  let placed := placedEdits .add adds 0 ++ placedEdits .delete deletes adds.values.length
  (placed.mergeSort fun a b => a.1 ≤ b.1).map (·.2)

/-- The request for a random table. -/
def generateOf (given : List Given) : Request :=
  .generate (pathOf given "out") (valueOr given "vertices" word32? 1000)
    (valueOr given "edges" number? 10000) (valueOr given "edge-types" int16? 1)
    (UInt64.ofNat (valueOr given "seed" number? 42))

/-- The request for an import. -/
def importOf (given : List Given) : Request :=
  .importTable (pathOf given "edges") (pathOf given "out")
    { sourceColumn := valueOr given "from-column" some "from"
      targetColumn := valueOr given "to-column" some "to"
      labelColumn := Given.valueOf? given "type-column"
      vertexCount := (Given.valueOf? given "vertex-count").bind number? }
    (valueOr given "delimiter" char? ',')

/-- The request for a summary. -/
def statsOf (given : List Given) : Request := .stats (pathOf given "snapshot")

/-- The request for matches. -/
def matchOf (given : List Given) : Request :=
  .listMatches (patternOf given) (Given.has given "count")

/-- The request for a delta. -/
def deltaOf (given : List Given) : Request :=
  .delta (patternOf given)
    (orderedEdits (occurrencesOf given "add") (occurrencesOf given "delete"))
    (Given.has given "commit")

/-- The options of a command and the request they make up. -/
def commandNamed? : String → Option (List OptionForm × (List Given → Request))
  | "generate" => some (generateOptions, generateOf)
  | "import" => some (importOptions, importOf)
  | "stats" => some (statsOptions, statsOf)
  | "match" => some (matchOptions, matchOf)
  | "delta" => some (deltaOptions, deltaOf)
  | _ => none

/-! ## Command lines -/

/-- What a command line amounts to. -/
inductive Invocation where
  /-- Carry out a request. -/
  | run (format : OutputFormat) (request : Request)
  /-- Print the version. -/
  | version
  /-- The arguments are not understood. -/
  | rejected

/-- The command line after the name of a command. An output format given here wins
over one given before. -/
def commandLine (before : Option String) (command : List OptionForm × (List Given → Request))
    (args : List String) : Invocation :=
  match readOptions command.1 args with
  | none => .rejected
  | some given =>
    let format := (Given.valueOf? given "format").or before
    .run ((format.bind OutputFormat.ofName?).getD .text) (command.2 given)

/-- The whole command line, of which the options before the command are taken one by
one. A request for the version is answered at once, whatever follows. -/
def parseArgs (before : Option String) : List String → Invocation
  | [] => .rejected
  | arg :: rest =>
    match commandNamed? arg, longOption? arg, arg.toList with
    | some command, _, _ => commandLine before command rest
    | none, some ("version", none), _ => .version
    | none, some ("format", some value), _ =>
      if before.isNone && (OutputFormat.ofName? value).isSome then parseArgs (some value) rest
      else .rejected
    | none, some ("format", none), _ =>
      match rest with
      | [] => .rejected
      | value :: rest =>
        if before.isNone && (OutputFormat.ofName? value).isSome then parseArgs (some value) rest
        else .rejected
    | none, none, '-' :: 'V' :: _ => .version
    | _, _, _ => .rejected

/-- What the arguments of the program amount to. -/
def Invocation.ofArgs (args : List String) : Invocation := parseArgs none args

end Command
end DeltaMatch
