import DeltaMatch.Command.Action
import DeltaMatch.Command.Request
import DeltaMatch.DeltaJoin
import DeltaMatch.Plan.Json
import DeltaMatch.Graph.SnapshotJson
import DeltaMatch.Random.EdgeList
import DeltaMatch.Random.Words

/-! The commands, each as an action. -/
namespace DeltaMatch
namespace Command

/-! ## Printing -/

/-- Prints one line of JSON and goes on. -/
def printJson (v : Json) (next : Action) : Action := .print (v.render ++ "\n") next

/-- The JSON form of matches. -/
def tuplesJson (ts : List Tuple) : Json := .array (ts.map fun t => .array (t.map (.nat ·.toNat)))

/-- The JSON form of the variables of a pattern. -/
def varsJson (p : Pattern) : Json := .array (p.vars.map Json.text)

/-- One match as a line of columns. -/
def tupleLine (t : Tuple) : String := "\t".intercalate (t.map fun v => toString v.toNat) ++ "\n"

/-- A heading with the number of matches and their variables, and a line for each. -/
def tuplesText (p : Pattern) (heading : String) (ts : List Tuple) : String :=
  heading ++ " (" ++ toString ts.length ++ "): " ++ ", ".intercalate p.vars ++ "\n" ++
    String.join (ts.map tupleLine)

/-- The distinct codes of the labels of some edges, ascending. -/
def labelCodes (edges : List Edge) : List Int :=
  Join.firstOccurrences ((edges.map (·.label.code.toInt)).mergeSort)

/-- Numbers as a list in square brackets. -/
def listText (ns : List Int) : String := "[" ++ ", ".intercalate (ns.map toString) ++ "]"

/-! ## Reading -/

/-- Reads the snapshot in a file and goes on with its graph. -/
def openSnapshot (path : String) (next : Graph → Action) : Action :=
  .read path fun content =>
    match (String.fromUTF8? content).bind Snapshot.read? with
    | none => .fail .snapshot
    | some s =>
      match Graph.restore s with
      | .error e => .fail (.graph e)
      | .ok g => next g

/-- Reads a pattern and goes on with it. -/
def withPattern (specs : List String) (next : Pattern → Action) : Action :=
  match Pattern.ofSpecs specs with
  | .error (.spec e) => .fail (.spec e)
  | .error (.plan e) => .fail (.graph (.plan e))
  | .ok p => next p

/-- Makes an edit pending. -/
def applyEdit (g : Graph) (e : Edit) : Except CommandError Graph :=
  match Edge.ofSpec e.spec with
  | .error cause => .error (.spec cause)
  | .ok edge =>
    let result := match e.kind with
      | .add => g.add edge
      | .delete => g.delete edge
    match result with
    | .error cause => .error (.graph cause)
    | .ok (g, _) => .ok g

/-! ## The commands -/

/-- Writes a random edge table. -/
def generate (format : OutputFormat) (out : String) (vertices : UInt32) (edges : Nat)
    (edgeTypes : Int16) (seed : UInt64) : Action :=
  match Random.edgeList Random.Stream.word vertices edges edgeTypes (.ofSeed seed) with
  | none => .fail .exhausted
  | some (list, _) =>
    .write out (EdgeTable.write list) <|
      match format with
      | .text => .print ("wrote " ++ toString list.length ++ " edges -> " ++ out ++ "\n") .done
      | .json => printJson (.record [("edges", .nat list.length), ("out", .text out)]) .done

/-- Turns an edge table into a snapshot. Characters up to U+00FF count as single
bytes. -/
def importTable (format : OutputFormat) (table out : String) (layout : EdgeTable.Layout)
    (delimiter : Char) : Action :=
  if 255 < delimiter.toNat then .fail .delimiter
  else
    .read table fun content =>
      match EdgeTable.load { layout with delimiter := delimiter.toNat.toUInt8 }
          content.data.toList with
      | .error e => .fail (.table e)
      | .ok (g, summary) =>
        .write out g.snapshot.write <|
          match format with
          | .text =>
            .print ("imported " ++ toString summary.rows ++ " rows: " ++
              toString summary.edges ++ " edges over " ++ toString summary.vertexCount ++
              " vertices -> " ++ out ++ "\n") .done
          | .json =>
            printJson (.record [("edges", .nat summary.edges), ("rows", .nat summary.rows),
              ("snapshot", .text out), ("vertices", .nat summary.vertexCount)]) .done

/-- Summarizes a snapshot. -/
def stats (format : OutputFormat) (snapshot : String) : Action :=
  openSnapshot snapshot fun g =>
    let codes := labelCodes g.snapshot.edges
    match format with
    | .text =>
      .print ("vertices: " ++ toString g.permanentBound ++ "\nedges: " ++
        toString g.edgeCount ++ "\nedge types: " ++ listText codes ++ "\n") .done
    | .json =>
      printJson (.record [("edge_types", .array (codes.map Json.integer)),
        ("edges", .nat g.edgeCount), ("vertices", .nat g.permanentBound)]) .done

/-- The matches of a pattern in a graph, in the order of its variables, ascending. -/
def sortedMatches (p : Pattern) (g : Graph) (batchSize : Nat) :
    Except GraphError (List Tuple) :=
  match p.defaultPlan with
  | .error e => .error (.plan e)
  | .ok plan =>
    let run := plan.plan.execute g batchSize collectTuples #[]
    run.result.map fun _ => sortTuples (run.sink.toList.map plan.toDeclarationOrder)

/-- The number of matches of a pattern in a graph. -/
def countMatches (p : Pattern) (g : Graph) (batchSize : Nat) : Except GraphError Nat :=
  match p.defaultPlan with
  | .error e => .error (.plan e)
  | .ok plan =>
    let run := plan.plan.execute g batchSize countTuples {}
    run.result.map fun _ => run.sink.tuples

/-- Lists or counts the matches of a pattern. -/
def listMatches (format : OutputFormat) (r : PatternRequest) (countOnly : Bool) : Action :=
  openSnapshot r.snapshot fun g =>
    withPattern r.specs fun p =>
      if countOnly then
        match countMatches p g r.batchSize with
        | .error e => .fail (.graph e)
        | .ok n =>
          match format with
          | .text => .print (toString n ++ "\n") .done
          | .json => printJson (.record [("count", .nat n)]) .done
      else
        match sortedMatches p g r.batchSize with
        | .error e => .fail (.graph e)
        | .ok rows =>
          match format with
          | .text => .print (tuplesText p "matches" rows) .done
          | .json => printJson (.record [("matches", tuplesJson rows), ("vars", varsJson p)]) .done

/-- Lists how the matches change under edits. When the edits are to be kept, the
snapshot is written after the changes are printed. -/
def delta (format : OutputFormat) (r : PatternRequest) (edits : List Edit) (commit : Bool) :
    Action :=
  openSnapshot r.snapshot fun g =>
    withPattern r.specs fun p =>
      match edits.foldlM applyEdit g with
      | .error e => .fail e
      | .ok g =>
        match p.collectDelta g r.batchSize with
        | .error e => .fail (.graph e)
        | .ok changes =>
          let finish : Action :=
            if commit then .write r.snapshot g.commit.1.snapshot.write .done else .done
          match format with
          | .text =>
            .print (tuplesText p "emerged" changes.emerged ++
              tuplesText p "deleted" changes.deleted) finish
          | .json =>
            printJson (.record [("deleted", tuplesJson changes.deleted),
              ("emerged", tuplesJson changes.emerged), ("vars", varsJson p)]) finish

/-- The action of a request. -/
def Request.action (format : OutputFormat) : Request → Action
  | .generate out vertices edges edgeTypes seed =>
    Command.generate format out vertices edges edgeTypes seed
  | .importTable table out layout delimiter =>
    Command.importTable format table out layout delimiter
  | .stats snapshot => Command.stats format snapshot
  | .listMatches pattern countOnly => Command.listMatches format pattern countOnly
  | .delta pattern edits commit => Command.delta format pattern edits commit

/-- The line that names the program and its version. -/
def versionLine : String := "graphflow 0.1.0\n"

/-- How the program ends: with a status of 0, of 1 and a failure, of 2 when its
arguments are not understood, or of 101 when it panics. -/
inductive Ending where
  | success
  | failure (cause : CommandError)
  | usage
  deriving DecidableEq

/-- The exit status. -/
def Ending.status : Ending → UInt32
  | success => 0
  | failure cause => if cause.isPanic then 101 else 1
  | usage => 2

/-- Carries out a whole command line in a directory. -/
def runIn (d : Directory) (args : List String) : Directory × String × Ending :=
  match Invocation.ofArgs args with
  | .rejected => (d, "", .usage)
  | .version => (d, versionLine, .success)
  | .run format request =>
    let after := (request.action format).runIn d ""
    (after.directory, after.output, (after.failure.map Ending.failure).getD .success)

end Command
end DeltaMatch
