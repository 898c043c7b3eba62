import TypeFlow.Catalog.Codec
import TypeFlow.Command.Arguments
import TypeFlow.Command.Files
import TypeFlow.Command.Handle
import TypeFlow.Command.Help
import TypeFlow.Command.Report
import TypeFlow.Graph.Codec

/-!
# Running commands

A command reads its files, catalogs first, then does its work and ends with an
exit code: 0 when all is well, 1 after an error or when a node or an edge is not
valid, and 2 when the arguments are wrong.
-/

namespace TypeFlow

/-- Why a command has no result. -/
inductive CommandError where
  /-- A pattern of files is wrong. -/
  | pattern (text : String) (error : PatternError)
  /-- No file fits a pattern. -/
  | noFiles (pattern : String)
  | catalog (error : CatalogError)
  /-- A file other than a catalog cannot be read. -/
  | unreadable (content path reason : String)
  /-- A file other than a catalog cannot be decoded. -/
  | file (content path : String) (error : ParseError)
  /-- A reported output type has no value. -/
  | narrowing (node : NodeId) (output : OutputId) (error : EvalError)
  | handle (error : HandleError)
  /-- An input has an edge already. -/
  | connected (handle : String)
  /-- An expression cannot be decoded. -/
  | expression (error : ParseError)
  /-- An expression has no value. -/
  | evaluation (error : EvalError)

/-- The cause below an error of a catalog. -/
def CatalogError.cause? : CatalogError → Option String
  | .unreadable _ reason => some reason
  | .file _ e => some e.message
  | .variable _ e | .schema _ e => some e.message
  | .parse _ | .definition _ | .repeatedSchema _ => none

/-- What is said about a failed command: the error, and after a colon its cause. -/
def CommandError.message : CommandError → String
  | .pattern text e => "invalid glob pattern: " ++ text ++ ": " ++ e.message
  | .noFiles text => "glob pattern matched no files: " ++ text
  | .catalog e => e.message ++ e.cause?.elim "" (": " ++ ·)
  | .unreadable content path reason => "failed to read " ++ content ++ " " ++ path ++ ": " ++ reason
  | .file content path e => "failed to parse " ++ content ++ " " ++ path ++ ": " ++ e.message
  | .narrowing node output e => "narrowing for " ++ node ++ ":" ++ output.repr ++ ": " ++ e.message
  | .handle e => e.message
  | .connected text => "input " ++ text ++ " is already connected"
  | .expression e => e.message
  | .evaluation e => e.message

/-- How a command ends. -/
structure Outcome where
  exit : Nat
  /-- What is printed. -/
  output : String
  /-- What is printed about an error. -/
  error : Option String
  deriving DecidableEq

namespace Outcome

/-- The end of a command that has a result. -/
def done (valid : Bool) (output : String) : Outcome := ⟨if valid then 0 else 1, output, none⟩

/-- The end of a command that ends for good, after some output. -/
def broken (output : String) : Outcome := ⟨101, output, none⟩

/-- The end of a command that has no result. -/
def stopped : Halt CommandError → Outcome
  | .error e => ⟨1, "", some ("error: " ++ e.message)⟩
  | .fatal _ => broken ""

end Outcome

namespace Command

variable {m : Type → Type} [Monad m]

/-- A part of a command. -/
abbrev Task (m : Type → Type) (α : Type) := ExceptT (Halt CommandError) m α

/-- A part that reads nothing. -/
def pureTask {α : Type} (run : Run CommandError α) : Task m α := ExceptT.mk (pure run)

/-- Files of a list of paths and patterns. -/
def paths (access : FileAccess m) (arguments : List String) : Task m (List String) :=
  arguments.flatMapM fun argument => do
    if Pattern.isMeant argument then
      match ← access.expand argument with
      | .error e => throw (.error (.pattern argument e))
      | .ok [] => throw (.error (.noFiles argument))
      | .ok found => return found
    else return [argument]

/-- A catalog file. -/
def catalogFile (access : FileAccess m) (path : String) : Task m CatalogFile := do
  match ← access.read path with
  | .error reason => throw (.error (.catalog (.unreadable path reason)))
  | .ok text =>
    pureTask (Run.ofExcept ((CatalogFile.decoder.parse text).mapError fun e =>
      .catalog (.file path e)))

/-- The catalog of some files. -/
def catalog (access : FileAccess m) (arguments : List String) : Task m Catalog := do
  let files ← (← paths access arguments).mapM (catalogFile access)
  pureTask ((Catalog.ofFiles files).mapError .catalog)

/-- A file other than a catalog. -/
def document {α : Type} (access : FileAccess m) (content : String) (decoder : Decoder α)
    (path : String) : Task m α := do
  match ← access.read path with
  | .error reason => throw (.error (.unreadable content path reason))
  | .ok text => pureTask (Run.ofExcept ((decoder.parse text).mapError (.file content path)))

/-- A graph. -/
def graph (access : FileAccess m) (path : String) : Task m Snapshot :=
  document access "graph" Snapshot.decoder path

/-- Reported output types. -/
def narrowing (access : FileAccess m) (scope : Scope) : Option String → Task m Narrowing
  | none => return []
  | some path => do
    let nodes ← document access "narrowing" (.keyed (.numbered Expr.decoder)) path
    pureTask <| nodes.mapM fun (node, outputs) => do
      let types ← outputs.mapM fun (output, e) => do
        return (output, ← (scope.evaluate [] e).mapError (.narrowing node output))
      return (node, types)

/-- The state of a graph. -/
def state (catalog : Catalog) (graph : Snapshot) (narrowing : Narrowing) : Run CommandError State :=
  (State.create ⟨graph, narrowing, catalog.signatures, catalog.passthrough, none⟩).mapError .fatal

/-- The reports about nodes, up to one that ends the computation for good. -/
def reports (catalog : Catalog) (state : State) : List Node → List NodeReport × Option Fatal
  | [] => ([], none)
  | node :: rest =>
    match NodeReport.ofNode catalog state node with
    | .error f => ([], some f)
    | .ok report =>
      let (more, fatal) := reports catalog state rest
      (report :: more, fatal)

/-- The report about all nodes. -/
def reportText (json : Bool) (reports : List NodeReport) : String :=
  if json then (Json.array (reports.map NodeReport.encode)).spread ++ "\n"
  else String.join (reports.map NodeReport.text)

/-- Checks every node of a graph. -/
def runCheck (access : FileAccess m) (catalogs : List String) (graphPath : String)
    (narrowingPath : Option String) (json : Bool) : Task m Outcome := do
  let catalog ← catalog access catalogs
  let graph ← graph access graphPath
  let narrowing ← narrowing access catalog.scope narrowingPath
  pureTask do
    let state ← state catalog graph narrowing
    match reports catalog state graph.nodes with
    | (found, none) => return .done (found.all (·.verdict.isValid)) (reportText json found)
    | (found, some _) => return .broken (if json then "" else reportText json found)

/-- Evaluates an expression. -/
def runEval (access : FileAccess m) (catalogs : List String) (text : String) : Task m Outcome := do
  let scope ← if catalogs.isEmpty then pure Prelude.scope
    else do pure (← catalog access catalogs).scope
  pureTask do
    let e ← Run.ofExcept ((Expr.decoder.parse text).mapError .expression)
    let type ← (scope.evaluate [] e).mapError .evaluation
    return .done true (type.id ++ "\n")

/-- What is said about an edge. -/
def verdictText (source target : String) (v : Verdict) : String :=
  v.mark ++ " " ++ source ++ " → " ++ target ++ v.reason?.elim "" (": " ++ ·) ++ "\n"

/-- Tests whether an edge could be added. -/
def runConnect (access : FileAccess m) (catalogs : List String) (graphPath source target : String) :
    Task m Outcome := do
  let catalog ← catalog access catalogs
  let graph ← graph access graphPath
  pureTask do
    let (sourceNode, output) ← Run.ofExcept ((Handle.ofString source).mapError .handle)
    let (targetNode, input) ← Run.ofExcept ((Handle.ofString target).mapError .handle)
    if graph.isConnected targetNode input then Run.fail (.connected target)
    else
      let state ← state catalog graph []
      let verdict ← (state.testConnection catalog.signatures
        ⟨sourceNode, output, targetNode, input⟩).mapError .fatal
      return .done verdict.isValid (verdictText source target verdict)

/-- Runs a command. -/
def run (access : FileAccess m) : Command → Task m Outcome
  | check catalogs graph narrowing json => runCheck access catalogs graph narrowing json
  | eval catalogs expression => runEval access catalogs expression
  | connect catalogs graph source target => runConnect access catalogs graph source target

/-- The name and the version of the program. -/
def versionText : String := "typegraph 0.1.0\n"

/-- Runs the command that arguments ask for. -/
def runArguments (access : FileAccess m) (arguments : List String) : m Outcome :=
  match ofArguments arguments with
  | .error .usage => return ⟨2, "", none⟩
  | .error .version => return ⟨0, versionText, none⟩
  | .error (.help topic) => return ⟨0, topic.text, none⟩
  | .ok command => do
    match ← (run access command).run with
    | .ok outcome => return outcome
    | .error halt => return .stopped halt

end Command
end TypeFlow
