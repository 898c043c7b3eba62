import TypeFlow.Command.Arguments

/-!
# Help

The help about the program and its commands: what it is for, how it is used, and
a table of commands, words and options. The second column of a table starts two
blanks after its widest first column.
-/

namespace TypeFlow

/-- A row of a table. -/
structure HelpRow where
  /-- What is written on the command line. -/
  form : String
  /-- What it is for. -/
  purpose : String

/-- A table with its title. -/
structure HelpTable where
  title : String
  rows : List HelpRow

namespace HelpTable

/-- The width of the first column. -/
def width (table : HelpTable) : Nat :=
  table.rows.foldl (fun width row => max width row.form.length) 0

/-- The lines of a table, an empty one first. -/
def text (table : HelpTable) : String :=
  "\n" ++ table.title ++ ":\n" ++ String.join (table.rows.map fun row =>
    let gap := String.ofList (List.replicate (table.width - row.form.length + 2) ' ')
    "  " ++ row.form ++ gap ++ row.purpose ++ "\n")

end HelpTable

/-- The form of an option; the name of its value is given. -/
def Arguments.Key.form (key : Arguments.Key) (value : String) : String :=
  let short := key.short?.elim "    " fun c => "-" ++ c.toString ++ ", "
  let long := "--" ++ key.long
  match key.arity with
  | .flag => short ++ long
  | .counter => short ++ long ++ "..."
  | .text | .path => short ++ long ++ " <" ++ value ++ ">"
  | .texts => short ++ long ++ " <" ++ value ++ ">..."

namespace Topic

/-- The row of an option. -/
def option (key : Arguments.Key) (value purpose : String) : HelpRow := ⟨key.form value, purpose⟩

/-- Catalog files that have to be there. -/
def catalogs : HelpRow := option .catalog "CATALOG"
  "One or more catalog files. May be literal paths or quoted glob patterns"

/-- The graph. -/
def graph : HelpRow := option .graph "GRAPH" "graph snapshot (.json)"

/-- More log output. -/
def verbose : HelpRow := option .verbose ""
  "more log output (-v debug, -vv trace); RUST_LOG takes precedence"

/-- Help. -/
def helpRow : HelpRow := option .help "" "Print help"

/-- What a topic is about. -/
def purpose : Topic → String
  | program => "type-check node graphs against a catalog of type definitions and node schemas"
  | check => "resolve every node of a graph and report its types and validity"
  | eval => "evaluate a JSON type expression in the catalog scope"
  | connect => "test whether an edge could be added to a graph"
  | help => "Print this message or the help of the given subcommand(s)"

/-- What is written after the name of the program. -/
def usage : Topic → String
  | program => "[OPTIONS] <COMMAND>"
  | check => "check [OPTIONS] --catalog <CATALOG>... --graph <GRAPH>"
  | eval => "eval [OPTIONS] <EXPRESSION>"
  | connect =>
    "connect [OPTIONS] --catalog <CATALOG>... --graph <GRAPH> --from <FROM> --to <TO>"
  | help => "help [COMMAND]..."

/-- The tables of a topic. -/
def tables : Topic → List HelpTable
  | program => [
    ⟨"Commands", [⟨"check", check.purpose⟩, ⟨"eval", eval.purpose⟩, ⟨"connect", connect.purpose⟩,
      ⟨"help", help.purpose⟩]⟩,
    ⟨"Options", [verbose, helpRow, option .version "" "Print version"]⟩]
  | check => [
    ⟨"Options", [catalogs, verbose, graph,
      option .narrowing "NARROWING"
        "backend-reported output types: \x7b\"<node>\": \x7b\"<output>\": <expression>\x7d\x7d",
      option .json "" "print a JSON report instead of text", helpRow]⟩]
  | eval => [
    ⟨"Arguments", [⟨"<EXPRESSION>", "the expression, as JSON"⟩]⟩,
    ⟨"Options", [option .catalog "CATALOG" "catalog files; the prelude alone when omitted",
      verbose, helpRow]⟩]
  | connect => [
    ⟨"Options", [catalogs, verbose, graph,
      option .source "FROM" "source handle as <node>:<output>",
      option .target "TO" "target handle as <node>:<input>", helpRow]⟩]
  | help => [⟨"Arguments", [⟨"[COMMAND]...", "Print help for the subcommand(s)"⟩]⟩]

/-- The help about a topic. -/
def text (topic : Topic) : String :=
  topic.purpose ++ "\n\nUsage: typegraph " ++ topic.usage ++ "\n"
    ++ String.join (topic.tables.map HelpTable.text)

end Topic
end TypeFlow
