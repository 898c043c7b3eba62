import TypeFlow.Entries

/-!
# Command line arguments

An argument is an option or a word. An option with a value takes it from after
an equals sign, from the rest of a cluster of short options, or from the next
word; one with many values takes every word up to the next option. After two
dashes all arguments are words.
-/

namespace TypeFlow

/-- What the command line asks for. -/
inductive Command where
  /-- Check every node of a graph. -/
  | check (catalog : List String) (graph : String) (narrowing : Option String) (json : Bool)
  /-- Evaluate an expression. -/
  | eval (catalog : List String) (expression : String)
  /-- Test whether an edge could be added to a graph. -/
  | connect (catalog : List String) (graph source target : String)
  deriving DecidableEq

/-- What there is help about. -/
inductive Topic where
  | program
  | check
  | eval
  | connect
  | help
  deriving DecidableEq

/-- Why the arguments ask for no command. -/
inductive Stop where
  | usage
  | version
  | help (topic : Topic)
  deriving DecidableEq

namespace Arguments

/-- An option. -/
inductive Key where
  | catalog
  | graph
  | narrowing
  | json
  | source
  | target
  | verbose
  | version
  | help
  deriving DecidableEq

/-- What follows an option, and how often it may occur. -/
inductive Arity where
  /-- Nothing follows; it occurs once. -/
  | flag
  /-- Nothing follows; it occurs any number of times. -/
  | counter
  /-- A text follows; it occurs once. -/
  | text
  /-- A path follows, which is not empty; it occurs once. -/
  | path
  /-- One or more texts follow; it occurs any number of times. -/
  | texts
  deriving DecidableEq

namespace Key

/-- The long name. -/
def long : Key → String
  | catalog => "catalog"
  | graph => "graph"
  | narrowing => "narrowing"
  | json => "json"
  | source => "from"
  | target => "to"
  | verbose => "verbose"
  | version => "version"
  | help => "help"

/-- The short name. -/
def short? : Key → Option Char
  | catalog => some 'c'
  | graph => some 'g'
  | verbose => some 'v'
  | version => some 'V'
  | help => some 'h'
  | _ => none

/-- What follows. -/
def arity : Key → Arity
  | catalog => .texts
  | graph => .path
  | narrowing => .path
  | json => .flag
  | source => .text
  | target => .text
  | verbose => .counter
  | version => .flag
  | help => .flag

end Key

/-- An argument by its form. -/
inductive Token where
  /-- Two dashes. -/
  | wordsFollow
  /-- A long option, perhaps with a value after an equals sign. -/
  | long (name : String) (value : Option String)
  /-- A cluster of short options. -/
  | short (cluster : List Char)
  /-- Anything else. -/
  | word (text : String)

/-- The value after an equals sign. -/
def afterEquals : List Char → Option String
  | '=' :: value => some (String.ofList value)
  | _ => none

/-- The form of an argument. -/
def tokenOf (argument : String) : Token :=
  match argument.toList with
  | ['-', '-'] => .wordsFollow
  | '-' :: '-' :: rest =>
    let (name, rest) := rest.span (· ≠ '=')
    .long (String.ofList name) (afterEquals rest)
  | '-' :: c :: rest => .short (c :: rest)
  | _ => .word argument

/-- Whether an argument is a word. -/
def isWord (argument : String) : Bool :=
  match tokenOf argument with
  | .word _ => true
  | _ => false

/-- What the next word is. -/
inductive Mode where
  /-- A word of its own. -/
  | idle
  /-- The value that an option needs. -/
  | needs (key : Key)
  /-- One more value of an option. -/
  | takes (key : Key)
  /-- A word of its own, as is every argument after it. -/
  | words
  deriving DecidableEq

/-- What was found in the arguments. -/
structure Scan where
  topic : Topic
  /-- What the next word is. -/
  mode : Mode
  /-- Options without a value. -/
  flags : List Key
  /-- Values of options. -/
  values : List (Key × String)
  /-- Words of their own. -/
  words : List String

namespace Scan

/-- Before the first argument. -/
def start (topic : Topic) : Scan := ⟨topic, .idle, [], [], []⟩

/-- Notes an option without a value. -/
def flag (s : Scan) (key : Key) : Except Stop Scan :=
  if key = .version then .error .version
  else if key = .help then .error (.help s.topic)
  else if key.arity = .flag ∧ key ∈ s.flags then .error .usage
  else .ok { s with flags := s.flags ++ [key] }

/-- Notes a value of an option. -/
def value (s : Scan) (key : Key) (value : String) : Except Stop Scan :=
  if key.arity ≠ .texts ∧ key ∈ s.values.map (·.1) then .error .usage
  else if key.arity = .path ∧ value = "" then .error .usage
  else .ok { s with values := s.values ++ [(key, value)] }

/-- An option with what is attached to it. -/
def option (s : Scan) (key : Key) (attached : Option String) : Except Stop Scan :=
  match key.arity, attached with
  | .flag, none | .counter, none => s.flag key
  | .flag, some _ | .counter, some _ => .error .usage
  | _, none => .ok { s with mode := .needs key }
  | _, some v => s.value key v

/-- A cluster of short options; the first with a value takes the rest of it. -/
def cluster (accepted : List Key) (s : Scan) : List Char → Except Stop Scan
  | [] => .ok s
  | c :: rest =>
    match accepted.find? fun key => key.short? = some c with
    | none => .error .usage
    | some key =>
      match key.arity, rest with
      | .flag, _ | .counter, _ => do cluster accepted (← s.option key none) rest
      | _, [] => s.option key none
      | _, rest => s.option key ((afterEquals rest).getD (String.ofList rest))

/-- A word. -/
def word (s : Scan) (text : String) : Except Stop Scan :=
  match s.mode with
  | .idle | .words => .ok { s with words := s.words ++ [text] }
  | .needs key | .takes key => do
    let s ← s.value key text
    return { s with mode := if key.arity = .texts then .takes key else .idle }

/-- Leaves the values of an option; one that is needed must be there. -/
def settle (s : Scan) : Except Stop Scan :=
  match s.mode with
  | .needs _ => .error .usage
  | .takes _ => .ok { s with mode := .idle }
  | _ => .ok s

/-- One argument. -/
def step (accepted : List Key) (s : Scan) (argument : String) : Except Stop Scan :=
  if s.mode = .words then s.word argument
  else
    match tokenOf argument with
    | .word text => s.word text
    | .wordsFollow => do return { ← s.settle with mode := .words }
    | .short cs => do (← s.settle).cluster accepted cs
    | .long name attached => do
      match accepted.find? fun key => key.long = name with
      | none => .error .usage
      | some key => (← s.settle).option key attached

/-- All arguments. -/
def all (topic : Topic) (accepted : List Key) (arguments : List String) : Except Stop Scan := do
  (← arguments.foldlM (step accepted) (start topic)).settle

/-- The values of an option. -/
def valuesOf (s : Scan) (key : Key) : List String :=
  (s.values.filter fun entry => entry.1 = key).map (·.2)

/-- The value of an option. -/
def value? (s : Scan) (key : Key) : Option String := (s.valuesOf key).head?

/-- The value of an option that must be there. -/
def required (s : Scan) (key : Key) : Except Stop String :=
  (s.value? key).elim (.error .usage) .ok

/-- The values of an option that must be there. -/
def requiredAll (s : Scan) (key : Key) : Except Stop (List String) :=
  match s.valuesOf key with
  | [] => .error .usage
  | values => .ok values

/-- There are no words. -/
def wordless (s : Scan) : Except Stop Unit :=
  if s.words.isEmpty then .ok () else .error .usage

end Scan

/-- What help is asked for by the names of commands. -/
def topicOf : List String → Option Topic
  | [] => some .program
  | ["check"] => some .check
  | ["eval"] => some .eval
  | ["connect"] => some .connect
  | ["help"] => some .help
  | _ => none

/-- The command of a name with its arguments. -/
def commandOf (name : String) (arguments : List String) : Except Stop Command :=
  match name with
  | "check" => do
    let s ← Scan.all .check [.catalog, .graph, .narrowing, .json, .verbose, .help] arguments
    s.wordless
    return .check (← s.requiredAll .catalog) (← s.required .graph) (s.value? .narrowing)
      (s.flags.contains .json)
  | "eval" => do
    let s ← Scan.all .eval [.catalog, .verbose, .help] arguments
    match s.words with
    | [expression] => return .eval (s.valuesOf .catalog) expression
    | _ => .error .usage
  | "connect" => do
    let s ← Scan.all .connect [.catalog, .graph, .source, .target, .verbose, .help] arguments
    s.wordless
    return .connect (← s.requiredAll .catalog) (← s.required .graph) (← s.required .source)
      (← s.required .target)
  | "help" => .error ((topicOf arguments).elim .usage .help)
  | _ => .error .usage

end Arguments

/-- The command that arguments ask for: the first word names it. -/
def Command.ofArguments (arguments : List String) : Except Stop Command := do
  let (before, rest) := arguments.span fun argument => !Arguments.isWord argument
  let s ← Arguments.Scan.all .program [.verbose, .version, .help] before
  match s.mode, rest with
  | .idle, name :: rest => Arguments.commandOf name rest
  | _, _ => .error .usage

end TypeFlow
