import IndexSync.CommandLine.Options
import IndexSync.Report

/-!
# Commands

The commands of the program, and what they print.

- `parse` — the command that the words stand for.
- `execute` — its exit status and output, given the texts of the files.
-/

namespace IndexSync.CommandLine

def programVersion : String := "0.4.0"

/-! ## Reading a command -/

inductive Command where
  | check (format : String)
  | explain (type : Option TypeName) (filtering : Bool)
  | resolve (graph : String) (change : ChangeRequest) (format : String)
  | version

structure Invocation where
  mapping : Option String
  command : Command

/-- The commands by name; `help` is one of its own. -/
inductive CommandName where
  | check
  | explain
  | resolve
  | version
deriving DecidableEq

namespace CommandName

def all : List CommandName := [check, explain, resolve, version]

def word : CommandName → String
  | check => "check"
  | explain => "explain"
  | resolve => "resolve"
  | version => "version"

def ofWord? (word : String) : Option CommandName :=
  all.find? fun c => c.word = word

end CommandName

/-- Options that may stand before and after the command. -/
def sharedOptions : List OptionSpec :=
  [{ name := "mapping", short := some 'm', kind := .path },
    { name := "verbose", short := some 'v', kind := .flag },
    { name := "help", short := some 'h', kind := .help }]

def programOptions : List OptionSpec :=
  sharedOptions ++ [{ name := "version", short := some 'V', kind := .version }]

def formatOption : OptionSpec := { name := "format", short := some 'f', kind := .text }

def CommandName.options : CommandName → List OptionSpec
  | check => formatOption :: sharedOptions
  | explain =>
    { name := "type", short := some 't', kind := .text } ::
      { name := "no-filters", short := none, kind := .flag } :: sharedOptions
  | resolve =>
    { name := "graph", short := some 'g', kind := .path } ::
      { name := "object", short := some 'o', kind := .number } ::
      { name := "dirty", short := some 'd', kind := .texts } ::
      { name := "delete", short := none, kind := .flag } :: formatOption :: sharedOptions
  | version => sharedOptions

/-- What the words ask for. -/
inductive Request where
  | run (invocation : Invocation)
  | version
  /-- The help text of a command, or of the program. -/
  | help (command : Option CommandName)
  /-- The help text of the help command. -/
  | helpOnHelp
  | usage

/-- The command made of its options; nothing if one that it needs is missing. -/
def CommandName.build? (name : CommandName) (given : Given) : Option Command :=
  let format := (given.lookup "format").getD "text"
  let isGiven (name : String) : Bool := (given.lookup name).isSome
  match name with
  | .check => some (.check format)
  | .explain => some (.explain (given.lookup "type") (!isGiven "no-filters"))
  | .resolve => do
    let graph ← given.lookup "graph"
    let object ← (given.lookup "object").bind number?
    let dirty := (given.filter (·.1 = "dirty")).flatMap fun g => g.2.splitOn ","
    return .resolve graph { object, dirty, delete := isGiven "delete" } format
  | .version => some .version

/-- The words after `help`. -/
def parseHelp : List String → Request
  | [] => .help none
  | ["help"] => .helpOnHelp
  | [word] =>
    match CommandName.ofWord? word with
    | some name => .help (some name)
    | none => .usage
  | _ => .usage

/-- A command with the words after it.  An option given after the command
prevails over the same option before it.  A value that waits from before the
command is checked last, so a request for help after the command is met even if
that value is wrong. -/
def parseCommand (before : Reading) (name : CommandName) (words : List String) : Request :=
  match readAllOptions name.options words with
  | .error .help => .help (some name)
  | .error _ => .usage
  | .ok given =>
    match name.build? given, before.settle with
    | some command, .ok before => .run { mapping := (given ++ before).lookup "mapping", command }
    | _, _ => .usage

/-- Reads all words. -/
def parse (words : List String) : Request :=
  match readOptions programOptions .empty words with
  | .error .help => .help none
  | .error .version => .version
  | .error .usage => .usage
  | .ok (_, []) => .usage
  | .ok (before, word :: rest) =>
    if word = "help" then parseHelp rest
    else
      match CommandName.ofWord? word with
      | some name => parseCommand before name rest
      | none => .usage

/-! ## Help texts -/

def mappingHelp : String :=
  "  -m, --mapping <MAPPING>  Path to the mapping file (types and declarations)"

def verboseHelp : String := "  -v, --verbose            Enable verbose output"

def helpHelp : String := "  -h, --help               Print help"

def formatHelp : String :=
  "  -f, --format <FORMAT>    Output format (text, json) [default: text]"

def commandsHelp : List String :=
  ["Commands:",
    "  check    Validate the mapping and summarize its resolvers",
    "  explain  Print compiled resolver trees",
    "  resolve  List the entities to reindex after a change",
    "  version  Show version information",
    "  help     Print this message or the help of the given subcommand(s)"]

def programHelp : List String :=
  ["EntiDex command-line mapping tools", "", "Usage: entidex [OPTIONS] <COMMAND>", ""] ++
    commandsHelp ++ ["", "Options:", mappingHelp, verboseHelp, helpHelp,
      "  -V, --version            Print version"]

def helpCommandHelp : List String :=
  ["Print this message or the help of the given subcommand(s)", "",
    "Usage: entidex help [COMMAND]...", "", "Arguments:",
    "  [COMMAND]...  Print help for the subcommand(s)"]

def CommandName.help : CommandName → List String
  | .check =>
    ["Validate the mapping and summarize its resolvers", "", "Usage: entidex check [OPTIONS]", "",
      "Options:", formatHelp, mappingHelp, verboseHelp, helpHelp]
  | .explain =>
    ["Print compiled resolver trees", "", "Usage: entidex explain [OPTIONS]", "", "Options:",
      mappingHelp,
      "  -t, --type <TYPE_NAME>   Concrete entity type to explain (default: all)",
      "      --no-filters         Build trees without dirtiness filters",
      verboseHelp, helpHelp]
  | .resolve =>
    ["List the entities to reindex after a change", "",
      "Usage: entidex resolve [OPTIONS] --graph <GRAPH> --object <OBJECT>", "", "Options:",
      "  -g, --graph <GRAPH>      Path to the object graph file",
      mappingHelp,
      "  -o, --object <OBJECT>    Id of the changed object",
      verboseHelp,
      "  -d, --dirty <DIRTY>      Changed property paths (default: unknown)",
      "      --delete             The object was deleted",
      formatHelp, helpHelp]
  | .version =>
    ["Show version information", "", "Usage: entidex version [OPTIONS]", "", "Options:",
      mappingHelp, verboseHelp, helpHelp]

/-! ## Execution -/

/-- What a run leaves behind: the exit status, the text printed, and a message
on a failure. -/
structure Result where
  status : Nat
  output : String
  message : String

namespace Result

def lines (ls : List String) : Result :=
  { status := 0, output := String.join (ls.map (· ++ "\n")), message := "" }

def failure (message : String) : Result :=
  { status := 1, output := "", message }

/-- A report as text lines, or in one piece as JSON. -/
def report (format : String) (text : List String) (json : Json) : Result :=
  lines (if format = "json" then [json.pretty] else text)

end Result

/-- Runs a command, given the texts of the files that can be read. -/
def execute (files : String → Option String) (invocation : Invocation) : Result :=
  let withMapping (name : String) (run : String → Except FileError Result) : Result :=
    match invocation.mapping with
    | none => .failure ("Mapping path required for " ++ name)
    | some path =>
      match run path with
      | .ok result => result
      | .error e => .failure e.message
  match invocation.command with
  | .check format => withMapping "check" fun path => do
    let report ← summarize path (files path)
    return .report format report.lines report.toJson
  | .explain type filtering => withMapping "explain" fun path => do
    return .lines (← explainTexts (files path) type filtering)
  | .resolve graph change format => withMapping "resolve" fun path => do
    let report ← reportChange (files path) (files graph) change
    return .report format report.lines report.toJson
  | .version => .lines ["EntiDex CLI v" ++ programVersion, "EntiDex Core v" ++ programVersion]

/-- Answers the words of a command line. -/
def answer (files : String → Option String) (words : List String) : Result :=
  match parse words with
  | .run invocation => execute files invocation
  | .version => .lines ["entidex " ++ programVersion]
  | .help none => .lines programHelp
  | .help (some name) => .lines name.help
  | .helpOnHelp => .lines helpCommandHelp
  | .usage => { status := 2, output := "", message := "\n".intercalate programHelp }

/-- The files that a command reads. -/
def filesRead (words : List String) : List String :=
  match parse words with
  | .run { mapping, command } =>
    mapping.toList ++
      match command with
      | .resolve graph _ _ => [graph]
      | _ => []
  | _ => []

end IndexSync.CommandLine
