import CriteriaQuery.Catalog.Reader
import CriteriaQuery.CommandLine.Options
import CriteriaQuery.Compile.Condition
import CriteriaQuery.Compile.Sql
import CriteriaQuery.Session.Cache

/-!
# Running the command line

Settings, catalog and query document are read in this order, a session is built, and the
compiled query is written down: the statement with its parameters, or the parts of the
condition. Warnings go beside the output. The first fault ends the run, and is told with
what was being done and the faults behind it.

## Implementation notes

What a run needs from its surroundings is a record of operations in an arbitrary monad.
-/

namespace CriteriaQuery.CommandLine

/-- Why a file cannot be read. -/
inductive FileFault
  | missing
  | denied
  | notDirectory
  | directory
  | nameTooLong
  | notText
  | other (reason : String)
deriving DecidableEq

/-- The wording of a file's fault. -/
def FileFault.message : FileFault → String
  | .missing => "No such file or directory (os error 2)"
  | .denied => "Permission denied (os error 13)"
  | .notDirectory => "Not a directory (os error 20)"
  | .directory => "Is a directory (os error 21)"
  | .nameTooLong => "File name too long (os error 36)"
  | .notText => "stream did not contain valid UTF-8"
  | .other reason => reason

/-- What a run needs from its surroundings. -/
structure Host (m : Type → Type) where
  fileText : String → m (Except FileFault String)
  inputText : m (Except FileFault String)
  lookUp? : String → m (Option String)

/-- What a run leaves behind. -/
structure Outcome where
  exitCode : Nat
  output : String := ""
  errors : String := ""
deriving DecidableEq

/-- Why a run fails: what was being done, and the faults behind it, the nearest first. -/
structure Failure where
  context : Option String
  causes : List String

namespace Failure

/-- The wording of a failure. -/
def message (f : Failure) : String :=
  "Error: " ++ Text.joined ": " (f.context.toList ++ f.causes) ++ "\n"

/-- A failure of settings. -/
def ofSettings (context : String) (e : SettingsError) : Failure :=
  ⟨some context, e.message :: e.cause?.toList⟩

/-- A failure with one cause. -/
def single (context cause : String) : Failure := ⟨some context, [cause]⟩

/-- A failure of compilation, which tells the fault behind a leaf's once more. -/
def ofCompile (e : CompileError) : Failure :=
  match e with
  | .leaf _ source => ⟨none, [e.message, source.message]⟩
  | _ => ⟨none, [e.message]⟩

end Failure

/-- The lines of a text. -/
def lines (ls : List String) : String := String.join (ls.map (· ++ "\n"))

/-- The warnings of a query as lines. -/
def warningLines (ws : List CompileWarning) : List String := ws.map fun w => "warning: " ++ w.message

/-- The parameters of a statement as lines, counted from `n`. -/
def parameterLines : Nat → List Scalar → List String
  | _, [] => []
  | n, p :: rest => ("  $" ++ toString n ++ " = " ++ p.display) :: parameterLines (n + 1) rest

/-- A statement with its parameters. -/
def statementLines (f : SqlFragment) : List String := f.text :: parameterLines 1 f.params

/-- A join of a condition's query as a line. -/
def joinLine (j : JoinClause) : String :=
  "join:      " ++ j.kind.keyword ++ " " ++ j.table ++ " on " ++ j.left ++ " = " ++ j.right

/-- The parts of a condition's query as lines. -/
def conditionLines (q : Compiled Condition SortField) : List String :=
  ["from:      " ++ q.source] ++ q.joins.map joinLine ++
    ["where:     " ++ q.predicate.display,
     "order by:  " ++ Text.joined ", " (q.orderBy.map SortField.display),
     "window:    offset " ++ toString q.window.offset.toNat ++ " limit " ++
      toString q.window.limit.toNat]

/-- The outcome of a run that succeeds. -/
def success (output : List String) (warnings : List CompileWarning) : Outcome where
  exitCode := 0
  output := lines output
  errors := lines (warningLines warnings)

/-- Compiles a document and writes the result down. -/
def compiled (s : Scope) (target : Target) (d : Document) : Except Failure Outcome :=
  match target with
  | .sql => do
    let q ← (s.compile Sql.backend d).mapError Failure.ofCompile
    return success (statementLines (Sql.select q)) q.warnings
  | .condition => do
    let q ← (s.compile Condition.backend d).mapError Failure.ofCompile
    return success (conditionLines q) q.warnings

/-- The settings with the options that take their place. -/
def Options.override (o : Options) (s : Settings) : Settings :=
  { s with
    dialect := o.dialect.getD s.dialect
    maxPageSize := o.maxPageSize.getD s.maxPageSize }

/-- The session of a catalog under the settings, from a cache of its own. -/
def session (o : Options) (s : Settings) (c : Catalog) : Except CatalogError Session :=
  let key := SessionKey.of o.catalog c.joinDescription o.target s.dialect s.pageLimits
  match SessionCache.load? c.load key { policy := s.cachePolicy } with
  | some (result, _) => result.map Made.value
  | none => Session.ofKey c.load key

section

variable {m : Type → Type} [Monad m]

/-- A step of a run that may fail. -/
def step {ε α : Type} (fail : ε → Failure) (result : Except ε α) : ExceptT Failure m α :=
  ExceptT.mk (pure (result.mapError fail))

/-- A file's text or the failure to read it. -/
def contentOf (host : Host m) (path : String) (fail : FileFault → Failure) :
    ExceptT Failure m String := do
  let text : Except FileFault String ← host.fileText path
  step fail text

/-- The names of the variables that settings come from. -/
def variableNames : List String :=
  ["QRC_DEFAULT_PAGE_SIZE", "QRC_MAX_PAGE_SIZE", "QRC_DIALECT", "QRC_CACHE_ENABLED",
   "QRC_CACHE_MAX_ENTRIES"]

/-- Those variables of the surroundings that are set. -/
def environment (host : Host m) : List String → m (List (String × String))
  | [] => return []
  | name :: rest => do
    let value ← host.lookUp? name
    let others ← environment host rest
    return (value.map (name, ·)).toList ++ others

/-- The settings of a file, or of the variables when no file is given. -/
def settings (host : Host m) : Option String → ExceptT Failure m Settings
  | some path => do
    let context := "loading configuration " ++ path
    let text ← contentOf host path fun e => .ofSettings context (.unreadableFile e.message)
    step (.ofSettings context) (Settings.ofText text)
  | none => do
    let values ← ExceptT.lift (environment host variableNames)
    step (.ofSettings "loading configuration from environment")
      (Settings.ofVariables fun name => values.lookup name)

/-- The catalog of a file. -/
def catalog (host : Host m) (path : String) : ExceptT Failure m Catalog := do
  let context := "loading catalog " ++ path
  let text ← contentOf host path fun e =>
    .single context (CatalogError.unreadableFile path e.message).message
  step (fun e => .single context e.message) (Catalog.ofText text)

/-- The text of the query document, from a file or from the input. -/
def queryText (host : Host m) (query : String) : ExceptT Failure m String :=
  if query = "-" then do
    let text : Except FileFault String ← host.inputText
    step (fun e => .single "reading query from stdin" e.message) text
  else contentOf host query fun e => .single ("reading query " ++ query) e.message

/-- Compiles a query document against a catalog. -/
def compile (host : Host m) (o : Options) : ExceptT Failure m Outcome := do
  let s := o.override (← settings host o.config)
  step (.ofSettings "validating configuration") s.check
  let c ← catalog host o.catalog
  let text ← queryText host o.query
  let d ← step (fun e => .single "parsing query document" e.message) (Document.ofText text)
  let built ← step (fun e => .single "building query session" e.message) (session o s c)
  step id (compiled built.toScope o.target d)

/-- The options with the texts that explain them. -/
def optionHelp : List (String × String) :=
  [("    --catalog <CATALOG>", "YAML catalog describing tables, aliases and joins"),
   ("    --query <QUERY>", "JSON query document, or `-` to read stdin [default: -]"),
   ("    --backend <BACKEND>", "Target backend: sql or condition [default: sql]"),
   ("    --dialect <DIALECT>", "Identifier dialect (overrides the configuration)"),
   ("    --max-page-size <MAX_PAGE_SIZE>", "Maximum page size (overrides the configuration)"),
   ("    --config <CONFIG>",
    "YAML compiler configuration; environment variables are used when absent"),
   ("-h, --help", "Print help"),
   ("-V, --version", "Print version")]

/-- How the program is called. -/
def usageLine : String := "Usage: qrc [OPTIONS] --catalog <CATALOG>"

/-- The text that explains the options, each on a line with its explanation on the next one. -/
def helpText : String := lines <|
  ["Backend-agnostic compiler for declarative Qr criteria documents", "", usageLine, "",
   "Options:"] ++ optionHelp.flatMap fun o => ["  " ++ o.1, "          " ++ o.2]

/-- The text that names the version. -/
def versionText : String := lines ["qrcompiler 0.1.0"]

/-- The text for arguments that are not understood. -/
def usageText : String := lines
  [usageLine, "", "For more information, try '--help'."]

/-- Runs the command line with its arguments. -/
def run (host : Host m) (arguments : List String) : m Outcome :=
  match Invocation.ofArguments? arguments with
  | none => return { exitCode := 2, errors := usageText }
  | some .help => return { exitCode := 0, output := helpText }
  | some .version => return { exitCode := 0, output := versionText }
  | some (.compile options) => do
    match ← compile host options with
    | .ok outcome => return outcome
    | .error f => return { exitCode := 1, errors := f.message }

end

end CriteriaQuery.CommandLine
