import VirtualGraph.Files

/-!
# The command line

Reads the arguments of the command and carries it out. The outcome is what is printed and the exit
code; files are reached through a `FileAccess`.
-/

namespace VirtualGraph

/-- What the command is asked to do. -/
inductive Command where
  | usage
  | query (query : String)
  | explain (query : String)
  | compare (left right : String) (iri : Bool)
  deriving DecidableEq

/-- The options of the command. -/
structure Options where
  mapping : Option String := none
  dialect : Option Dialect := none
  dryRun : Bool := false
  databaseUrl : Option String := none
  format : Option String := none
  config : Option String := none
  verbose : Bool := false
  iri : Bool := false
  deriving DecidableEq

/-- The options by name. -/
inductive OptionName where
  | mapping
  | dialect
  | dryRun
  | databaseUrl
  | format
  | config
  | verbose
  | iri
  deriving DecidableEq

namespace OptionName

def ofLong? : String → Option OptionName
  | "mapping" => some mapping
  | "dialect" => some dialect
  | "dry-run" => some dryRun
  | "database-url" => some databaseUrl
  | "format" => some format
  | "config" => some config
  | "verbose" => some verbose
  | "iri" => some iri
  | _ => none

def ofShort? : Char → Option OptionName
  | 'm' => some mapping
  | 'd' => some dryRun
  | 'f' => some format
  | 'c' => some config
  | 'v' => some verbose
  | _ => none

/-- Whether an option stands alone. -/
def isFlag : OptionName → Bool
  | dryRun | verbose | iri => true
  | _ => false

/-- Whether an option may follow a subcommand. -/
def follows (subcommand : Option String) : OptionName → Bool
  | mapping | dialect | config | verbose => true
  | iri => subcommand = some "compare"
  | dryRun | databaseUrl | format => subcommand = none

end OptionName

namespace Options

/-- Sets an option. Paths are not empty. -/
def set (o : Options) (name : OptionName) (value : String) : Option Options :=
  match name with
  | .mapping => if value = "" then none else some { o with mapping := some value }
  | .config => if value = "" then none else some { o with config := some value }
  | .dialect => (Dialect.ofName? value).map fun d => { o with dialect := some d }
  | .databaseUrl => some { o with databaseUrl := some value }
  | .format =>
    if value = "table" ∨ value = "json" then some { o with format := some value } else none
  | .dryRun => some { o with dryRun := true }
  | .verbose => some { o with verbose := true }
  | .iri => some { o with iri := true }

end Options

/-- The arguments that were read: options, a subcommand, and positional arguments before and after
it. No option is given twice before the subcommand or twice after it; one that is given on both
sides has the later value. -/
structure Arguments where
  options : Options := {}
  /-- The options given since the start, or since the subcommand. -/
  given : List OptionName := []
  query : Option String := none
  subcommand : Option String := none
  operands : List String := []
  deriving DecidableEq

namespace Arguments

/-- Sets an option where it may stand. -/
def setOption (a : Arguments) (name : OptionName) (value : String) : Option Arguments :=
  if name.follows a.subcommand && !a.given.contains name then
    (a.options.set name value).map fun o => { a with options := o, given := name :: a.given }
  else none

/-- Adds a positional argument: the name of a subcommand, one of its operands, or a query. After
`--` no subcommand can be named, so `plain` arguments are queries and operands only. -/
def addPositional (a : Arguments) (plain : Bool) (arg : String) : Option Arguments :=
  match a.subcommand with
  | some _ => some { a with operands := a.operands ++ [arg] }
  | none =>
    if !plain && (arg = "explain" || arg = "compare") then
      some { a with subcommand := some arg, given := [] }
    else
      match a.query with
      | none => some { a with query := some arg }
      | some _ => none

/-- An option that still needs its value, or none. -/
abbrev Pending := Option OptionName

/-- Reads a group of one-letter options. The first one that takes a value takes the rest. -/
def addShort (a : Arguments) : List Char → Option (Arguments × Pending)
  | [] => some (a, none)
  | c :: rest =>
    match OptionName.ofShort? c with
    | none => none
    | some name =>
      if name.isFlag then
        match a.setOption name "" with
        | some a => a.addShort rest
        | none => none
      else
        match rest with
        | [] => some (a, some name)
        | '=' :: value => (a.setOption name (String.ofList value)).map (·, none)
        | value => (a.setOption name (String.ofList value)).map (·, none)

/-- Reads an option with a long name, and its value if one follows a `=`. -/
def addLong (a : Arguments) (text : List Char) : Option (Arguments × Pending) :=
  match OptionName.ofLong? (String.ofList (text.takeWhile (· != '='))),
    text.dropWhile (· != '=') with
  | some name, [] =>
    if name.isFlag then (a.setOption name "").map (·, none) else some (a, some name)
  | some name, _ :: value =>
    if name.isFlag then none else (a.setOption name (String.ofList value)).map (·, none)
  | none, _ => none

/-- Whether an argument has the form of an option. -/
def isOption (arg : String) : Bool :=
  match arg.toList with
  | '-' :: _ :: _ => true
  | _ => false

/-- Reads arguments. After `--` all of them are positional. -/
def readFrom (a : Arguments) (pending : Pending) (plain : Bool) : List String → Option Arguments
  | [] => if pending.isNone then some a else none
  | arg :: rest =>
    match pending, plain, arg.toList with
    | some name, _, _ =>
      if isOption arg then none
      else
        match a.setOption name arg with
        | some a => readFrom a none plain rest
        | none => none
    | none, false, ['-', '-'] => readFrom a none true rest
    | none, false, '-' :: '-' :: text =>
      match a.addLong text with
      | some (a, pending) => readFrom a pending false rest
      | none => none
    | none, false, '-' :: c :: text =>
      match a.addShort (c :: text) with
      | some (a, pending) => readFrom a pending false rest
      | none => none
    | none, _, _ =>
      match a.addPositional plain arg with
      | some a => readFrom a none plain rest
      | none => none

/-- What the arguments ask for. -/
def command? (a : Arguments) : Option Command :=
  match a.subcommand, a.operands, a.query with
  | some "explain", [query], _ => some (.explain query)
  | some "compare", [left, right], _ => some (.compare left right a.options.iri)
  | none, _, some query => some (.query query)
  | none, _, none => some .usage
  | _, _, _ => none

def read (args : List String) : Option Arguments := readFrom {} none false args

end Arguments

/-- What is printed, and the exit code. -/
structure Outcome where
  exit : Nat
  stdout : String
  stderr : String
  deriving DecidableEq

/-- What the command takes from its surroundings. -/
structure Environment where
  configDirectory : Option String
  databaseUrl : Option String

/-- A failure of the command, in words. -/
abbrev Failure := String

namespace Fault

/-- A fault with what caused it. -/
def chain (f : Fault) : Failure :=
  match f with
  | file problem => f.message ++ ": " ++ problem.message
  | _ => f.message

end Fault

namespace Command

/-- Lines of text. -/
def lines (ls : List String) : String := String.join (ls.map (· ++ "\n"))

/-- The settings with options taken into account. The database decides the dialect, unless one is
asked for. -/
def applyOptions (o : Options) (env : Environment) (s : Settings) : Settings :=
  let s := { s with
    mapping := o.mapping.or s.mapping
    database := (o.databaseUrl.or env.databaseUrl).or s.database }
  match o.dialect with
  | some d => s.setDialect d
  | none =>
    match s.database.bind Dialect.ofUrl? with
    | some d => s.setDialect d
    | none => s

section

variable {m : Type → Type} [Monad m] (files : FileAccess m)

/-- Loads the settings. -/
def loadSettings (o : Options) (env : Environment) : m (Except Failure Settings) := do
  match ← Settings.discover files env.configDirectory o.config with
  | .ok s => return .ok (applyOptions o env s)
  | .error fault => return .error fault.chain

/-- Loads the mapping that the settings name. -/
def loadMapping (s : Settings) : m (Except Failure Mapping) := do
  match s.mapping with
  | none => return .error "no mapping given; use --mapping or [mapping] path"
  | some path =>
    match ← Mapping.load files path with
    | .ok mapping => return .ok mapping
    | .error fault => return .error ("loading mapping " ++ path ++ ": " ++ fault.chain)

/-- The query that an argument writes out, or names the file of after `@`. -/
def readQuery (query : String) : m (Except Failure Query) := do
  match query.toList with
  | '@' :: path =>
    let path := String.ofList path
    match ← files.read path with
    | .ok text => return (Query.parse text).mapError Fault.chain
    | .error problem => return .error ("reading " ++ path ++ ": " ++ problem.message)
  | _ => return (Query.parse query).mapError Fault.chain

/-- Loads settings and mapping and reads the query. -/
def prepare (o : Options) (env : Environment) (query : String) :
    m (Except Failure (Settings × Mapping × Query)) := do
  match ← loadSettings files o env with
  | .error e => return .error e
  | .ok s =>
    match ← loadMapping files s with
    | .error e => return .error e
    | .ok mapping =>
      match ← readQuery files query with
      | .error e => return .error e
      | .ok q => return .ok (s, mapping, q)

/-- What is printed for a compiled query. -/
def queryText (o : Options) (s : Settings) (c : Compilation) : String :=
  let note :=
    if s.database.isNone && !o.dryRun then
      ["", "No database URL. Use --database-url or set R2SQL_DATABASE_URL"]
    else []
  lines (["Generated SQL:", c.sql] ++ note)

/-- Compiles a query. Queries are not sent to a database. -/
def runQuery (o : Options) (env : Environment) (query : String) : m (Except Failure String) := do
  match ← prepare files o env query with
  | .error e => return .error e
  | .ok (s, mapping, q) =>
    if s.database.isSome && !o.dryRun then
      return .error "Database error: queries are not sent to a database, use --dry-run"
    else
      return ((q.compile mapping s.compiler).map (queryText o s)).mapError Fault.chain

/-- What is printed for an explained query. -/
def explainText (c : Compilation) : String :=
  lines ["Bound pattern:"] ++ c.bound.explain ++ lines ["", "Calculus:"] ++ c.block.explain c.table
    ++ lines ["", "Generated SQL: (" ++ c.dialect.name ++ ")", "  " ++ c.sql]

/-- Explains how a query is compiled. -/
def runExplain (o : Options) (env : Environment) (query : String) : m (Except Failure String) := do
  match ← prepare files o env query with
  | .error e => return .error e
  | .ok (s, mapping, q) =>
    return ((q.compile mapping s.compiler).map explainText).mapError Fault.chain

end

/-- The pattern of a template over one row of strings. -/
def templatePattern (template : String) (row : Nat) (iri : Bool) : Except Failure Pattern :=
  match Template.parse template with
  | .ok parts => .ok (.ofTemplate parts row iri fun _ => .string)
  | .error fault => .error (Fault.template fault).chain

/-- What is printed about a comparison. -/
def comparisonLines : Comparison → List String
  | .disjoint => ["never match"]
  | .residual [] => ["always match"]
  | .residual pairs =>
    "match when:" :: pairs.map fun (l, r) => "  " ++ l.display ++ " = " ++ r.display

/-- Compares two templates. -/
def runCompare (left right : String) (iri : Bool) : Except Failure String := do
  let l ← templatePattern left 0 iri
  let r ← templatePattern right 1 iri
  .ok (lines (["Left:  " ++ l.display, "Right: " ++ r.display, ""] ++
    comparisonLines (l.compare r)))

/-- What is printed when nothing is asked for. -/
def usageText : String :=
  lines ["r2sql: SPARQL over relational data", "",
    "Usage: r2sql <QUERY|@FILE> --mapping <FILE> [OPTIONS]", "", "Try: r2sql --help"]

/-- The outcome of a command that has printed `before`. -/
def outcome (before : String) : Except Failure String → Outcome
  | .ok text => ⟨0, before ++ text, ""⟩
  | .error e => ⟨1, before, "Error: " ++ e ++ "\n"⟩

/-- Carries out a command. -/
def run {m : Type → Type} [Monad m] (files : FileAccess m) (env : Environment) (o : Options) :
    Command → m Outcome
  | usage => return outcome "" (.ok usageText)
  | query q => do
    let input := if o.verbose then lines ["Input: " ++ q] else ""
    return outcome input (← runQuery files o env q)
  | explain q => return outcome "" (← runExplain files o env q)
  | compare l r iri => return outcome "" (runCompare l r iri)

/-- Carries out the command that arguments ask for. -/
def runArguments {m : Type → Type} [Monad m] (files : FileAccess m) (env : Environment)
    (args : List String) : m Outcome :=
  match Arguments.read args with
  | none => return ⟨2, "", "error: unexpected arguments\n"⟩
  | some a =>
    match a.command? with
    | none => return ⟨2, "", "error: unexpected arguments\n"⟩
    | some c => run files env a.options c

end Command

end VirtualGraph
