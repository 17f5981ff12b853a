import SemanticQuery.Ring.Load
import SemanticQuery.Result

/-!
# The command line

The arguments of the program, and its answer to them as a function of the files and the databases
it can reach.
-/

namespace SemanticQuery.CommandLine

structure Options where
  ring : Option String := none
  database : Option String := none
  settings : Option String := none
  explain : Bool := false
  sql : Bool := false
  /-- The file of the plan, or `-` for standard input. -/
  plan : Option String := none

/-- Why arguments are not carried out: they are wrong, or they ask for something else. -/
inductive Stop where
  | usage
  | version
  | help

/-- Sets an option that may be given once and whose value may not be empty. -/
def setOnce (current : Option String) (value : String) (set : String → Options) :
    Except Stop Options :=
  if current.isSome || value.isEmpty then .error .usage else .ok (set value)

def setValue? (options : Options) (name : String) : Option (String → Except Stop Options) :=
  match name with
  | "ring" => some fun value =>
      setOnce options.ring value fun value => { options with ring := some value }
  | "database" => some fun value =>
      setOnce options.database value fun value => { options with database := some value }
  | "config" => some fun value =>
      setOnce options.settings value fun value => { options with settings := some value }
  | _ => none

def setSwitch (options : Options) (name : String) : Except Stop Options :=
  match name with
  | "explain" => if options.explain then .error .usage else .ok { options with explain := true }
  | "sql" => if options.sql then .error .usage else .ok { options with sql := true }
  | "version" => .error .version
  | "help" => .error .help
  | _ => .error .usage

def setPlan (options : Options) (word : String) : Except Stop Options :=
  if options.plan.isSome then .error .usage else .ok { options with plan := some word }

def shortSwitch : List Char → Except Stop Options
  | 'V' :: _ => .error .version
  | 'h' :: _ => .error .help
  | _ => .error .usage

/-- Whether a word is taken for an option where a value is expected. -/
def isOption (word : String) : Bool :=
  word.toList.head? = some '-' && word ≠ "-"

/-- Reads the words of a command line. After `--` every word is the plan. -/
def readWords : Bool → Options → List String → Except Stop Options
  | _, options, [] => .ok options
  | true, options, word :: rest => do readWords true (← setPlan options word) rest
  | false, options, word :: rest =>
      match word.toList with
      | ['-', '-'] => readWords true options rest
      | '-' :: '-' :: letters =>
          match Text.cutAt '=' letters with
          | some (name, value) =>
              match setValue? options (String.ofList name) with
              | some set => do readWords false (← set (String.ofList value)) rest
              | none => .error .usage
          | none =>
              match setValue? options (String.ofList letters) with
              | some set =>
                  match rest with
                  | value :: rest =>
                      if isOption value then .error .usage
                      else do readWords false (← set value) rest
                  | [] => .error .usage
              | none => do readWords false (← setSwitch options (String.ofList letters)) rest
      | '-' :: letter :: letters => do
          readWords false (← shortSwitch (letter :: letters)) rest
      | _ => do readWords false (← setPlan options word) rest

structure Request where
  ring : String
  database : Option String
  settings : Option String
  explain : Bool
  sql : Bool
  plan : String

/-- Reads a command line. A ring and a plan are needed, and only one thing can be printed. -/
def request (words : List String) : Except Stop Request := do
  let options ← readWords false {} words
  match options.ring, options.plan with
  | some ring, some plan =>
      if options.explain && options.sql then .error .usage
      else .ok ⟨ring, options.database, options.settings, options.explain, options.sql, plan⟩
  | _, _ => .error .usage

/-- What the program can reach: the text of a file or of standard input, or the reason why there
is none, and a session of a database. -/
structure World where
  file : String → Except String String
  input : Except String String
  database : String → Session

def readRing (world : World) (path : String) : Except Error Ring :=
  match world.file path with
  | .ok text => Ring.ofText text
  | .error reason => .error (.unreadableRing path reason)

def readSettings (world : World) : Option String → Except Error Settings
  | none => .ok {}
  | some path =>
      match world.file path with
      | .ok text => Settings.ofText text
      | .error reason => .error (.unreadableFile path reason)

def readPlan (world : World) (path : String) : Except Error Plan :=
  let source := if path = "-" then ("stdin", world.input) else (path, world.file path)
  match source.2 with
  | .ok text => Plan.parseJson text
  | .error reason => .error (.unreadableFile source.1 reason)

def statementJson (statement : Sql.Statement) : Json :=
  .object [("sql", .string statement.sql), ("params", .array (statement.params.map Value.toJson))]

/-- The database to query: the one that is asked for, or else the ring's. -/
def databaseOf (request : Request) (ring : Ring) (dialect : Dialect) : Except Error String :=
  if dialect ≠ .sqlite then
    .error (.unsupported (dialect.name ++ " databases cannot be queried from the command line; " ++
      "use --sql to print the statement"))
  else
    match request.database, ring.connection with
    | some path, _ => .ok path
    | none, some connection => .ok connection
    | none, none =>
        .error (.unsupported s!"ring '{ring.name}' has no connection string; pass --database")

def run (world : World) (request : Request) : Except Error String := do
  let ring ← readRing world request.ring
  let settings ← readSettings world request.settings
  let plan ← readPlan world request.plan
  let compiled ← plan.compile ring settings
  if request.explain then .ok compiled.explain
  else if request.sql then .ok (statementJson compiled.statement).pretty
  else
    let database ← databaseOf request ring compiled.dialect
    let result ← compiled.run ring (world.database database)
    .ok result.toJson.pretty

structure Outcome where
  exitCode : Nat
  output : String := ""
  errors : String := ""

def usage : String :=
  "Usage: sqr [OPTIONS] --ring <RING> <PLAN>\n"

def help : String :=
  "Compile a semantic query plan to SQL and run it\n\n" ++ usage ++
  "\nArguments:\n" ++
  "  <PLAN>  Plan file holding a JSON object of steps, or `-` for stdin\n" ++
  "\nOptions:\n" ++
  "      --ring <RING>          Ring document describing entities, attributes and joins\n" ++
  "      --database <DATABASE>  SQLite database to run against. Defaults to the ring's " ++
  "connection string\n" ++
  "      --config <CONFIG>      Compiler configuration in JSON\n" ++
  "      --explain              Print the plan, subplans and SQL instead of running the query\n" ++
  "      --sql                  Print the SQL statement and its parameters as JSON without " ++
  "running it\n" ++
  "  -h, --help                 Print help\n" ++
  "  -V, --version              Print version\n"

def version : String :=
  "sqr 0.4.13\n"

def respond (world : World) (words : List String) : Outcome :=
  match request words with
  | .error .usage => { exitCode := 2, errors := usage }
  | .error .version => { exitCode := 0, output := version }
  | .error .help => { exitCode := 0, output := help }
  | .ok request =>
      match run world request with
      | .ok text => { exitCode := 0, output := text ++ "\n" }
      | .error error => { exitCode := 1, errors := error.diagnostic.render }

end SemanticQuery.CommandLine
