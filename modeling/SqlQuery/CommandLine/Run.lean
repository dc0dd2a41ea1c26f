import SqlQuery.CommandLine.Directory
import SqlQuery.CommandLine.Options
import SqlQuery.Diagnostics
import SqlQuery.Query.Sql
import SqlQuery.Record.Reader

/-!
# The command line

The program reads query files and writes each query as SQL of one dialect.  An input contributes
its whole SQL or nothing: of a file with a rejected record nothing is written.  The inputs share one
tally of errors, and the exit status tells whether there were any.
-/

namespace SqlQuery.CommandLine

/-! ## Settings -/

/-- What the options ask for. -/
structure Settings where
  help : Bool := false
  listDialects : Bool := false
  color : Bool := false
  quiet : Bool := false
  /-- Print the join plan before the SQL. -/
  plan : Bool := false
  /-- The name of the dialect; the default one unless given. -/
  dialect? : Option Text := none
  /-- The row limit of every query, whatever the query says. -/
  limit? : Option UInt64 := none
  deriving DecidableEq

/-- An option without a group. -/
def option (short? : Option Text) (long description : Text)
    (action : OptionAction (Settings → Settings)) : CommandOption (Settings → Settings) :=
  ⟨none, short?, some long, description, action⟩

/-- The options of the program; each changes the settings. -/
def options : OptionTable (Settings → Settings) where
  options := [
    option (some "-h") "--help" "prints this help message" (.flag ({ · with help := true })),
    option none "--list-dialects" "list all available dialects"
      (.flag ({ · with listDialects := true })),
    option none "--color" "use colors" (.flag ({ · with color := true })),
    option (some "-q") "--quiet" "work in quiet mode" (.flag ({ · with quiet := true })),
    option none "--plan" "print the resolved join plan" (.flag ({ · with plan := true })),
    option (some "-d") "--dialect" "the dialect to generate"
      (.text fun name s => { s with dialect? := some name }),
    option none "--limit" "limit the number of rows of every query"
      (.number fun n s => { s with limit? := some n })]

/-- The settings after all events. -/
def settings (events : List (Settings → Settings)) : Settings := events.foldl (fun s e => e s) {}

/-! ## Help -/

/-- How to call the program of the given name, and its options. -/
def usage (program : Text) : Text :=
  "Translates query models into the SQL of a target dialect.\nUSAGE:\n\t" ++ program ++
    " [<FILE>...]\nWHERE\n" ++ options.help

/-- The entry of a dialect in the list of dialects. -/
def dialectLine (r : Registry) (width : Nat) (e : RegistryEntry) : Text :=
  let description : Text := if e.description = [] then [] else "    -    " ++ e.description
  let mark : Text := if e.name = r.default.name then " (default)" else []
  "    " ++ Text.padRight width e.name ++ description ++ mark

def listHeading : Text := "List of available dialects:"

/-- The list of all dialects. -/
def dialectList (r : Registry) : Text :=
  let width := (r.entries.map (·.name.length)).foldl max 0
  Text.ofLines (listHeading :: r.entries.map (dialectLine r width))

/-- What the settings ask to be explained. -/
def explanation (program : Text) (r : Registry) (s : Settings) : Text :=
  (if s.help then usage program else []) ++ (if s.listDialects then dialectList r else [])

/-! ## Inputs -/

/-- What a program can read. -/
structure Inputs where
  /-- Standard input, which is empty once it has been read. -/
  stdin : Text
  /-- The contents of a file, or why it cannot be opened. -/
  file : Text → Except Text Text

/-- The inputs of a program that runs in the given directory. -/
def Inputs.ofDirectory (stdin : Text) (d : Directory) : Inputs :=
  ⟨stdin, fun path => (d.read path).mapError PathError.message⟩

/-- The name of standard input. -/
def stdinName : Text := "-"

/-- The query with the row limit of the settings, if they have one. -/
def limited (s : Settings) (q : Query) : Query :=
  match s.limit? with
  | some n => { q with limit? := some n }
  | none => q

/-- The text of the join plan, if the settings ask for it and the query has joins. -/
def planText (s : Settings) (d : Dialect) (q : Query) : Except Failure Text :=
  if s.plan && !q.joins.isEmpty then JoinPlan.toText <$> JoinPlan.resolve d q.joins else .ok []

/-- Everything that is printed for a query. -/
def output (s : Settings) (d : Dialect) (q : Query) : Except Failure Text := do
  let sql ← q.toSql d
  let plan ← planText s d q
  pure (plan ++ sql)

/-- Reads one input and writes its query as SQL. -/
def processInput (s : Settings) (d : Dialect) (name contents : Text) (log : Diagnostics) :
    Except Failure Diagnostics := do
  let reading ← Format.standard.read contents
  let read := log.remarks name reading.remarks
  if read.errors ≠ log.errors then pure read
  else match output s d (limited s reading.query) with
    | .ok t => pure (read.print t)
    | .error (.sql e) =>
      pure (read.reportError (name ++ ": " ++ (Failure.sql e).message ++ "\n"))
    | .error f => throw f

/-- The message about a file that cannot be opened. -/
def openMessage (name reason : Text) : Text :=
  "Could not open file '" ++ name ++ "': " ++ reason ++ ".  Aborting.\n"

/-- Takes the named inputs in turn, up to the first that cannot be opened. -/
def processInputs (s : Settings) (d : Dialect) (inputs : Inputs) (log : Diagnostics) :
    List Text → Except Failure Diagnostics
  | [] => .ok log
  | name :: names =>
    if name = stdinName then do
      let log ← processInput s d name inputs.stdin log
      processInputs s d { inputs with stdin := [] } log names
    else match inputs.file name with
      | .error reason => .ok (log.reportError (openMessage name reason))
      | .ok contents => do
        let log ← processInput s d name contents log
        processInputs s d inputs log names

/-! ## The program -/

/-- How a run of the program ends. -/
structure Outcome where
  exitCode : UInt32
  out : Text
  err : Text
  deriving DecidableEq

/-- The end of a run with the given messages: it fails if there were errors. -/
def outcome (log : Diagnostics) : Outcome := ⟨if log.errors = 0 then 0 else 1, log.out, log.err⟩

/-- What the arguments ask for. -/
inductive Invocation where
  /-- Nothing is left to be done. -/
  | done (outcome : Outcome)
  /-- The named inputs are to be processed, after the messages written so far. -/
  | process (settings : Settings) (dialect : Dialect) (log : Diagnostics) (names : List Text)

/-- The dialect that the settings name. -/
def chosenDialect (r : Registry) (s : Settings) : Except Failure Dialect :=
  match s.dialect? with
  | some name => r.get name
  | none => .ok r.default.dialect

def unknownDialectMessage (f : Failure) : Text :=
  f.message ++ ".  Use --list-dialects to see all dialects.\n"

def statusText (d : Dialect) : Text := "generating SQL for dialect " ++ d.name ++ "\n"

/-- Chooses the dialect and the inputs, which is standard input unless any is named. -/
def prepare (r : Registry) (s : Settings) (log : Diagnostics) (names : List Text) : Invocation :=
  match chosenDialect r s with
  | .error f => .done (outcome (log.reportError (unknownDialectMessage f)))
  | .ok d =>
    .process s d (if s.quiet then log else log.printError (statusText d))
      (if names = [] then [stdinName] else names)

/-- What the arguments of the program of the given name ask for. -/
def invocation (program : Text) (arguments : List Text) : Invocation :=
  let parsed := options.parse arguments
  if parsed.error?.isSome then .done ⟨1, [], parsed.messages⟩
  else
    let s := settings parsed.events
    if s.help || s.listDialects then .done ⟨0, explanation program .standard s, parsed.messages⟩
    else prepare .standard s { color := s.color, err := parsed.messages } parsed.positional

/-- The names of the inputs that are read. -/
def Invocation.names : Invocation → List Text
  | .done _ => []
  | .process _ _ _ names => names

/-- Does what is asked for. -/
def Invocation.perform (inputs : Inputs) : Invocation → Except Failure Outcome
  | .done o => .ok o
  | .process s d log names => outcome <$> processInputs s d inputs log names

/-- Runs the program of the given name with the given arguments. -/
def run (program : Text) (arguments : List Text) (inputs : Inputs) : Except Failure Outcome :=
  (invocation program arguments).perform inputs

end SqlQuery.CommandLine
