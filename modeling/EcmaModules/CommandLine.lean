import EcmaModules.FileHost

/-!
# The command line

Two commands work on module files. `requests` prints what the text of a module says: its requests,
imports and exports. `eval` loads, links and evaluates the graph behind a module; each module prints
its name when it is executed, and with `--verbose` all modules are listed with their statuses at the
end. `--disable-import-defer` treats deferred imports as plain ones.
-/

namespace EcmaModules.CommandLine

/-! ## Arguments -/

/-- A command. -/
inductive Command where
  | requests (path : String)
  | eval (verbose : Bool) (entry : String)
deriving Repr, DecidableEq, Inhabited

/-- A command with the options that every command has. -/
structure Invocation where
  deferring : Bool
  command : Command
deriving Repr, DecidableEq, Inhabited

/-- The arguments of a command that have been read. -/
structure Arguments where
  disableImportDefer : Bool := false
  verbose : Bool := false
  path : Option String := none
deriving Repr, DecidableEq, Inhabited

/-- Reads a path. There is one only, and it is not empty. -/
def Arguments.addPath? (a : Arguments) (path : String) : Option Arguments :=
  if path.isEmpty || a.path.isSome then none else some { a with path := some path }

/-- Reads the arguments of a command. Each option may be given once; after `--` there are none.
`verbose` says whether the command has the option `--verbose`. -/
def Arguments.ofList? (verbose : Bool) : Arguments → List String → Option Arguments
  | a, [] => some a
  | a, "--" :: rest => rest.foldlM Arguments.addPath? a
  | a, arg :: rest =>
    if arg = "--disable-import-defer" then
      if a.disableImportDefer then none
      else ofList? verbose { a with disableImportDefer := true } rest
    else if verbose && (arg = "--verbose" || arg = "-v") then
      if a.verbose then none else ofList? verbose { a with verbose := true } rest
    else if arg.startsWith "-" && arg != "-" then none
    else (a.addPath? arg).bind fun a ↦ ofList? verbose a rest

/-- The command with the given name and arguments. -/
def Command.ofArguments? (name : String) (a : Arguments) : Option Command :=
  match name with
  | "requests" => a.path.map .requests
  | "eval" => a.path.map (.eval a.verbose)
  | _ => none

/-- Reads the arguments from the name of the command on. -/
def Invocation.ofCommand? (disableImportDefer : Bool) (name : String) (args : List String) :
    Option Invocation := do
  let a ← Arguments.ofList? (name == "eval") {} args
  let command ← Command.ofArguments? name a
  return ⟨!(disableImportDefer || a.disableImportDefer), command⟩

/-- Reads all arguments. An option may stand in front of the command, too. -/
def Invocation.ofList? : List String → Option Invocation
  | "--disable-import-defer" :: "--disable-import-defer" :: _ => none
  | "--disable-import-defer" :: name :: args => ofCommand? true name args
  | name :: args => ofCommand? false name args
  | [] => none

/-! ## What is printed -/

/-- What a run of the command line comes to. -/
structure Output where
  code : Nat
  stdout : String := ""
  stderr : String := ""
deriving Repr, DecidableEq, Inhabited

/-- How a run ends badly. -/
inductive Failure where
  | uncaught (e : ThrownError)
  /-- The promise of an activity was never settled. -/
  | unsettled (activity : String)
deriving Repr, DecidableEq, Inhabited

/-- The text of a failure. -/
def Failure.text : Failure → String
  | .uncaught e => "Uncaught exception: " ++ e.text
  | .unsettled activity => activity ++ " did not settle"

/-- Lines, each with its end. -/
def unlines (lines : List String) : String :=
  String.join (lines.map (· ++ "\n"))

/-- The line of a request. -/
def requestLine (r : Request) : String :=
  "  " ++ Text.quote r.specifier ++ " (" ++ r.phase.name ++ ")"
    ++ String.join (r.attributes.map fun a ↦ " " ++ a.key ++ ": " ++ Text.quote a.value)

/-- The line of an import. -/
def importLine (i : ImportEntry) : String :=
  "  " ++ i.imported.getD "*" ++ " as " ++ i.localName ++ " from "
    ++ Text.quote i.request.specifier

/-- The line of an exported variable. -/
def localExportLine (e : LocalExport) : String :=
  "  " ++ e.exported ++ " (local " ++ e.localName ++ ")"

/-- The line of a re-export. -/
def indirectExportLine (e : IndirectExport) : String :=
  "  " ++ e.exported ++ " (" ++ e.imported.getD "*" ++ " from "
    ++ Text.quote e.request.specifier ++ ")"

/-- The line of a star export. -/
def starExportLine (r : Request) : String :=
  "  * from " ++ Text.quote r.specifier

/-- The lines that the entries of a module are printed in. -/
def entryLines (e : Entries) : List String :=
  ["requests:"] ++ e.requests.map requestLine
    ++ ["imports:"] ++ e.imports.map importLine
    ++ ["exports:"] ++ e.localExports.map localExportLine
    ++ e.indirectExports.map indirectExportLine ++ e.starExports.map starExportLine
    ++ ["top-level await: " ++ (if e.awaits then "true" else "false")]

/-- A module comes before another one in the list of modules: by the path, then by the type. -/
def moduleLe (a b : (String × Option String) × ModuleId) : Bool :=
  if a.1.1 = b.1.1 then
    match a.1.2, b.1.2 with
    | none, _ => true
    | some _, none => false
    | some t, some u => !decide (u < t)
  else FilePath.le a.1.1 b.1.1

/-- The line of a module in the list of modules. -/
def moduleLine (s : Store) (entry : (String × Option String) × ModuleId) : String :=
  match s.status? entry.2, entry.1.2 with
  | some status, _ => entry.1.1 ++ ": " ++ status.name
  | none, some type => entry.1.1 ++ " (" ++ type ++ "): synthetic"
  | none, none => entry.1.1 ++ ": synthetic"

/-- The list of modules. -/
def moduleLines (h : FileHost) (s : Store) : List String :=
  (h.modules.mergeSort moduleLe).map (moduleLine s)

/-! ## Running -/

variable {m : Type → Type} [Monad m]

/-- The host and the store go along with a run. -/
abbrev Running (m : Type → Type) := StateT (FileHost × Store) m

/-- Runs a task to its end. -/
def perform (files : Files m) (t : Task) : Running m Result := fun (h, s) ↦ do
  let (r, h, s) ← h.perform files s t
  return (r, (h, s))

/-- An error as the end of a run. -/
def uncaught (e : ErrorId) : Running m Failure := do
  return .uncaught ((← get).2.error e)

/-- Runs all jobs until one fails, but not more than the given number. -/
def runJobs (files : Files m) : Nat → Running m (Except Failure Unit)
  | 0 => return .ok ()
  | limit + 1 => do
    let (h, s) ← get
    match s.jobs with
    | [] => return .ok ()
    | j :: rest =>
      set (h, { s with jobs := rest })
      match (← perform files (.job j)).toCompletion with
      | .ok () => runJobs files limit
      | .error e => return .error (← uncaught e)

/-- Runs all jobs, after which the promise that is the result of an activity has to be
fulfilled. -/
def settle (files : Files m) (r : Result) (activity : String) :
    Running m (Except Failure Unit) := do
  match ← runJobs files Machine.stepLimit, r with
  | .error f, _ => return .error f
  | .ok (), .promise p =>
    match (← get).2.promise? p with
    | some .fulfilled => return .ok ()
    | some (.rejected e) => return .error (← uncaught e)
    | _ => return .error (.unsettled activity)
  | .ok (), _ => return .error (.unsettled activity)

/-- Loads the module that a command is about. -/
def loadEntry (files : Files m) (path : String) : Running m (Except Failure ModuleId) := do
  let (h, s) ← get
  let (outcome, h, s) ← liftM (h.loadFile files s path none)
  set (h, s)
  match outcome with
  | .ok entry => return .ok entry
  | .error e => return .error (← uncaught e)

/-- Prints lines. -/
def printLines (lines : List String) : Running m Unit :=
  modify fun (h, s) ↦ (h, lines.foldl Store.print s)

/-- Prints what the text of a module says. -/
def runRequests (files : Files m) (path : String) : Running m (Except Failure Unit) := do
  match ← loadEntry files path with
  | .error f => return .error f
  | .ok entry =>
    printLines (entryLines ((← get).2.entries entry))
    return .ok ()

/-- Loads and links the graph behind a module. -/
def prepare (files : Files m) (entry : ModuleId) : Running m (Except Failure Unit) := do
  match ← settle files (← perform files (.load entry none)) "Loading" with
  | .error f => return .error f
  | .ok () =>
    match (← perform files (.link entry)).toCompletion with
    | .ok () => return .ok ()
    | .error e => return .error (← uncaught e)

/-- Evaluates the graph behind a module. -/
def runEval (files : Files m) (verbose : Bool) (path : String) :
    Running m (Except Failure Unit) := do
  match ← loadEntry files path with
  | .error f => return .error f
  | .ok entry =>
    match ← prepare files entry with
    | .error f => return .error f
    | .ok () =>
      let result ← settle files (← perform files (.evaluate entry)) "Evaluation"
      if verbose then
        let (h, s) ← get
        printLines (moduleLines h s)
      return result

/-- Runs a command. -/
def Command.run (files : Files m) : Command → Running m (Except Failure Unit)
  | .requests path => runRequests files path
  | .eval verbose entry => runEval files verbose entry

/-- What a run comes to. If the text of some file is not a module, that is what is reported. -/
def Output.ofRun (h : FileHost) (s : Store) (result : Except Failure Unit) : Output :=
  let stdout := unlines s.stage.lines.toList
  if h.parseFailed then ⟨1, stdout, "Parse errors:"⟩
  else
    match result with
    | .ok () => ⟨0, stdout, ""⟩
    | .error f => ⟨1, stdout, f.text ++ "\n"⟩

/-- Runs the command line with the given arguments. -/
def run (files : Files m) (args : List String) : m Output := do
  match Invocation.ofList? args with
  | none => return ⟨2, "", ""⟩
  | some i =>
    let (result, (h, s)) ← (i.command.run files).run ({ deferring := i.deferring }, {})
    return .ofRun h s result

end EcmaModules.CommandLine
