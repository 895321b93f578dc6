import EcmaModules.Linking
import EcmaModules.Promise
import EcmaModules.Synthetic

/-!
# Bodies

How the steps of a body are taken. Most of them are over at once. Some need something done that may
run other bodies in turn: reading from a namespace, linking, evaluating. And in a module that
awaits, a step may put off the rest of the body to a later job.

A body's names are those it imports and its own variables. The last import of a name counts.
-/

namespace EcmaModules

/-- On what occasion the steps of a body are taken. -/
inductive BodyMode where
  /-- The environment of the module is set up. -/
  | setUp
  /-- A synthetic module is evaluated. -/
  | synthetic
  /-- The module is executed; if it awaits, it has a promise. -/
  | execution (capability : Option PromiseId)
  /-- The module goes on in a job. -/
  | resumed (capability : PromiseId)
deriving Repr, DecidableEq, Inhabited

/-- The promise of the execution that the steps belong to. -/
def BodyMode.capability? : BodyMode → Option PromiseId
  | .setUp | .synthetic => none
  | .execution capability => capability
  | .resumed capability => some capability

/-- A body with those of its steps that have not been taken. -/
structure Body where
  module : ModuleId
  mode : BodyMode
  steps : List Step
deriving Inhabited

/-- What taking a step comes to. -/
inductive StepResult where
  /-- The step is over. -/
  | next
  | fail (e : ErrorId)
  /-- The rest of the body goes on in a job. -/
  | pause
  /-- An export has to be read. What it holds is printed under the label; if the read is a probe,
  so is an error. -/
  | read (space : NamespaceId) (name label : String) (probe : Bool)
  /-- The module that steps know by the name has to be linked. -/
  | link (m : ModuleId) (name : String)
  /-- The module that steps know by the name has to be evaluated. -/
  | evaluate (m : ModuleId) (name : String)
deriving Inhabited

namespace Store

/-! ## Names -/

/-- The value that a step writes down. -/
def operandValue (s : Store) : Operand → Value × Store
  | .value v => (v, s)
  | .namespaceOf name phase =>
    match s.named? name with
    | some m =>
      let (n, s) := s.namespaceOf m phase
      (.namespaceObject n, s)
    | none => (.undefined, s)

/-- The import of a name. -/
def importOf? (s : Store) (m : ModuleId) (name : String) : Option ImportEntry :=
  (s.entries m).imports.reverse.find? (·.localName == name)

/-- What a name holds in the body of a module. -/
def localValue (s : Store) (m : ModuleId) (name : String) : Outcome Value × Store :=
  match s.importOf? m name with
  | none => s.variableValue m name
  | some i =>
    match s.imported? m i.request, i.imported with
    | none, _ => (.ok .undefined, s)
    | some target, none =>
      let (n, s) := s.namespaceOf target i.request.phase
      (.ok (.namespaceObject n), s)
    | some target, some imported =>
      let (n, s) := s.namespaceOf target .evaluation
      s.readExport n imported

/-- The namespace that a name holds in the body of a module. -/
def localNamespace (s : Store) (m : ModuleId) (name : String) : Outcome NamespaceId × Store :=
  match s.localValue m name with
  | (.ok (.namespaceObject n), s) => (.ok n, s)
  | (.ok _, s) =>
    let (e, s) := s.throw .typeError (name ++ " is not a namespace")
    (.error e, s)
  | (.error e, s) => (.error e, s)

/-- Gives a body's own variable a value. -/
def initVariable (s : Store) (m : ModuleId) (name : String) (v : Value) : Store :=
  s.modifyModule m fun r ↦ { r with bindings := (name, some v) :: r.bindings }

/-- Puts a namespace on the stage. -/
def expose (s : Store) (n : NamespaceId) : Store :=
  { s with stage := { s.stage with exposed := some n } }

/-! ## Lines -/

/-- Prints what a label stands for. -/
def printValue (s : Store) (label : String) (v : Value) : Store :=
  s.print (label ++ " = " ++ s.valueText v)

/-- Prints that something has thrown. -/
def printThrown (s : Store) (label : String) (e : ErrorId) : Store :=
  s.print (label ++ " threw " ++ (s.error e).text)

/-- The word for the state that a promise is in. -/
def promiseText (s : Store) (p : PromiseId) : String :=
  match s.promise? p with
  | some .fulfilled => "fulfilled"
  | some (.rejected e) => "rejected " ++ (s.error e).text
  | _ => "pending"

end Store

/-! ## Steps -/

namespace Body

/-- Puts off the rest of the body until a promise is settled. -/
def putOff (s : Store) (b : Body) (capability : PromiseId) (p : PromiseId) : Store :=
  s.react p (.resumeBody b.module capability b.steps)

/-- Does something with the namespace that a name holds. -/
def withNamespace (s : Store) (b : Body) (name : String)
    (f : Store → NamespaceId → Store × StepResult) : Store × StepResult :=
  match s.localNamespace b.module name with
  | (.ok n, s) => f s n
  | (.error e, s) => (s, .fail e)

/-- The result of a step that ends in a completion. -/
def afterCompletion : Completion × Store → Store × StepResult
  | (.ok (), s) => (s, .next)
  | (.error e, s) => (s, .fail e)

/-- Takes a step. The steps of `b` are those after it. -/
def take (s : Store) (b : Body) : Step → Store × StepResult
  | .print text => (s.print text, .next)
  | .declareFunction _ => (s, .next)
  | .init name operand =>
    let (v, s) := s.operandValue operand
    (s.initVariable b.module name v, .next)
  | .await =>
    match b.mode.capability? with
    | none => (s, .next)
    | some capability =>
      let (p, s) := s.settledPromise (.ok ())
      (putOff s b capability p, .pause)
  | .suspend label =>
    match b.mode.capability? with
    | none => (s, .next)
    | some capability =>
      let (p, s) := s.newPromise
      let s := { s with stage := { s.stage with suspended := (label, p) :: s.stage.suspended } }
      (putOff s b capability p, .pause)
  | .read space name =>
    withNamespace s b space fun s n ↦ (s, .read n name (space ++ "." ++ name) false)
  | .probe space name =>
    withNamespace s b space fun s n ↦ (s, .read n name (space ++ "." ++ name) true)
  | .has space name =>
    withNamespace s b space fun s n ↦
      let answer := if s.hasExport n name then "true" else "false"
      (s.print (space ++ " has " ++ name ++ ": " ++ answer), .next)
  | .keys space =>
    withNamespace s b space fun s n ↦
      let keys := ((s.namespace? n).map (·.keys)).getD []
      (s.print (space ++ " keys: " ++ ",".intercalate keys), .next)
  | .binding name =>
    match s.localValue b.module name with
    | (.ok v, s) => (s.printValue name v, .next)
    | (.error e, s) => (s, .fail e)
  | .expose space => withNamespace s b space fun s n ↦ (s.expose n, .next)
  | .exposeModule name phase =>
    match s.named? name with
    | some m =>
      let (n, s) := s.namespaceOf m phase
      (s.expose n, .next)
    | none => (s, .next)
  | .readExposed name =>
    match s.stage.exposed with
    | some n => (s, .read n name ("exposed." ++ name) false)
    | none => (s, .next)
  | .link name =>
    match s.named? name with
    | some m => (s, .link m name)
    | none => (s, .next)
  | .evaluate name =>
    match s.named? name with
    | some m => (s, .evaluate m name)
    | none => (s, .next)
  | .status name =>
    match (s.named? name).bind s.status? with
    | some status => (s.print ("status " ++ name ++ " Some(" ++ status.name ++ ")"), .next)
    | none => (s.print ("status " ++ name ++ " None"), .next)
  | .setExport name exported operand =>
    let (v, s) := s.operandValue operand
    match s.named? name with
    | some m => afterCompletion (s.setExport m exported v)
    | none => (s, .next)
  | .setOwn name operand =>
    let (v, s) := s.operandValue operand
    afterCompletion (s.setExport b.module name v)
  | .throw kind message =>
    let (e, s) := s.throw kind message
    (s, .fail e)
  | .reject kind message =>
    match b.mode.capability? with
    | some p =>
      let (e, s) := s.throw kind message
      (s.reject p e, .next)
    | none => (s, .next)
  | .resolve =>
    match b.mode.capability? with
    | some p => (s.resolve p, .next)
    | none => (s, .next)

/-! ## The end of a body -/

/-- Ends the steps. When a module that awaits has gone through them its promise is fulfilled. An
error is handed on to whoever had the steps taken; in a job there is no one, and the promise is
rejected. -/
def finish (s : Store) (b : Body) (c : Completion) : Completion × Store :=
  match b.mode, c with
  | .execution (some p), .ok () => (.ok (), s.resolve p)
  | .resumed p, c => (.ok (), s.settle p c)
  | _, c => (c, s)

end Body

end EcmaModules
