import EcmaModules.Host

/-!
# Sessions

A session is what one can do with a graph of modules from outside: define modules, have them loaded,
linked and evaluated, run jobs, settle promises, and look at everything. Each operation gives a
reply.

Errors and promises are referred to by numbers, which they get in the order in which they are first
shown (`EcmaModules.Report`).
-/

namespace EcmaModules

/-! ## Definitions and operations -/

/-- What a module is made of. -/
inductive ModuleSource where
  /-- A text, with the steps of its body and those that set up its variables. -/
  | text (source : String) (body setup : List Step)
  | synthetic (exports : List String) (steps : List Step)
  /-- A synthetic module with a default export. -/
  | defaultExport (value : Operand)
deriving Inhabited

/-- The definition of a module. -/
structure Definition where
  /-- The name under which steps know the module and the host files it. -/
  name : String
  realm : RealmId := ⟨0⟩
  hostDefined : Option String := none
  source : ModuleSource
deriving Inhabited

/-- An error to be used. -/
inductive ErrorArgument where
  /-- A new one. -/
  | make (kind : ErrorKind) (message : String)
  /-- One that was shown before, by its number. -/
  | shown (number : Nat)
deriving Repr, DecidableEq, Inhabited

/-- A namespace to be looked at. -/
inductive NamespaceArgument where
  /-- The one on the stage. -/
  | exposed
  | of (module : String) (phase : Phase)
deriving Repr, DecidableEq, Inhabited

/-- What to answer to a request. -/
inductive AnswerArgument where
  /-- The module that is filed under the key of the request. -/
  | filed
  | module (name : String)
  | fail (e : ErrorArgument)
deriving Repr, DecidableEq, Inhabited

/-- An operation. Modules are given by their names, promises by their numbers. -/
inductive Operation where
  | add (d : Definition)
  /-- Files a module under another key as well. -/
  | alias (module key : String)
  | realm (hostDefined : Option String)
  | entries (module : String)
  | info (module : String)
  | mode (m : LoadMode)
  | load (module : String) (hostDefined : Option String)
  /-- Lists the requests that are to be answered when the host is told to. -/
  | pending
  /-- Answers one of those, for another request or referrer if these are given. -/
  | answer (index : Nat) (keep : Bool) (referrer : Option String) (request : Option Request)
      (what : AnswerArgument)
  /-- Answers all of those, always the first or always the last one. -/
  | answerAll (last : Bool)
  | link (module : String)
  | evaluate (module : String)
  /-- Runs jobs from the queue, at most a given number of them. -/
  | jobs (max : Option Nat)
  /-- Loads, links and evaluates a module. -/
  | run (module : String)
  /-- Settles the promise that a suspended body waits for. -/
  | resume (label : String) (reject : Option ErrorArgument)
  | exportedNames (module : String)
  | resolveExport (module name : String)
  | imported (module : String) (request : Request)
  | space (n : NamespaceArgument)
  | get (n : NamespaceArgument) (name : String)
  | has (n : NamespaceArgument) (name : String)
  | sameNamespace (left right : NamespaceArgument)
  | setExport (module name : String) (value : Operand)
  /-- Makes a promise that is pending. -/
  | capability
  | resolved
  | rejected (e : ErrorArgument)
  /-- Settles a promise. -/
  | settle (promise : Nat) (e : Option ErrorArgument)
  /-- Watches a promise. -/
  | watch (promise : Nat) (label : String) (chain : Option String) (resolve settle : Option Nat)
      (fails : Option ErrorArgument)
  | newError (e : ErrorArgument)
deriving Inhabited

/-! ## Replies -/

/-- What running jobs comes to: how many were run, and the errors of those that failed. -/
structure JobsReply (Error : Type) where
  ran : Nat
  errors : List Error
deriving Inhabited

/-- How far running a module has come. -/
inductive RunReply (Error Promise : Type) where
  | notLoaded (load : Promise) (jobs : JobsReply Error)
  | notLinked (load : Promise) (e : Error)
  | evaluated (load evaluation : Promise) (jobs : JobsReply Error)
deriving Inhabited

/-- What a module is. -/
structure ModuleInfo where
  hasText : Bool
  awaits : Bool
  hostDefined : Option String
  realm : RealmId
  realmHostDefined : Option String
deriving Repr, DecidableEq, Inhabited

/-- The reply to an operation. -/
inductive Reply (Error Promise : Type) where
  | ok
  /-- The text is not a module. -/
  | notAModule
  | realm (r : RealmId)
  | entries (e : Entries)
  | info (i : ModuleInfo)
  | promise (p : Promise)
  | calls (texts : List String)
  /-- The loading operation after an answer. -/
  | loading (p : Promise) (isLoading : Bool) (outstanding : Nat) (hostDefined : Option String)
  | answered (n : Nat)
  | error (e : Error)
  | jobs (j : JobsReply Error)
  | run (r : RunReply Error Promise)
  | names (ns : List String)
  /-- The name stands for a variable of the module, or for its namespace. -/
  | binding (module : String) (name : Option String)
  | unbound
  | ambiguous
  | module (name : Option String)
  | namespaceObject (text : String) (keys : List String)
  | value (text type : String)
  | flag (b : Bool)
  | newError (e : Error) (text : String)
deriving Inhabited

/-! ## The session -/

/-- A session. -/
structure Session where
  store : Store := {}
  host : Host := {}
  /-- Deferred imports are switched on. -/
  deferring : Bool := true
  /-- The errors that were shown, by their numbers. -/
  errors : Array ErrorId := #[]
  /-- The promises that were shown, by their numbers. -/
  promises : Array PromiseId := #[]
deriving Inhabited

/-- A new session. Without a script the host has no modules and loses jobs. -/
def Session.new (scripted deferring : Bool) : Session :=
  { store := { keepsJobs := scripted }
    host := { scripted := scripted }
    deferring := deferring }

/-- A reply with the errors and promises it refers to. -/
abbrev RawReply := Reply ErrorId PromiseId

namespace Session

/-- The session with another store. -/
def withStore (t : Session) (s : Store) : Session :=
  { t with store := s }

/-- Runs a task to its end. -/
def perform (t : Session) (task : Task) : Result × Session :=
  let (r, h, s) := t.host.perform t.store task
  (r, { t with host := h, store := s })

/-- The error to be used. -/
def errorOf (t : Session) : ErrorArgument → ErrorId × Session
  | .make kind message =>
    let (e, s) := t.store.throw kind message
    (e, t.withStore s)
  | .shown n => (t.errors[n]?.getD default, t)

/-- The promise that a result is. -/
def promiseOf : Result → PromiseId
  | .promise p => p
  | _ => default

/-- The namespace to be looked at. -/
def namespaceOf (t : Session) : NamespaceArgument → Option (NamespaceId × Session)
  | .exposed => t.store.stage.exposed.map fun n ↦ (n, t)
  | .of name phase =>
    (t.store.named? name).map fun m ↦
      let (n, s) := t.store.namespaceOf m phase
      (n, t.withStore s)

/-! ## Defining modules -/

/-- The content of a module with the given source, if that is a module. -/
def contentOf (t : Session) : ModuleSource → Option ModuleContent × Session
  | .text source body setup =>
    ((Entries.ofText? t.deferring source).map fun e ↦
      .sourceText { entries := e, body := body, setup := setup }, t)
  | .synthetic exports steps => (some (.synthetic (.ofNames exports steps)), t)
  | .defaultExport operand =>
    let (v, s) := t.store.operandValue operand
    (some (.synthetic (.ofDefault v)), t.withStore s)

/-- Defines a module. -/
def define (t : Session) (d : Definition) : RawReply × Session :=
  match t.contentOf d.source with
  | (none, t) => (.notAModule, t)
  | (some content, t) =>
    let (m, s) := t.store.addModule
      { content := content, realm := d.realm, hostDefined := d.hostDefined }
    let s := { s with stage := { s.stage with modules := (d.name, m) :: s.stage.modules } }
    (.ok, { t with store := s, host := t.host.register d.name m })

/-! ## Jobs -/

/-- Takes the oldest job from the queue and runs it. -/
def runJob (t : Session) (j : Job) (rest : List Job) : Completion × Session :=
  let (r, t) := (t.withStore { t.store with jobs := rest }).perform (.job j)
  (r.toCompletion, t)

/-- Runs jobs until there are none, but not more than the given number. -/
def runJobs : Nat → Session → JobsReply ErrorId → JobsReply ErrorId × Session
  | 0, t, done => (done, t)
  | limit + 1, t, done =>
    match t.store.jobs with
    | [] => (done, t)
    | j :: rest =>
      match t.runJob j rest with
      | (.ok (), t) => runJobs limit t ⟨done.ran + 1, done.errors⟩
      | (.error e, t) => runJobs limit t ⟨done.ran + 1, done.errors ++ [e]⟩

/-- Runs jobs from the queue, at most a given number of them. -/
def jobs (t : Session) (max : Option Nat) : JobsReply ErrorId × Session :=
  runJobs (max.getD Machine.stepLimit) t ⟨0, []⟩

/-! ## Answering requests -/

/-- Gives an answer to a request that was put off. -/
def giveAnswer (t : Session) (a : LoadAnswer) : Session :=
  (t.perform (.answers [a])).2

/-- The reply that shows a loading operation. -/
def loadingReply (t : Session) (l : LoadingId) : RawReply :=
  match t.store.loading? l with
  | some r => .loading r.promise r.isLoading r.outstanding.length r.hostDefined
  | none => .ok

/-- Answers one of the requests that were put off. -/
def answer (t : Session) (index : Nat) (keep : Bool) (referrer : Option String)
    (request : Option Request) (what : AnswerArgument) : Option (RawReply × Session) := do
  let call ← t.host.pending[index]?
  let t := if keep then t else
    { t with host := { t.host with pending := t.host.pending.eraseIdx index } }
  let referrer ←
    match referrer with
    | some name => t.store.named? name
    | none => some call.referrer
  let call : LoadCall := { call with referrer := referrer, request := request.getD call.request }
  let (outcome, t) ←
    match what with
    | .fail e =>
      let (e, t) := t.errorOf e
      some ((.error e : Outcome ModuleId), t)
    | .module name => (t.store.named? name).map fun m ↦ (.ok m, t)
    | .filed =>
      let (o, s) := t.host.lookUp t.store call.request.key
      some (o, t.withStore s)
  let t := t.giveAnswer ⟨call, outcome⟩
  return (t.loadingReply call.loading, t)

/-- Answers the requests that were put off, always the first or always the last one, until there
are none, but not more than the given number. -/
def answerAll (last : Bool) : Nat → Session → Nat → Nat × Session
  | 0, t, n => (n, t)
  | limit + 1, t, n =>
    let index := if last then t.host.pending.length - 1 else 0
    match t.host.pending[index]? with
    | none => (n, t)
    | some call =>
      let t := { t with host := { t.host with pending := t.host.pending.eraseIdx index } }
      let (a, s) := t.host.answerTo t.store call
      answerAll last limit ((t.withStore s).giveAnswer a) (n + 1)

/-! ## Running a module -/

/-- Loads, links and evaluates a module. -/
def run (t : Session) (m : ModuleId) : RunReply ErrorId PromiseId × Session :=
  let (load, t) := t.perform (.load m none)
  let load := promiseOf load
  let (jobs, t) := t.jobs none
  match t.store.promise? load with
  | some .fulfilled =>
    let (linked, t) := t.perform (.link m)
    match linked.toCompletion with
    | .error e => (.notLinked load e, t)
    | .ok () =>
      let (evaluation, t) := t.perform (.evaluate m)
      let (jobs, t) := t.jobs none
      (.evaluated load (promiseOf evaluation) jobs, t)
  | _ => (.notLoaded load jobs, t)

/-! ## Looking at things -/

/-- What a module is. -/
def info (t : Session) (m : ModuleId) : ModuleInfo :=
  let r := (t.store.module? m).getD ⟨.synthetic {}, ⟨0⟩, none, none, none, []⟩
  { hasText := (t.store.source? m).isSome
    awaits := (t.store.entries m).awaits
    hostDefined := r.hostDefined
    realm := r.realm
    realmHostDefined := (t.store.realms[r.realm.index]?).bind (·.hostDefined) }

/-- The reply that shows what a name stands for. -/
def resolutionReply (s : Store) : Resolution → RawReply
  | .missing => .unbound
  | .ambiguous => .ambiguous
  | .binding m name => .binding (s.nameOf m) name

/-- Watches a promise. -/
def watch (t : Session) (p : PromiseId) (label : String) (chain : Option String)
    (resolve settle : Option PromiseId) (fails : Option ErrorArgument) : Session :=
  let (fails, t) :=
    match fails with
    | some e =>
      let (e, t) := t.errorOf e
      (some e, t)
    | none => (none, t)
  t.withStore (t.store.react p (.watch ⟨p, label, chain, resolve, settle, fails⟩))

/-- Settles a promise: rejects it if there is an error, and fulfills it otherwise. -/
def settle (t : Session) (p : PromiseId) (e : Option ErrorArgument) : Session :=
  match e with
  | none => t.withStore (t.store.resolve p)
  | some e =>
    let (e, t) := t.errorOf e
    t.withStore (t.store.reject p e)

/-! ## Operations -/

/-- The reply to an operation. There is none if the operation refers to something that is not
there. -/
def reply (t : Session) : Operation → Option (RawReply × Session)
  | .add d => some (t.define d)
  | .alias name key => do
    let m ← t.store.named? name
    return (.ok, { t with host := t.host.register key m })
  | .realm hostDefined =>
    let r : RealmId := ⟨t.store.realms.size⟩
    some (.realm r, t.withStore { t.store with realms := t.store.realms.push ⟨hostDefined⟩ })
  | .entries name => do
    let m ← t.store.named? name
    return (.entries (t.store.entries m), t)
  | .info name => do
    let m ← t.store.named? name
    return (.info (t.info m), t)
  | .mode mode => some (.ok, { t with host := { t.host with mode := mode } })
  | .load name hostDefined => do
    let m ← t.store.named? name
    let (r, t) := t.perform (.load m hostDefined)
    return (.promise (promiseOf r), t)
  | .pending => some (.calls (t.host.pending.map (Host.callText t.store)), t)
  | .answer index keep referrer request what => t.answer index keep referrer request what
  | .answerAll last =>
    let (n, t) := answerAll last Machine.stepLimit t 0
    some (.answered n, t)
  | .link name => do
    let m ← t.store.named? name
    let (r, t) := t.perform (.link m)
    match r.toCompletion with
    | .ok () => return (.ok, t)
    | .error e => return (.error e, t)
  | .evaluate name => do
    let m ← t.store.named? name
    let (r, t) := t.perform (.evaluate m)
    return (.promise (promiseOf r), t)
  | .jobs max =>
    let (r, t) := t.jobs max
    some (.jobs r, t)
  | .run name => do
    let m ← t.store.named? name
    let (r, t) := t.run m
    return (.run r, t)
  | .resume label e => do
    let p ← t.store.stage.suspended.lookup label
    return (.ok, t.settle p e)
  | .exportedNames name => do
    let m ← t.store.named? name
    return (.names (t.store.exportedNames m), t)
  | .resolveExport name exported => do
    let m ← t.store.named? name
    return (resolutionReply t.store (t.store.resolveExport m exported), t)
  | .imported name request => do
    let m ← t.store.named? name
    return (.module ((t.store.imported? m request).map t.store.nameOf), t)
  | .space n => do
    let (n, t) ← t.namespaceOf n
    let r ← t.store.namespace? n
    return (.namespaceObject (t.store.namespaceText n) r.keys, t)
  | .get n name => do
    let (n, t) ← t.namespaceOf n
    let (r, t) := t.perform (.read n name)
    match r with
    | .value (.ok v) => return (.value (t.store.valueText v) v.typeName, t)
    | r =>
      match r.toCompletion with
      | .error e => return (.error e, t)
      | .ok () => return (.ok, t)
  | .has n name => do
    let (n, t) ← t.namespaceOf n
    return (.flag (t.store.hasExport n name), t)
  | .sameNamespace left right => do
    let (l, t) ← t.namespaceOf left
    let (r, t) ← t.namespaceOf right
    return (.flag (l = r), t)
  | .setExport name exported operand => do
    let m ← t.store.named? name
    let (v, s) := t.store.operandValue operand
    match s.setExport m exported v with
    | (.ok (), s) => return (.ok, t.withStore s)
    | (.error e, s) => return (.error e, t.withStore s)
  | .capability =>
    let (p, s) := t.store.newPromise
    some (.promise p, t.withStore s)
  | .resolved =>
    let (p, s) := t.store.settledPromise (.ok ())
    some (.promise p, t.withStore s)
  | .rejected e =>
    let (e, t) := t.errorOf e
    let (p, s) := t.store.settledPromise (.error e)
    some (.promise p, t.withStore s)
  | .settle n e => do
    let p ← t.promises[n]?
    return (.ok, t.settle p e)
  | .watch n label chain resolve settle fails => do
    let p ← t.promises[n]?
    let find (n : Option Nat) := n.bind fun n ↦ t.promises[n]?
    return (.ok, t.watch p label chain (find resolve) (find settle) fails)
  | .newError e =>
    let (e, t) := t.errorOf e
    some (.newError e (t.store.error e).text, t)

end Session

end EcmaModules
