import EcmaModules.Entries
import EcmaModules.Step

/-!
# The store

Everything that lasts between two calls: thrown errors, modules, namespaces, promises, realms,
loading operations and the queue of jobs. Records refer to each other by their place in the store,
so a graph of modules may have cycles. Nothing is ever removed, and a place once given keeps its
meaning; two errors are the same error only if they have the same place.

Looking up a place that holds nothing gives nothing, and changing it changes nothing.
-/

namespace EcmaModules

/-! ## Places -/

/-- A thrown error, by its place in the store. -/
structure ErrorId where
  index : Nat
deriving Repr, DecidableEq, Inhabited

/-- A module, by its place in the store. -/
structure ModuleId where
  index : Nat
deriving Repr, DecidableEq, Inhabited

/-- A promise, by its place in the store. -/
structure PromiseId where
  index : Nat
deriving Repr, DecidableEq, Inhabited

/-- A realm, by its place in the store. -/
structure RealmId where
  index : Nat
deriving Repr, DecidableEq, Inhabited

/-- A loading operation, by its place in the store. -/
structure LoadingId where
  index : Nat
deriving Repr, DecidableEq, Inhabited

/-! ## Errors -/

/-- A thrown error. -/
structure ThrownError where
  kind : ErrorKind
  message : String
deriving Repr, DecidableEq, Inhabited

/-- The text of an error. -/
def ThrownError.text (e : ThrownError) : String :=
  e.kind.name ++ ": " ++ e.message

/-- How something ended that has no value: normally, or with an error. -/
abbrev Completion := Except ErrorId Unit

/-- How something ended that has a value. -/
abbrev Outcome (α : Type) := Except ErrorId α

/-! ## Modules -/

/-- How far a module has come. It is new until its graph is loaded, then unlinked, linking and
linked. Evaluation takes a linked module to evaluating and evaluated, with a stop at evaluating
asynchronously if it waits for something. A module that is only behind a deferred import is
searched for modules that await; its own body has not run in any of the three searching states. -/
inductive Status where
  | new
  | unlinked
  | linking
  | linked
  | evaluating
  | evaluatingAsync
  | evaluated
  | asyncSubgraphsSearching
  | asyncSubgraphsSearchingAsync
  | asyncSubgraphsEvaluated
deriving Repr, DecidableEq, Inhabited

/-- The name of a status. -/
def Status.name : Status → String
  | .new => "New"
  | .unlinked => "Unlinked"
  | .linking => "Linking"
  | .linked => "Linked"
  | .evaluating => "Evaluating"
  | .evaluatingAsync => "EvaluatingAsync"
  | .evaluated => "Evaluated"
  | .asyncSubgraphsSearching => "AsyncSubgraphsSearching"
  | .asyncSubgraphsSearchingAsync => "AsyncSubgraphsSearchingAsync"
  | .asyncSubgraphsEvaluated => "AsyncSubgraphsEvaluated"

/-- The evaluation of the module is over, or waits for something. -/
def Status.isSettling : Status → Bool
  | .evaluatingAsync | .evaluated => true
  | _ => false

/-- Whether the evaluation of a module waits for something. -/
inductive AsyncState where
  /-- It does not. -/
  | none
  /-- It waits for itself or for a module that it requested. -/
  | pending
  /-- It no longer does. -/
  | settled
deriving Repr, DecidableEq, Inhabited

/-- A request of a module with the module that the host gave for it. -/
structure LoadedModule where
  request : Request
  module : ModuleId
deriving Repr, DecidableEq, Inhabited

/-- What an imported name is bound to. -/
inductive ImportBinding where
  | namespaceObject (n : NamespaceId)
  /-- A variable of another module. -/
  | indirect (module : ModuleId) (name : String)
deriving Repr, DecidableEq, Inhabited

/-- A module with source text. -/
structure SourceText where
  entries : Entries := {}
  /-- What the module does when it is executed. -/
  body : List Step := []
  /-- What the module does when its environment is initialized. -/
  setup : List Step := []
  status : Status := .new
  evaluationError : Option ErrorId := none
  /-- The point at which the current traversal first came to the module. -/
  dfsIndex : Nat := 0
  /-- The earliest such point among the modules of its component known so far. -/
  dfsAncestorIndex : Nat := 0
  loaded : List LoadedModule := []
  /-- The module of its component that was entered first. -/
  cycleRoot : Option ModuleId := none
  asyncState : AsyncState := .none
  /-- The promise of an evaluation that was started at this module. -/
  capability : Option PromiseId := none
  /-- The modules that wait for this one. -/
  asyncParents : List ModuleId := []
  /-- The number of modules that this one waits for. -/
  pendingAsync : Nat := 0
  /-- What the imported names are bound to, the latest binding first; `none` before the module is
  linked. -/
  environment : Option (List (String × ImportBinding)) := none
deriving Inhabited

/-- A module that is made by the host: a fixed list of exports, and steps that set them. -/
structure Synthetic where
  exportNames : List String := []
  /-- The steps, until they are run. -/
  steps : Option (List Step) := none
  /-- The values of the exports that have been set, the latest value first. -/
  values : List (String × Value) := []
  /-- How the steps ended. -/
  completion : Option Completion := none
deriving Inhabited

/-- What distinguishes the two sorts of modules. -/
inductive ModuleContent where
  | sourceText (r : SourceText)
  | synthetic (r : Synthetic)
deriving Inhabited

/-- A module. -/
structure Module where
  content : ModuleContent
  realm : RealmId := ⟨0⟩
  hostDefined : Option String := none
  /-- The namespace of the module, once it was asked for. -/
  namespaceId : Option NamespaceId := none
  /-- The namespace that evaluates the module when it is read, once it was asked for. -/
  deferredId : Option NamespaceId := none
  /-- The variables of the body; one without a value is not initialized yet. -/
  bindings : List (String × Option Value) := []
deriving Inhabited

/-- A namespace: the exports of a module as an object. -/
structure Namespace where
  module : ModuleId
  /-- The exported names, in the order of their code units. -/
  keys : List String
  /-- The module is evaluated when an export is read. -/
  deferred : Bool
deriving Repr, DecidableEq, Inhabited

/-! ## Promises, jobs and loading operations -/

/-- A request that was put to the host. -/
structure LoadCall where
  loading : LoadingId
  referrer : ModuleId
  request : Request
deriving Repr, DecidableEq, Inhabited

/-- What a host that watches a promise does when it is settled. -/
structure Watch where
  promise : PromiseId
  label : String
  /-- Register a note under this label with the same promise. -/
  chain : Option String := none
  /-- Fulfill this promise. -/
  resolve : Option PromiseId := none
  /-- Settle this promise in the same way. -/
  settle : Option PromiseId := none
  /-- End with this error. -/
  fails : Option ErrorId := none
deriving Repr, DecidableEq, Inhabited

/-- What to do when a promise is settled. -/
inductive Reaction where
  /-- Go on with the evaluation of the modules that wait for this one. -/
  | completeModule (m : ModuleId)
  /-- Go on with the body of a module. -/
  | resumeBody (m : ModuleId) (capability : PromiseId) (rest : List Step)
  /-- Have the host answer a request. -/
  | answerLoad (call : LoadCall)
  | watch (w : Watch)
  /-- Print, under a label, how the promise was settled. -/
  | note (label : String)
deriving Inhabited

/-- A promise. Settled promises keep no value but a possible error. -/
inductive Promise where
  | pending (reactions : List Reaction)
  | fulfilled
  | rejected (e : ErrorId)
deriving Inhabited

/-- How the promise was settled. -/
def Promise.completion? : Promise → Option Completion
  | .pending _ => none
  | .fulfilled => some (.ok ())
  | .rejected e => some (.error e)

/-- A reaction with the completion it reacts to. -/
structure Job where
  reaction : Reaction
  completion : Completion
deriving Inhabited

/-- An operation that loads the graph behind a module. -/
structure Loading where
  promise : PromiseId
  /-- The operation has neither succeeded nor failed yet. -/
  isLoading : Bool := true
  /-- The number of modules and answers that the operation still has to deal with. -/
  pending : Nat := 1
  /-- The modules that the operation has come to. -/
  visited : List ModuleId := []
  hostDefined : Option String := none
  /-- The requests that the host has not answered yet. -/
  outstanding : List (ModuleId × Request) := []
deriving Inhabited

/-- A realm. -/
structure Realm where
  hostDefined : Option String := none
deriving Repr, DecidableEq, Inhabited

/-! ## The store -/

/-- What the bodies of all modules share. -/
structure Stage where
  /-- The modules by the names that steps use, the latest first. -/
  modules : List (String × ModuleId) := []
  /-- The lines printed so far. -/
  lines : Array String := #[]
  /-- The namespace that bodies have put up for all to read. -/
  exposed : Option NamespaceId := none
  /-- The promises that suspended bodies wait for, by label, the latest first. -/
  suspended : List (String × PromiseId) := []
deriving Inhabited

/-- Everything that lasts between two calls. -/
structure Store where
  errors : Array ThrownError := #[]
  modules : Array Module := #[]
  namespaces : Array Namespace := #[]
  promises : Array Promise := #[]
  realms : Array Realm := #[{}]
  loadings : Array Loading := #[]
  /-- The jobs that wait to be run, the oldest first. -/
  jobs : List Job := []
  /-- Jobs are kept until they are run; otherwise they are lost. -/
  keepsJobs : Bool := true
  stage : Stage := {}
deriving Inhabited

namespace Store

/-! ## Errors -/

/-- Makes a new error. -/
def throw (s : Store) (kind : ErrorKind) (message : String) : ErrorId × Store :=
  (⟨s.errors.size⟩, { s with errors := s.errors.push ⟨kind, message⟩ })

/-- The error at a place. -/
def error (s : Store) (e : ErrorId) : ThrownError :=
  s.errors[e.index]?.getD default

/-! ## Modules -/

/-- The module at a place. -/
def module? (s : Store) (m : ModuleId) : Option Module :=
  s.modules[m.index]?

/-- The module at a place as one with source text. -/
def source? (s : Store) (m : ModuleId) : Option SourceText :=
  match s.module? m with
  | some ⟨.sourceText r, _, _, _, _, _⟩ => some r
  | _ => none

/-- The module at a place as a synthetic one. -/
def synthetic? (s : Store) (m : ModuleId) : Option Synthetic :=
  match s.module? m with
  | some ⟨.synthetic r, _, _, _, _, _⟩ => some r
  | _ => none

/-- Adds a module. -/
def addModule (s : Store) (m : Module) : ModuleId × Store :=
  (⟨s.modules.size⟩, { s with modules := s.modules.push m })

/-- Changes a module. -/
def modifyModule (s : Store) (m : ModuleId) (f : Module → Module) : Store :=
  { s with modules := s.modules.modify m.index f }

/-- Changes a module with source text. -/
def modifySource (s : Store) (m : ModuleId) (f : SourceText → SourceText) : Store :=
  s.modifyModule m fun r ↦
    match r.content with
    | .sourceText t => { r with content := .sourceText (f t) }
    | .synthetic _ => r

/-- Changes a synthetic module. -/
def modifySynthetic (s : Store) (m : ModuleId) (f : Synthetic → Synthetic) : Store :=
  s.modifyModule m fun r ↦
    match r.content with
    | .sourceText _ => r
    | .synthetic t => { r with content := .synthetic (f t) }

/-- The status of a module; synthetic modules have none. -/
def status? (s : Store) (m : ModuleId) : Option Status :=
  (s.source? m).map (·.status)

/-- Sets the status of a module. -/
def setStatus (s : Store) (m : ModuleId) (status : Status) : Store :=
  s.modifySource m fun r ↦ { r with status := status }

/-- The error that the evaluation of a module ended with. -/
def evaluationError? (s : Store) (m : ModuleId) : Option ErrorId :=
  (s.source? m).bind (·.evaluationError)

/-- The entries of a module; a synthetic one has none. -/
def entries (s : Store) (m : ModuleId) : Entries :=
  ((s.source? m).map (·.entries)).getD {}

/-- The module that stands for the component of a module, which is the module itself until it has
been part of an evaluation. -/
def cycleRoot (s : Store) (m : ModuleId) : ModuleId :=
  ((s.source? m).bind (·.cycleRoot)).getD m

/-- The module that was loaded for a request. -/
def imported? (s : Store) (referrer : ModuleId) (r : Request) : Option ModuleId :=
  (s.source? referrer).bind fun t ↦ (t.loaded.find? (·.request.same r)).map (·.module)

/-! ## Namespaces, loading operations and the stage -/

/-- The namespace at a place. -/
def namespace? (s : Store) (n : NamespaceId) : Option Namespace :=
  s.namespaces[n.index]?

/-- The loading operation at a place. -/
def loading? (s : Store) (l : LoadingId) : Option Loading :=
  s.loadings[l.index]?

/-- Changes a loading operation. -/
def modifyLoading (s : Store) (l : LoadingId) (f : Loading → Loading) : Store :=
  { s with loadings := s.loadings.modify l.index f }

/-- The loading operation goes on. -/
def isLoading (s : Store) (l : LoadingId) : Bool :=
  (s.loading? l).any (·.isLoading)

/-- Prints a line. -/
def print (s : Store) (line : String) : Store :=
  { s with stage := { s.stage with lines := s.stage.lines.push line } }

/-- The module that steps know by the name. -/
def named? (s : Store) (name : String) : Option ModuleId :=
  s.stage.modules.lookup name

/-- The name by which steps know a module. -/
def nameOf (s : Store) (m : ModuleId) : String :=
  ((s.stage.modules.find? (·.2 == m)).map (·.1)).getD ""

/-- The written form of a namespace. -/
def namespaceText (s : Store) (n : NamespaceId) : String :=
  match s.namespace? n with
  | some r =>
    if r.deferred then "[deferred namespace " ++ s.nameOf r.module ++ "]"
    else "[namespace " ++ s.nameOf r.module ++ "]"
  | none => ""

/-- The written form of a value. -/
def valueText (s : Store) (v : Value) : String :=
  v.text s.namespaceText

end Store

end EcmaModules
