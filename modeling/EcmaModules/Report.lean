import EcmaModules.Session

/-!
# Reports

The report on an operation shows its reply, the lines printed meanwhile, and what has changed: the
modules whose status, component root or error is not what was last reported, and the promises that
have been settled since. A module is reported when it is new, and a promise when it is first shown.

Errors and promises have numbers. An error gets its number when it is first written, so the same
thrown error has the same number everywhere; a promise gets one when a reply first gives it. Within
a report the reply comes first, then the modules in the order of their definition, then the promises
in the order of their numbers.
-/

namespace EcmaModules

/-- An error as it is shown. -/
structure ErrorReport where
  number : Nat
  kind : ErrorKind
  message : String
deriving Repr, DecidableEq, Inhabited

/-- A module as it is shown, with errors of the given type. -/
structure ModuleReport (Error : Type) where
  status : String
  /-- The name of the module that stands for the component of the module. -/
  root : String
  error : Option Error
deriving Repr, DecidableEq, Inhabited

/-- A promise as it is shown, with errors of the given type. -/
inductive PromiseReport (Error : Type) where
  | pending
  | fulfilled
  | rejected (e : Error)
deriving Repr, DecidableEq, Inhabited

/-- The report on an operation. -/
structure Report where
  /-- `none` if the operation referred to something that is not there. -/
  reply : Option (Reply ErrorReport Nat)
  lines : List String
  modules : List (String × ModuleReport ErrorReport)
  promises : List (Nat × PromiseReport ErrorReport)
deriving Inhabited

/-- A session with what was last reported of it. -/
structure Reporter where
  session : Session := {}
  /-- The modules as they were last reported, in the order of their definition. -/
  modules : List (ModuleReport ErrorId) := []
  /-- The promises as they were last reported, by their numbers. -/
  promises : List (PromiseReport ErrorId) := []
deriving Inhabited

/-! ## Numbers -/

/-- A session goes along with what is written about it. -/
abbrev Numbering := StateM Session

namespace Session

/-- The place of the first element that is the given one. -/
def numberOf {α : Type} [BEq α] (xs : Array α) (x : α) : Option Nat :=
  xs.toList.findIdx? (· == x)

/-- Shows an error. -/
def showError (e : ErrorId) : Numbering ErrorReport := do
  let t ← get
  let r := t.store.error e
  match numberOf t.errors e with
  | some n => return ⟨n, r.kind, r.message⟩
  | none =>
    set { t with errors := t.errors.push e }
    return ⟨t.errors.size, r.kind, r.message⟩

/-- Gives the number of a promise. -/
def showPromise (p : PromiseId) : Numbering Nat := do
  let t ← get
  match numberOf t.promises p with
  | some n => return n
  | none =>
    set { t with promises := t.promises.push p }
    return t.promises.size

/-- Shows what running jobs came to. -/
def showJobs (j : JobsReply ErrorId) : Numbering (JobsReply ErrorReport) := do
  return ⟨j.ran, ← j.errors.mapM showError⟩

/-- Shows how far running a module has come. -/
def showRun : RunReply ErrorId PromiseId → Numbering (RunReply ErrorReport Nat)
  | .notLoaded load jobs => return .notLoaded (← showPromise load) (← showJobs jobs)
  | .notLinked load e => return .notLinked (← showPromise load) (← showError e)
  | .evaluated load evaluation jobs =>
    return .evaluated (← showPromise load) (← showPromise evaluation) (← showJobs jobs)

/-- Shows a reply. -/
def showReply : RawReply → Numbering (Reply ErrorReport Nat)
  | .ok => return .ok
  | .notAModule => return .notAModule
  | .realm r => return .realm r
  | .entries e => return .entries e
  | .info i => return .info i
  | .promise p => return .promise (← showPromise p)
  | .calls texts => return .calls texts
  | .loading p isLoading outstanding hostDefined =>
    return .loading (← showPromise p) isLoading outstanding hostDefined
  | .answered n => return .answered n
  | .error e => return .error (← showError e)
  | .jobs j => return .jobs (← showJobs j)
  | .run r => return .run (← showRun r)
  | .names ns => return .names ns
  | .binding m name => return .binding m name
  | .unbound => return .unbound
  | .ambiguous => return .ambiguous
  | .module name => return .module name
  | .namespaceObject text keys => return .namespaceObject text keys
  | .value text type => return .value text type
  | .flag b => return .flag b
  | .newError e text => return .newError (← showError e) text

/-! ## Modules and promises -/

/-- The state of a module. -/
def moduleReport (s : Store) (m : ModuleId) : ModuleReport ErrorId :=
  { status := ((s.status? m).map (·.name)).getD "Synthetic"
    root := s.nameOf (s.cycleRoot m)
    error := s.evaluationError? m }

/-- The state of a promise. -/
def promiseReport (s : Store) (p : PromiseId) : PromiseReport ErrorId :=
  match s.promise? p with
  | some .fulfilled => .fulfilled
  | some (.rejected e) => .rejected e
  | _ => .pending

/-- Shows a module. -/
def showModule (r : ModuleReport ErrorId) : Numbering (ModuleReport ErrorReport) := do
  return ⟨r.status, r.root, ← r.error.mapM showError⟩

/-- Shows a promise. -/
def showPromiseState : PromiseReport ErrorId → Numbering (PromiseReport ErrorReport)
  | .pending => return .pending
  | .fulfilled => return .fulfilled
  | .rejected e => return .rejected (← showError e)

end Session

/-- The elements that are not what they were before, with their places. -/
def changes {α : Type} [DecidableEq α] (before now : List α) : List (Nat × α) :=
  now.zipIdx.filterMap fun (x, i) ↦ if before[i]? = some x then none else some (i, x)

namespace Reporter

/-- A new session, of which nothing has been reported. -/
def new (scripted deferring : Bool) : Reporter :=
  { session := .new scripted deferring }

/-- Shows the modules that have changed. -/
def showModules (s : Store) (changed : List (Nat × ModuleReport ErrorId)) :
    Numbering (List (String × ModuleReport ErrorReport)) :=
  changed.mapM fun c ↦ do return (s.nameOf ⟨c.1⟩, ← Session.showModule c.2)

/-- Shows the promises that have changed. -/
def showPromises (changed : List (Nat × PromiseReport ErrorId)) :
    Numbering (List (Nat × PromiseReport ErrorReport)) :=
  changed.mapM fun c ↦ do return (c.1, ← Session.showPromiseState c.2)

/-- Does an operation and reports on it. -/
def report (r : Reporter) (op : Operation) : Report × Reporter :=
  let (reply, t) :=
    match r.session.reply op with
    | some (reply, t) =>
      let (reply, t) := (Session.showReply reply).run t
      (some reply, t)
    | none => (none, r.session)
  let s := t.store
  let modules := (List.range s.modules.size).map fun i ↦ Session.moduleReport s ⟨i⟩
  let promises := t.promises.toList.map (Session.promiseReport s)
  let (shownModules, t) := (showModules s (changes r.modules modules)).run t
  let (shownPromises, t) := (showPromises (changes r.promises promises)).run t
  let t := t.withStore { s with stage := { s.stage with lines := #[] } }
  (⟨reply, s.stage.lines.toList, shownModules, shownPromises⟩, ⟨t, modules, promises⟩)

end Reporter

end EcmaModules
