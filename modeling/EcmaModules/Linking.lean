import EcmaModules.Component
import EcmaModules.Namespace

/-!
# Linking

Linking a module resolves the imports of every module of its graph and sets up their variables. A
walk goes depth first along the requests. The modules of a component of the graph
(`EcmaModules.Component`) lie on top of each other on the stack of the walk when it is through with
their root, and become linked together.

The environment of a module is set up when all its requests have been gone through. That may fail,
and then every module still on the stack is unlinked again.
-/

namespace EcmaModules

/-! ## Environments -/

namespace Store

/-- The error that a name cannot be imported with the request. -/
def unresolved (s : Store) (r : Request) (name : String) (found : Resolution) : ErrorId × Store :=
  let complaint :=
    match found with
    | .ambiguous => "contains conflicting star exports for name"
    | _ => "does not provide an export named"
  s.throw .syntaxError
    ("The requested module '" ++ r.specifier ++ "' " ++ complaint ++ " '" ++ name ++ "'")

/-- The first re-export that stands for nothing. -/
def brokenReexport? (s : Store) (m : ModuleId) : Option IndirectExport :=
  (s.entries m).indirectExports.find? fun e ↦ !(s.resolveExport m e.exported).isBinding

/-- Finds out what a name imported from a module is bound to. -/
def bindImport (s : Store) (target : ModuleId) (i : ImportEntry) : Outcome ImportBinding × Store :=
  match i.imported with
  | none =>
    let (n, s) := s.namespaceOf target i.request.phase
    (.ok (.namespaceObject n), s)
  | some name =>
    match s.resolveExport target name with
    | .binding owner none =>
      let (n, s) := s.namespaceOf owner .evaluation
      (.ok (.namespaceObject n), s)
    | .binding owner (some owned) => (.ok (.indirect owner owned), s)
    | found =>
      let (e, s) := s.unresolved i.request name found
      (.error e, s)

/-- Binds imported names in front of those bound already. A name from a module that is not loaded
stays unbound. -/
def bindImports (s : Store) (m : ModuleId) :
    List ImportEntry → List (String × ImportBinding) →
      Outcome (List (String × ImportBinding)) × Store
  | [], env => (.ok env, s)
  | i :: rest, env =>
    match s.imported? m i.request with
    | none => s.bindImports m rest env
    | some target =>
      match s.bindImport target i with
      | (.ok b, s) => s.bindImports m rest ((i.localName, b) :: env)
      | (.error e, s) => (.error e, s)

/-- The variable that a step of the body declares. -/
def declared? : Step → Option (String × Option Value)
  | .declareFunction name => some (name, some (.host name))
  | .init name _ => some (name, none)
  | _ => none

/-- The variables that a body declares, the latest first. -/
def declaredVariables (body : List Step) : List (String × Option Value) :=
  (body.filterMap declared?).reverse

/-- Sets up the environment of a module with source text. The body's part of it, its variables, is
set up as far as that needs no steps to be run. -/
def initializeEnvironment (s : Store) (m : ModuleId) : Completion × Store :=
  match s.source? m with
  | none => (.ok (), s)
  | some r =>
    match s.brokenReexport? m with
    | some e =>
      let (error, s) := s.unresolved e.request e.exported (s.resolveExport m e.exported)
      (.error error, s)
    | none =>
      match s.bindImports m r.entries.imports [] with
      | (.error e, s) => (.error e, s)
      | (.ok env, s) =>
        let s := s.modifySource m fun r ↦ { r with environment := some env }
        (.ok (), s.modifyModule m fun r' ↦ { r' with bindings := declaredVariables r.body })

end Store

/-! ## Walks -/

/-- A module with those of its requests that a walk has not come to yet. -/
structure LinkFrame where
  module : ModuleId
  requests : List Request
deriving Repr, DecidableEq, Inhabited

/-- A walk that links modules. -/
structure LinkWalk where
  /-- The modules on the path to the one that the walk is at, that one first. -/
  frames : List LinkFrame := []
  /-- The modules that are not linked yet, the latest first. -/
  stack : List ModuleId := []
  index : Nat := 0
deriving Repr, DecidableEq, Inhabited

/-- What a walk comes to next. -/
inductive LinkStep where
  /-- Its end. -/
  | done
  | failed (e : ErrorId) (stack : List ModuleId)
  | go (w : LinkWalk)
  /-- A module whose environment is set up but for the steps of its body. When those have run, the
  walk is through with the module. -/
  | setUp (m : ModuleId) (w : LinkWalk)
deriving Inhabited

namespace LinkWalk

/-- Comes to a module, which is entered if it is unlinked. -/
def enter (s : Store) (w : LinkWalk) (m : ModuleId) : Store × Option LinkWalk :=
  if s.status? m = some .unlinked then
    ((s.setStatus m .linking).setDfsIndex m w.index,
      some
        { frames := ⟨m, (s.entries m).requests⟩ :: w.frames
          stack := m :: w.stack
          index := w.index + 1 })
  else (s, none)

/-- Notes in a module that the walk is through with a module it requested. -/
def leave (s : Store) (m required : ModuleId) : Store :=
  match s.source? required with
  | some r => if r.status = .linking then s.lowerAncestor m r.dfsAncestorIndex else s
  | none => s

/-- Links the modules on the stack down to the root of their component; the second part is the rest
of the stack. -/
def popComponent (s : Store) (root : ModuleId) : List ModuleId → Store × List ModuleId
  | [] => (s, [])
  | m :: stack =>
    let s := s.setStatus m .linked
    if m = root then (s, stack) else popComponent s root stack

/-- The walk is through with a module whose environment has been set up. -/
def conclude (s : Store) (w : LinkWalk) (m : ModuleId) : Store × LinkWalk :=
  let (s, stack) := if s.isComponentRoot m then popComponent s m w.stack else (s, w.stack)
  let s :=
    match w.frames with
    | parent :: _ => leave s parent.module m
    | [] => s
  (s, { w with stack := stack })

/-- Takes a walk one step further. -/
def advance (s : Store) (w : LinkWalk) : Store × LinkStep :=
  match w.frames with
  | [] => (s, .done)
  | ⟨m, []⟩ :: rest =>
    match s.initializeEnvironment m with
    | (.ok (), s) => (s, .setUp m { w with frames := rest })
    | (.error e, s) => (s, .failed e w.stack)
  | ⟨m, r :: requests⟩ :: rest =>
    let w := { w with frames := ⟨m, requests⟩ :: rest }
    match s.imported? m r with
    | none => (s, .go w)
    | some required =>
      match enter s w required with
      | (s, some w) => (s, .go w)
      | (s, none) => (leave s m required, .go w)

end LinkWalk

/-! ## Starting and failing -/

namespace Store

/-- Starts to link a module: either that is refused, or there is a walk. -/
def startLinking (s : Store) (m : ModuleId) : Outcome LinkWalk × Store :=
  match s.status? m with
  | some .new =>
    let (e, s) := s.throw .typeError "Cannot link a module that is not loaded"
    (.error e, s)
  | some .linking =>
    let (e, s) := s.throw .typeError "Cannot link a module that is already being linked"
    (.error e, s)
  | _ =>
    match LinkWalk.enter s {} m with
    | (s, some w) => (.ok w, s)
    | (s, none) => (.ok {}, s)

/-- Takes back the linking of modules. -/
def unlink (s : Store) (stack : List ModuleId) : Store :=
  stack.foldl (fun s m ↦ s.setStatus m .unlinked) s

end Store

end EcmaModules
