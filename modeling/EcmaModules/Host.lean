import EcmaModules.Machine

/-!
# A scripted host

A host that keeps its modules in a registry and answers requests by a fixed policy: at once, when it
is told to, from a job, or twice. A request is filed under its specifier and attributes
(`Request.key`). It prints a line for every request that is put to it.

The other host there is has no modules and no queue for jobs: every request fails.
-/

namespace EcmaModules

/-- When a scripted host answers. -/
inductive LoadMode where
  /-- At once. -/
  | auto
  /-- When it is told to. -/
  | later
  /-- In a job. -/
  | job
  /-- At once, and then again. -/
  | twice
deriving Repr, DecidableEq, Inhabited

/-- A host. -/
structure Host where
  /-- The host has modules. -/
  scripted : Bool := true
  /-- The modules by the keys under which they are filed, the latest first. -/
  registry : List (String × ModuleId) := []
  mode : LoadMode := .auto
  /-- The requests that are to be answered when the host is told to, the oldest first. -/
  pending : List LoadCall := []
deriving Inhabited

namespace Host

/-- Files a module. -/
def register (h : Host) (key : String) (m : ModuleId) : Host :=
  { h with registry := (key, m) :: h.registry }

/-- What the host has under a key. -/
def lookUp (h : Host) (s : Store) (key : String) : Outcome ModuleId × Store :=
  match h.registry.lookup key with
  | some m => (.ok m, s)
  | none =>
    let (e, s) := s.throw .error ("Module " ++ key ++ " not found.")
    (.error e, s)

/-- The answer that the host has for a request. -/
def answerTo (h : Host) (s : Store) (call : LoadCall) : LoadAnswer × Store :=
  let (outcome, s) := h.lookUp s call.request.key
  (⟨call, outcome⟩, s)

/-- A request, with the module that makes it. -/
def callText (s : Store) (call : LoadCall) : String :=
  s.nameOf call.referrer ++ " -> " ++ call.request.key

/-- Prints that a request was put to the host. -/
def printCall (s : Store) (call : LoadCall) : Store :=
  let label :=
    match (s.loading? call.loading).bind (·.hostDefined) with
    | some l => " [" ++ l ++ "]"
    | none => ""
  s.print ("load " ++ callText s call ++ " (" ++ call.request.phase.name ++ ")" ++ label)

/-- The answers that the host gives to a question at once. -/
def reply (h : Host) (s : Store) : HostQuestion → List LoadAnswer × Host × Store
  | .answer call =>
    let (a, s) := h.answerTo s call
    ([a], h, s)
  | .load call =>
    if !h.scripted then
      let (e, s) := s.throw .typeError ("Cannot load module '" ++ call.request.specifier ++ "'")
      ([⟨call, .error e⟩], h, s)
    else
      let s := printCall s call
      match h.mode with
      | .auto =>
        let (a, s) := h.answerTo s call
        ([a], h, s)
      | .twice =>
        let (a, s) := h.answerTo s call
        ([a, a], h, s)
      | .later => ([], { h with pending := h.pending ++ [call] }, s)
      | .job => ([], h, s.defer (.answerLoad call))

/-- Runs a task to its end. -/
def perform (h : Host) (s : Store) (t : Task) : Result × Host × Store :=
  Id.run (Machine.perform (fun h s q ↦ pure (reply h s q)) h s t)

end Host

end EcmaModules
