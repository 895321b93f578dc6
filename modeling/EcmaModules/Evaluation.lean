import EcmaModules.Component
import EcmaModules.Promise

/-!
# Evaluation

Evaluating a module runs the bodies of its graph, each after those it requests. Two traversals share
one stack. The regular one executes modules. Behind a deferred import the other one takes over: it
executes nothing itself but looks for modules that await, and hands those, with all that they
request, back to the regular one, so that the modules it went through can be executed later at any
time without waiting.

A module that awaits, or requests one that has not finished, is not done when the traversal is
through with it. It counts what it waits for, and what it waits for knows it as a parent. When such
a module finishes, its parents go on (`EcmaModules.Completion`).

As in linking, the modules of a component are done with together. Once they are, the root speaks for
all of them: it has the promise of their evaluation, and waiting for one of them means waiting for
the root.

## Searching again

A module that has been searched may be entered again, by an import that needs it executed. It keeps
what it waits for and who waits for it. If that happens within one walk it is on the stack twice,
and is popped down to its lower place.
-/

namespace EcmaModules

/-- The two traversals. -/
inductive Traversal where
  /-- Modules are executed. -/
  | executing
  /-- Modules that await are looked for. -/
  | searching
deriving Repr, DecidableEq, Inhabited

/-- The status of a module while the traversal is at it or behind it. -/
def Traversal.status : Traversal → Status
  | .executing => .evaluating
  | .searching => .asyncSubgraphsSearching

/-- A module with those of its requests that a walk has not come to yet. -/
structure EvaluationFrame where
  module : ModuleId
  traversal : Traversal
  requests : List Request
deriving Repr, DecidableEq, Inhabited

/-- A walk that evaluates modules. -/
structure EvaluationWalk where
  /-- The modules on the path to the one that the walk is at, that one first. -/
  frames : List EvaluationFrame := []
  /-- The modules whose components are not complete yet, the latest first. -/
  stack : List ModuleId := []
  index : Nat := 0
deriving Repr, DecidableEq, Inhabited

/-- What a walk comes to next. -/
inductive EvaluationStep where
  /-- Its end. -/
  | done
  | failed (e : ErrorId) (stack : List ModuleId)
  | go (w : EvaluationWalk)
  /-- A synthetic module to be evaluated. -/
  | synthetic (m : ModuleId) (w : EvaluationWalk)
  /-- A module to be executed. A module that awaits gets a promise for that. -/
  | execute (m : ModuleId) (capability : Option PromiseId) (w : EvaluationWalk)
deriving Inhabited

/-! ## Coming to a module -/

/-- What a walk does with a module that it comes to. -/
inductive Arrival where
  /-- It goes on. -/
  | pass
  | fail (e : ErrorId)
  | enter (t : Traversal)
deriving Repr, DecidableEq, Inhabited

/-- The traversal in which a module is entered: one that awaits is executed even if it is searched
for. -/
def SourceText.traversal (r : SourceText) (t : Traversal) : Traversal :=
  if r.entries.awaits then .executing else t

/-- What a walk does with a module that it comes to. -/
def SourceText.arrival (r : SourceText) (t : Traversal) : Arrival :=
  let passOrFail : Arrival :=
    match r.evaluationError with
    | some e => .fail e
    | none => .pass
  match r.traversal t, r.status with
  | _, .evaluatingAsync | _, .evaluated => passOrFail
  | _, .evaluating => .pass
  | .searching, .asyncSubgraphsSearchingAsync | .searching, .asyncSubgraphsEvaluated => passOrFail
  | .searching, .asyncSubgraphsSearching => .pass
  | t, _ => .enter t

/-- The module as it is when a walk has entered it. One that is still being searched, or waits as a
result of that, keeps what it waits for and who waits for it. -/
def SourceText.entered (r : SourceText) (t : Traversal) (index : Nat) : SourceText :=
  let keeps := r.status = .asyncSubgraphsSearching || r.status = .asyncSubgraphsSearchingAsync
  { r with
    status := t.status
    dfsIndex := index
    dfsAncestorIndex := index
    pendingAsync := if keeps then r.pendingAsync else 0
    asyncParents := if keeps then r.asyncParents else []
    asyncState := .none }

namespace EvaluationWalk

/-- Enters a module. -/
def push (s : Store) (w : EvaluationWalk) (m : ModuleId) (t : Traversal) : Store × EvaluationWalk :=
  (s.modifySource m fun r ↦ r.entered t w.index,
    { frames := ⟨m, t, (s.entries m).requests⟩ :: w.frames
      stack := m :: w.stack
      index := w.index + 1 })

/-- A module that has been evaluated stands for itself from then on, unless the component that it
was part of is still being evaluated. -/
def detach (s : Store) (w : EvaluationWalk) (m : ModuleId) : Store :=
  if s.status? m = some .evaluated && !w.stack.contains (s.cycleRoot m) then
    s.modifySource m fun r ↦ { r with cycleRoot := some m }
  else s

/-! ## Going on from a requested module -/

/-- A module gets to know, from a module that it requested, the earliest point that it leads back
to. That concerns modules of one component only: the requested one is being executed, or both are
being searched. -/
def leadsBack (required module : Status) : Bool :=
  required = .evaluating
    || (required = .asyncSubgraphsSearching && module = .asyncSubgraphsSearching)

/-- Lets a module wait for another one, if that has not finished. -/
def await (s : Store) (m required : ModuleId) : Store :=
  match s.source? m, s.source? required with
  | some r, some d =>
    if d.asyncState = .pending && r.status != .evaluated && r.status != .asyncSubgraphsEvaluated
        && !d.asyncParents.contains m then
      let s := s.modifySource m fun r ↦ { r with pendingAsync := r.pendingAsync + 1 }
      s.modifySource required fun d ↦ { d with asyncParents := d.asyncParents ++ [m] }
    else s
  | _, _ => s

/-- The walk is back at a module from one that it requested. A module of another component is
represented by the root of that component, and if that has failed, so does the walk. -/
def leave (s : Store) (m required : ModuleId) : Completion × Store :=
  match s.source? m, s.source? required with
  | some r, some d =>
    if leadsBack d.status r.status then
      (.ok (), await (s.lowerAncestor m d.dfsAncestorIndex) m required)
    else if d.status = .asyncSubgraphsSearching then (.ok (), await s m required)
    else
      let root := s.cycleRoot required
      match s.evaluationError? root with
      | some e => (.error e, s)
      | none => (.ok (), await s m root)
  | _, _ => (.ok (), s)

/-- The walk is back at the module on top of its path from one that it requested. -/
def back (s : Store) (w : EvaluationWalk) (required : ModuleId) : Store × EvaluationStep :=
  match w.frames with
  | [] => (s, .go w)
  | f :: _ =>
    match leave s f.module required with
    | (.ok (), s) => (s, .go w)
    | (.error e, s) => (s, .failed e w.stack)

/-! ## Completing a component -/

/-- The status that a module of a complete component goes over to. One that has been evaluated in
the meantime stays as it is. -/
def completeStatus (r : SourceText) : Status :=
  let waits := r.asyncState = .pending
  match r.status with
  | .evaluating => if waits then .evaluatingAsync else .evaluated
  | .asyncSubgraphsSearching =>
    if waits then .asyncSubgraphsSearchingAsync else .asyncSubgraphsEvaluated
  | status => status

/-- Completes a module of the component of a root. -/
def completeMember (s : Store) (root m : ModuleId) : Store :=
  s.modifySource m fun r ↦ { r with status := completeStatus r, cycleRoot := some root }

/-- Takes the component of an executed root off the stack, down to the lowest place of the root; the
second part is the rest of the stack. -/
def popExecuted (s : Store) (root : ModuleId) : List ModuleId → Store × List ModuleId
  | [] => (s, [])
  | m :: stack =>
    let s := completeMember s root m
    if m = root && !stack.contains root then (s, stack) else popExecuted s root stack

/-- Takes the component of a searched root off the stack; the second part is the rest of it. -/
def popSearched (s : Store) (root : ModuleId) : List ModuleId → Store × List ModuleId
  | [] => (s, [])
  | m :: stack =>
    let s := completeMember s root m
    if m = root then (s, stack) else popSearched s root stack

/-- The module is the root of a component that the walk is through with. -/
def closesComponent (s : Store) (w : EvaluationWalk) (m : ModuleId) : Bool :=
  s.isComponentRoot m && w.stack.contains m

/-- The walk is through with a module that it executes. Below the component, modules may be on top
that were evaluated when something read from them; they are taken off as well. -/
def concludeExecuted (s : Store) (w : EvaluationWalk) (m : ModuleId) : Store × EvaluationStep :=
  if closesComponent s w m then
    let (s, stack) := popExecuted s m w.stack
    let stack := stack.dropWhile fun m ↦ (s.status? m).any (·.isSettling)
    back s { w with stack := stack } m
  else back s w m

/-- The walk is through with a module that it searched. -/
def concludeSearched (s : Store) (w : EvaluationWalk) (m : ModuleId) : Store × EvaluationStep :=
  let s := s.modifySource m fun r ↦
    if r.pendingAsync = 0 then r else { r with asyncState := .pending }
  if closesComponent s w m then
    let (s, stack) := popSearched s m w.stack
    back s { w with stack := stack } m
  else back s w m

end EvaluationWalk

/-! ## Executing a module -/

/-- Makes the promise for the execution of a module that awaits; when it is settled, those who wait
for the module go on. -/
def Store.startAsync (s : Store) (m : ModuleId) : PromiseId × Store :=
  let s := s.modifySource m fun r ↦ { r with asyncState := .pending }
  let (p, s) := s.newPromise
  (p, s.react p (.completeModule m))

namespace EvaluationWalk

/-- The walk has gone through all requests of a module that it executes. The module is executed now,
unless it has to wait for others. -/
def execute (s : Store) (w : EvaluationWalk) (m : ModuleId) : Store × EvaluationStep :=
  match s.source? m with
  | none => (s, .go w)
  | some r =>
    if 0 < r.pendingAsync then
      concludeExecuted (s.modifySource m fun r ↦ { r with asyncState := .pending }) w m
    else if r.entries.awaits then
      let (p, s) := s.startAsync m
      (s, .execute m (some p) w)
    else (s, .execute m none w)

/-- Goes on when a module has been executed. The error of a module that awaits goes to its promise
only. -/
def executed (s : Store) (w : EvaluationWalk) (m : ModuleId) (capability : Option PromiseId)
    (c : Completion) : Store × EvaluationStep :=
  match c, capability with
  | .ok (), _ => concludeExecuted s w m
  | .error e, some p => concludeExecuted (s.reject p e) w m
  | .error e, none => (s, .failed e w.stack)

/-- Goes on when a synthetic module has been evaluated. -/
def passed (s : Store) (w : EvaluationWalk) (c : Completion) : Store × EvaluationStep :=
  match c with
  | .ok () => (s, .go w)
  | .error e => (s, .failed e w.stack)

/-! ## The walk -/

/-- Comes to a module in a traversal. -/
def arrive (s : Store) (w : EvaluationWalk) (m : ModuleId) (t : Traversal) :
    Store × EvaluationStep :=
  match s.source? m with
  | none => (s, .synthetic m w)
  | some r =>
    match r.arrival t with
    | .fail e => (s, .failed e w.stack)
    | .pass =>
      let s := if r.traversal t = .executing then detach s w m else s
      back s w m
    | .enter t =>
      let (s, w) := push s w m t
      (s, .go w)

/-- The traversal in which a module comes to one that it requests. Behind a deferred request there
is nothing but searching. -/
def nextTraversal (t : Traversal) (r : Request) : Traversal :=
  match t, r.phase with
  | .executing, .evaluation => .executing
  | _, _ => .searching

/-- Takes a walk one step further. -/
def advance (s : Store) (w : EvaluationWalk) : Store × EvaluationStep :=
  match w.frames with
  | [] => (s, .done)
  | ⟨m, .executing, []⟩ :: rest => execute s { w with frames := rest } m
  | ⟨m, .searching, []⟩ :: rest => concludeSearched s { w with frames := rest } m
  | ⟨m, t, r :: requests⟩ :: rest =>
    let w := { w with frames := ⟨m, t, requests⟩ :: rest }
    match s.imported? m r with
    | some required => arrive s w required (nextTraversal t r)
    | none => (s, .go w)

end EvaluationWalk

/-! ## Starting and ending -/

/-- The walk that starts at a module. -/
def EvaluationWalk.start (s : Store) (m : ModuleId) : Store × EvaluationStep :=
  EvaluationWalk.arrive s {} m .executing

namespace Store

/-- The module that the evaluation of a module starts at: once it has been evaluated, or waits for
something, that is the root of its component. -/
def evaluationRoot (s : Store) (m : ModuleId) : ModuleId :=
  if (s.status? m).any (·.isSettling) then s.cycleRoot m else m

/-- The promise of the evaluation that was started at the module. -/
def capability? (s : Store) (m : ModuleId) : Option PromiseId :=
  (s.source? m).bind (·.capability)

/-- Makes the promise of an evaluation that starts at the module. -/
def newCapability (s : Store) (m : ModuleId) : PromiseId × Store :=
  let (p, s) := s.newPromise
  (p, s.modifySource m fun r ↦ { r with capability := some p })

/-- The modules that a failed walk leaves on its stack have failed with it. -/
def failModules (s : Store) (stack : List ModuleId) (e : ErrorId) : Store :=
  stack.foldl
    (fun s m ↦ s.modifySource m fun r ↦
      { r with
        status := .evaluated
        evaluationError := some e
        asyncState := if r.asyncState = .pending then .settled else r.asyncState })
    s

/-- Ends the evaluation that was started at a module, when its walk has. The promise stays pending
if the module waits for something. -/
def finishEvaluation (s : Store) (m : ModuleId) (p : PromiseId) : Store :=
  if s.status? m = some .evaluated then s.resolve p else s

end Store

end EcmaModules
