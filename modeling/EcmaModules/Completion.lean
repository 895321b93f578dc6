import EcmaModules.Evaluation

/-!
# Completion

What happens when a module that others wait for has finished. If it succeeded, each of its parents
waits for one module less. Those that wait for nothing any more are gathered, and with each of them
that does not await also the parents it sets free in turn; then all of them are executed, in the
order in which they were gathered. If the module failed, its parents fail with the same error, and
so do theirs.
-/

namespace EcmaModules.Store

/-! ## Gathering -/

/-- The module cannot be set free by one that it waits for: it is over, or the component that it is
part of has failed. -/
def isBeyondWaiting (s : Store) (m : ModuleId) : Bool :=
  (s.evaluationError? (s.cycleRoot m)).isSome || s.status? m == some .evaluated

/-- Adds to a list the parents of a module that wait for nothing any more now that it has finished.
A parent that does not await counts as finished for its own parents. Each further step down adds a
module to the list, so the number of modules bounds the depth. -/
def gatherFrom : Nat → Store → ModuleId → List ModuleId → Store × List ModuleId
  | 0, s, _, free => (s, free)
  | depth + 1, s, m, free =>
    ((s.source? m).map (·.asyncParents)).getD [] |>.foldl
      (fun acc parent ↦
        let (s, free) := acc
        if free.contains parent || s.isBeyondWaiting parent then (s, free)
        else
          let s := s.modifySource parent fun r ↦ { r with pendingAsync := r.pendingAsync - 1 }
          match s.source? parent with
          | some r =>
            if r.pendingAsync = 0 then
              let free := free ++ [parent]
              if r.entries.awaits then (s, free) else gatherFrom depth s parent free
            else (s, free)
          | none => (s, free))
      (s, free)

/-- The modules that are set free by a module that has finished, in the order in which they are to
be executed. -/
def gather (s : Store) (m : ModuleId) : Store × List ModuleId :=
  gatherFrom (s.modules.size + 1) s m []

/-! ## Success -/

/-- Fulfills the promise of the evaluation that was started at the module, if one was. -/
def resolveCapability (s : Store) (m : ModuleId) : Store :=
  match s.capability? m with
  | some p => s.resolve p
  | none => s

/-- The module no longer waits for anything. -/
def settleAsync (s : Store) (m : ModuleId) : Store :=
  s.modifySource m fun r ↦ { r with asyncState := .settled }

/-- Completes a module whose asynchronous execution has succeeded; the second part is the modules
that are to be executed next. -/
def fulfillModule (s : Store) (m : ModuleId) : Store × List ModuleId :=
  if s.status? m = some .evaluated then (s, [])
  else (((s.settleAsync m).setStatus m .evaluated).resolveCapability m).gather m

/-! ## Failure -/

/-- Rejects the promise of the evaluation that was started at the module, if one was. -/
def rejectCapability (s : Store) (m : ModuleId) (e : ErrorId) : Store :=
  match s.capability? m with
  | some p => s.reject p e
  | none => s

/-- The module has failed. -/
def markFailed (s : Store) (m : ModuleId) (e : ErrorId) : Store :=
  s.modifySource m fun r ↦
    { r with evaluationError := some e, asyncState := .settled, status := .evaluated }

/-- Fails a module and all that wait for it, unless they are over. Each step down marks another
module, so the number of modules bounds the depth. -/
def rejectFrom : Nat → Store → ModuleId → ErrorId → Store
  | 0, s, _, _ => s
  | depth + 1, s, m, e =>
    if s.status? m = some .evaluated then s
    else
      let s := s.markFailed m e
      let s := ((s.source? m).map (·.asyncParents)).getD [] |>.foldl
        (fun s parent ↦ rejectFrom depth s parent e) s
      s.rejectCapability m e

/-- Fails a module and all that wait for it. -/
def rejectModule (s : Store) (m : ModuleId) (e : ErrorId) : Store :=
  rejectFrom (s.modules.size + 1) s m e

/-! ## Going on with the modules that were set free -/

/-- What is to be done with a module that was set free. -/
inductive FreeStep where
  /-- Nothing more. -/
  | over
  /-- It is executed; if it awaits it gets a promise for that. -/
  | execute (capability : Option PromiseId)
deriving Inhabited

/-- What is to be done with a module that was set free. One that was only searched is not executed:
it needs nothing to be waited for any more, and runs when it is read. -/
def continueFree (s : Store) (m : ModuleId) : FreeStep × Store :=
  match s.source? m with
  | none => (.over, s)
  | some r =>
    if r.status = .evaluated then (.over, s)
    else if r.entries.awaits then
      let (p, s) := s.startAsync m
      (.execute (some p), s)
    else if r.status = .asyncSubgraphsSearchingAsync then
      (.over, ((s.setStatus m .asyncSubgraphsEvaluated).settleAsync m).resolveCapability m)
    else (.execute none, s)

/-- Goes on when a module that was set free has been executed. -/
def finishFree (s : Store) (m : ModuleId) (capability : Option PromiseId) (c : Completion) :
    Store :=
  match c, capability with
  | .ok (), none => ((s.setStatus m .evaluated).settleAsync m).resolveCapability m
  | .error e, none => s.rejectModule m e
  | .ok (), some _ => s
  | .error e, some p => s.reject p e

end EcmaModules.Store
