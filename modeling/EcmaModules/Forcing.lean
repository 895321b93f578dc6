import EcmaModules.Evaluation

/-!
# Forcing

An export of a deferred namespace is read only after its module has been evaluated. That evaluation
has to finish before the read goes on, so it is started only if nothing in the graph of the module
has to be waited for. If something has, the module is left as it is; its variables may then not be
initialized yet, and reading one of those fails.
-/

namespace EcmaModules

/-- Whether a module can be evaluated without waiting, as far as it alone shows. -/
inductive Readiness where
  /-- It needs no evaluation, or is being evaluated further up. -/
  | ready
  | waits
  /-- As much as what it requests. -/
  | asRequested
deriving Repr, DecidableEq, Inhabited

/-- Whether a module can be evaluated without waiting, as far as it alone shows. -/
def SourceText.readiness (r : SourceText) : Readiness :=
  match r.status with
  | .evaluated => .ready
  | .evaluatingAsync | .asyncSubgraphsSearchingAsync => .waits
  | .evaluating => if r.asyncState = .pending then .waits else .ready
  | _ => if r.entries.awaits then .waits else .asRequested

namespace Store

/-- None of the modules, and nothing behind them but for what was met before, has to be waited
for. Each module is gone through once, so the number of loaded requests bounds the way. -/
def readyFrom (s : Store) : Nat → List ModuleId → List ModuleId → Bool
  | 0, _, _ => true
  | _ + 1, _, [] => true
  | left + 1, met, m :: rest =>
    if met.contains m then s.readyFrom left met rest
    else
      match s.source? m with
      | none => s.readyFrom left (m :: met) rest
      | some r =>
        match r.readiness with
        | .ready => s.readyFrom left (m :: met) rest
        | .waits => false
        | .asRequested => s.readyFrom left (m :: met) (r.loaded.map (·.module) ++ rest)

/-- The number of loaded requests of all modules. -/
def loadedCount (s : Store) : Nat :=
  s.modules.foldl
    (fun n m ↦
      match m.content with
      | .sourceText r => n + r.loaded.length
      | .synthetic _ => n) 0

/-- The module can be evaluated without waiting for anything. -/
def isReady (s : Store) (m : ModuleId) : Bool :=
  s.readyFrom (s.loadedCount + 2) [] [m]

end Store

/-- What has to be done before an export of a deferred namespace is read. -/
inductive ForceStep where
  /-- Nothing; the read goes on or fails. -/
  | over (c : Completion)
  /-- The module is a synthetic one and has to be evaluated as such. -/
  | synthetic
  /-- The module has to be evaluated. -/
  | evaluate
deriving Inhabited

namespace Store

/-- What has to be done before an export of the deferred namespace of a module is read. -/
def force (s : Store) (m : ModuleId) : ForceStep × Store :=
  match s.source? m with
  | none => (.synthetic, s)
  | some r =>
    match r.status with
    | .evaluated =>
      match r.evaluationError with
      | some e => (.over (.error e), s)
      | none => (.over (.ok ()), s)
    | .evaluating | .evaluatingAsync => (.over (.ok ()), s)
    | .new | .unlinked | .linking =>
      let (e, s) := s.throw .typeError "Cannot access the exports of a module that is not linked"
      (.over (.error e), s)
    | .linked | .asyncSubgraphsSearching | .asyncSubgraphsSearchingAsync
    | .asyncSubgraphsEvaluated =>
      if s.isReady m then (.evaluate, s) else (.over (.ok ()), s)

/-- How the forced evaluation of a module ended whose walk has ended well. -/
def finishForced (s : Store) (m : ModuleId) : Completion × Store :=
  if s.status? m = some .evaluated then (.ok (), s)
  else
    let (e, s) := s.throw .typeError "Deferred module could not be evaluated synchronously"
    (.error e, s)

end Store

end EcmaModules
