import EcmaModules.Promise

/-!
# Loading

Loading a module brings in the graph behind it. A walk goes from module to module along the requests
that have been loaded before, and puts every other request to the host. The host may answer at once,
which starts a walk from the answer while the first one is still under way, or at any time later.

One loading operation counts what it still has to deal with: itself, and each request of each module
it has come to. When nothing is left, the modules it has come to are loaded. The first failure ends
it; answers that come after that are still recorded but lead nowhere.

A host has to answer each request once, and each time with the same module. What it does beyond that
fails the operation.
-/

namespace EcmaModules

/-! ## Walks -/

/-- A module with those of its requests that a walk has not come to yet. -/
structure LoadFrame where
  module : ModuleId
  requests : List Request
deriving Repr, DecidableEq, Inhabited

/-- A walk of a loading operation; the module that it is at comes first. -/
structure LoadWalk where
  loading : LoadingId
  frames : List LoadFrame
deriving Repr, DecidableEq, Inhabited

/-- What a walk comes to next. -/
inductive LoadStep where
  /-- Its end. -/
  | done
  | go (w : LoadWalk)
  /-- A request for the host; the walk goes on when the host is done with it. -/
  | ask (call : LoadCall) (w : LoadWalk)
deriving Repr, Inhabited

namespace Store

/-- The operation has to go through the requests of the module: it is new, and the operation has
not come to it before. -/
def descends (s : Store) (l : LoadingId) (m : ModuleId) : Bool :=
  s.status? m == some .new && !(s.loading? l).any (·.visited.contains m)

/-- Comes to a module. -/
def visit (s : Store) (l : LoadingId) (m : ModuleId) : Store :=
  s.modifyLoading l fun r ↦
    { r with
      visited := r.visited ++ [m]
      pending := r.pending + (s.entries m).requests.length }

/-- The graph of the module is loaded. -/
def markLoaded (s : Store) (m : ModuleId) : Store :=
  s.modifySource m fun r ↦ if r.status = .new then { r with status := .unlinked } else r

/-- The operation is through with one module or answer. If that was the last one, it succeeds. -/
def finishDescent (s : Store) (l : LoadingId) : Store :=
  match s.loading? l with
  | none => s
  | some r =>
    let s := s.modifyLoading l fun r ↦ { r with pending := r.pending - 1 }
    if r.pending = 1 then
      let s := s.modifyLoading l fun r ↦ { r with isLoading := false, visited := [] }
      (r.visited.foldl markLoaded s).resolve r.promise
    else s

/-- Ends an operation with an error. -/
def failLoading (s : Store) (l : LoadingId) (e : ErrorId) : Store :=
  match s.loading? l with
  | none => s
  | some r => (s.modifyLoading l fun r ↦ { r with isLoading := false }).reject r.promise e

end Store

/-- The walk that starts at a module. -/
def LoadWalk.from (s : Store) (l : LoadingId) (m : ModuleId) : Store × LoadWalk :=
  if s.descends l m then (s.visit l m, ⟨l, [⟨m, (s.entries m).requests⟩]⟩)
  else (s.finishDescent l, ⟨l, []⟩)

/-- Takes a walk one step further. -/
def LoadWalk.advance (s : Store) (w : LoadWalk) : Store × LoadStep :=
  if !s.isLoading w.loading then (s, .done)
  else
    match w.frames with
    | [] => (s, .done)
    | ⟨_, []⟩ :: rest => (s.finishDescent w.loading, .go { w with frames := rest })
    | ⟨m, r :: requests⟩ :: rest =>
      let w := { w with frames := ⟨m, requests⟩ :: rest }
      match s.imported? m r with
      | some target =>
        if s.descends w.loading target then
          (s.visit w.loading target,
            .go { w with frames := ⟨target, (s.entries target).requests⟩ :: w.frames })
        else (s.finishDescent w.loading, .go w)
      | none =>
        (s.modifyLoading w.loading fun l ↦ { l with outstanding := l.outstanding ++ [(m, r)] },
          .ask ⟨w.loading, m, r⟩ w)

/-! ## Starting, and taking answers -/

/-- An answer of the host to a request. -/
structure LoadAnswer where
  call : LoadCall
  outcome : Outcome ModuleId
deriving Inhabited

namespace Store

/-- Starts to load the graph behind a module with source text. -/
def startLoading (s : Store) (m : ModuleId) (hostDefined : Option String) :
    PromiseId × LoadWalk × Store :=
  let (p, s) := s.newPromise
  let l : LoadingId := ⟨s.loadings.size⟩
  let loading : Loading := { promise := p, hostDefined := hostDefined }
  let (s, w) := LoadWalk.from { s with loadings := s.loadings.push loading } l m
  (p, w, s)

/-- The request is one that the operation waits for. -/
def isOutstanding (s : Store) (call : LoadCall) : Bool :=
  (s.loading? call.loading).any
    (·.outstanding.any fun o ↦ o.1 == call.referrer && o.2.same call.request)

/-- The operation no longer waits for the request. -/
def takeOutstanding (s : Store) (call : LoadCall) : Store :=
  s.modifyLoading call.loading fun l ↦
    { l with
      outstanding :=
        l.outstanding.eraseP fun o ↦ o.1 == call.referrer && o.2.same call.request }

/-- Notes the module that was given for a request. If another one was given for it before, that is
an error. -/
def recordLoaded (s : Store) (call : LoadCall) (m : ModuleId) : Outcome ModuleId × Store :=
  match s.imported? call.referrer call.request with
  | some known =>
    if known = m then (.ok m, s)
    else
      let (e, s) := s.throw .typeError
        ("Module request '" ++ call.request.specifier ++ "' resolved to two different modules")
      (.error e, s)
  | none =>
    (.ok m, s.modifySource call.referrer fun r ↦
      { r with loaded := r.loaded ++ [⟨call.request, m⟩] })

/-- What an answer means for the operation. -/
def checkAnswer (s : Store) (a : LoadAnswer) : Outcome ModuleId × Store :=
  if s.isOutstanding a.call then
    let s := s.takeOutstanding a.call
    match a.outcome with
    | .ok m => s.recordLoaded a.call m
    | .error e => (.error e, s)
  else
    let (e, s) := s.throw .typeError
      ("Module request '" ++ a.call.request.specifier ++ "' was not awaiting completion")
    (.error e, s)

/-- Takes an answer of the host. The walk, if there is one, goes on from the module given. -/
def takeAnswer (s : Store) (a : LoadAnswer) : Store × Option LoadWalk :=
  let (outcome, s) := s.checkAnswer a
  if !s.isLoading a.call.loading then (s, none)
  else
    match outcome with
    | .ok m =>
      let (s, w) := LoadWalk.from s a.call.loading m
      (s, some w)
    | .error e => (s.failLoading a.call.loading e, none)

end Store

end EcmaModules
