import EcmaModules.Store

/-!
# Promises and jobs

A promise leaves the pending state at most once. A reaction never runs at once: when its promise is
settled, or already is, it joins the queue as a job, together with the way the promise was settled.
The reactions of one promise join in the order in which they were registered.
-/

namespace EcmaModules.Store

/-- The promise at a place. -/
def promise? (s : Store) (p : PromiseId) : Option Promise :=
  s.promises[p.index]?

/-- Adds a promise. -/
def addPromise (s : Store) (p : Promise) : PromiseId × Store :=
  (⟨s.promises.size⟩, { s with promises := s.promises.push p })

/-- Makes a promise that is pending. -/
def newPromise (s : Store) : PromiseId × Store :=
  s.addPromise (.pending [])

/-- Makes a promise that is settled. -/
def settledPromise (s : Store) : Completion → PromiseId × Store
  | .ok () => s.addPromise .fulfilled
  | .error e => s.addPromise (.rejected e)

/-- Puts jobs at the end of the queue. -/
def enqueue (s : Store) (jobs : List Job) : Store :=
  if s.keepsJobs then { s with jobs := s.jobs ++ jobs } else s

/-- The settled state of a promise. -/
def settledState : Completion → Promise
  | .ok () => .fulfilled
  | .error e => .rejected e

/-- Settles a promise. One that is settled already stays as it is. -/
def settle (s : Store) (p : PromiseId) (c : Completion) : Store :=
  match s.promise? p with
  | some (.pending reactions) =>
    { s with promises := s.promises.set! p.index (settledState c) }.enqueue
      (reactions.map fun r ↦ ⟨r, c⟩)
  | _ => s

/-- Fulfills a promise. -/
def resolve (s : Store) (p : PromiseId) : Store :=
  s.settle p (.ok ())

/-- Rejects a promise. -/
def reject (s : Store) (p : PromiseId) (e : ErrorId) : Store :=
  s.settle p (.error e)

/-- Registers a reaction to the settling of a promise. -/
def react (s : Store) (p : PromiseId) (r : Reaction) : Store :=
  match s.promise? p with
  | some (.pending reactions) =>
    { s with promises := s.promises.set! p.index (.pending (reactions ++ [r])) }
  | some .fulfilled => s.enqueue [⟨r, .ok ()⟩]
  | some (.rejected e) => s.enqueue [⟨r, .error e⟩]
  | none => s

/-- Registers a reaction to a new promise that is fulfilled. -/
def defer (s : Store) (r : Reaction) : Store :=
  let (p, s) := s.settledPromise (.ok ())
  s.react p r

end EcmaModules.Store
