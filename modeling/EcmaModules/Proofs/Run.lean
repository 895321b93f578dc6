import EcmaModules.Machine
import Mathlib.Logic.Relation

/-!
# Runs

What can happen to a graph of modules from outside, as a relation. A caller has modules loaded,
linked and evaluated, reads from namespaces, has jobs run and settles what suspended bodies wait
for, one call after the other. A call keeps the machine busy for a number of steps. In between the
host may be asked, and answers what it likes.

A run has a history, the latest event first: which bodies were executed and how that ended, and what
the calls gave.

## What a run leaves out

Evaluation is not started from inside of a body. The steps may be restricted further by a relation
between the machine before and after a step; what a run is, unrestricted, is a run for the relation
that always holds.
-/

namespace EcmaModules

/-! ## Calls -/

/-- A call from outside. -/
inductive Act where
  | load (m : ModuleId) (hostDefined : Option String)
  | link (m : ModuleId)
  | evaluate (m : ModuleId)
  | namespaceOf (m : ModuleId) (phase : Phase)
  | read (n : NamespaceId) (name : String)
  /-- An answer that the host had put off. -/
  | answer (a : LoadAnswer)
  /-- Runs the oldest job. -/
  | job
  /-- Settles the promise that a suspended body waits for. -/
  | settle (label : String) (c : Completion)

/-- A graph between two calls, or during one. -/
inductive State where
  | idle (s : Store)
  | busy (a : Act) (machine : Machine)

/-- The store of a state. -/
def State.store : State → Store
  | .idle s => s
  | .busy _ machine => machine.store

theorem State.idle_ne_busy {s : Store} {a : Act} {M : Machine} : State.idle s ≠ .busy a M :=
  State.noConfusion

/-- The state after a call has come in. Nothing comes of a call that refers to nothing. -/
def Act.begin (s : Store) (a : Act) : Option State :=
  match a with
  | .load m hostDefined => some (.busy a (.start s (.load m hostDefined)))
  | .link m => some (.busy a (.start s (.link m)))
  | .evaluate m => some (.busy a (.start s (.evaluate m)))
  | .namespaceOf m phase => some (.idle (s.namespaceOf m phase).2)
  | .read n name => some (.busy a (.start s (.read n name)))
  | .answer given => some (.busy a (.start s (.answers [given])))
  | .job =>
    match s.jobs with
    | [] => none
    | j :: rest => some (.busy a (.start { s with jobs := rest } (.job j)))
  | .settle label c => (s.stage.suspended.lookup label).map fun p ↦ .idle (s.settle p c)

/-! ## Events -/

/-- What a history tells. -/
inductive Event where
  /-- The body of a module was called. A module that awaits was given a promise for that. -/
  | began (m : ModuleId) (capability : Option PromiseId)
  /-- The call of the body has come back. -/
  | ended (m : ModuleId) (capability : Option PromiseId) (c : Completion)
  /-- A call from outside has come back. -/
  | done (a : Act) (r : Result)

/-- The modules whose bodies were called, as often as they were. -/
def begun : List Event → List ModuleId
  | [] => []
  | .began m _ :: H => m :: begun H
  | _ :: H => begun H

/-- What the next step of the machine leads to. At its end and at a question there is none. -/
def Machine.next? (M : Machine) : Option (Store × Next) :=
  match M.control, M.frames with
  | .run (.ask _), _ => none
  | .run t, _ => some (t.advance M.store)
  | .give r, f :: _ => some (f.resume M.store r)
  | .give _, [] => none

/-- The frames below the task that the machine is at after its next step. -/
def Machine.rest (M : Machine) : List Frame :=
  match M.control, M.frames with
  | .give _, _ :: frames => frames
  | _, frames => frames

/-- A body that is called in this step. -/
def Next.began : Next → List Event
  | .call (.body ⟨m, .execution capability, _⟩) _ => [.began m capability]
  | _ => []

/-- A call of a body that comes back in the next step. -/
def Machine.ended (M : Machine) : List Event :=
  match M.control, M.frames with
  | .give r, .executed _ m capability _ :: _ => [.ended m capability r.toCompletion]
  | .give r, .freed m capability _ :: _ => [.ended m capability r.toCompletion]
  | _, _ => []

/-- The events of the next step. -/
def Machine.events (M : Machine) : List Event :=
  match M.next? with
  | some (_, n) => n.began ++ M.ended
  | none => []

theorem Machine.step_of_next? {M : Machine} {s : Store} {n : Next} (h : M.next? = some (s, n)) :
    M.step = apply M.rest (s, n) := by
  obtain ⟨s₀, control, frames⟩ := M
  cases control with
  | run t => cases t <;> simp_all [next?, step, rest]
  | give r => cases frames <;> simp_all [next?, step, rest]

theorem Machine.step_of_next?_eq_none {M : Machine} (h : M.next? = none) : M.step = M := by
  obtain ⟨s₀, control, frames⟩ := M
  cases control with
  | run t => cases t <;> simp_all [next?, step]
  | give r => cases frames <;> simp_all [next?, step]

theorem Machine.advance_of_next? {s : Store} {t : Task} {fs : List Frame} {x : Store × Next}
    (h : (Machine.mk s (.run t) fs).next? = some x) : x = t.advance s := by
  cases t <;> first | exact (Option.some.inj h).symm | exact nomatch h

theorem Machine.control_of_question? {M : Machine} {q : HostQuestion} (h : M.question? = some q) :
    M.control = .run (.ask q) := by
  unfold question? at h
  split at h
  · next hc => rw [hc, Option.some.inj h]
  · exact nomatch h

theorem Machine.end_of_result? {M : Machine} {r : Result} (h : M.result? = some r) :
    M.control = .give r ∧ M.frames = [] := by
  unfold result? at h
  split at h
  · next hc hf => exact ⟨by rw [hc, Option.some.inj h], hf⟩
  · exact nomatch h

/-! ## Runs -/

/-- What a host does to the store when it is asked: it makes errors, prints, and puts off answers to
a job. -/
inductive Consults : Store → Store → Prop where
  | throw (s : Store) (kind : ErrorKind) (message : String) : Consults s (s.throw kind message).2
  | print (s : Store) (line : String) : Consults s (s.print line)
  | putOff (s : Store) (call : LoadCall) : Consults s (s.defer (.answerLoad call))

/-- The states and histories that runs from a store lead to, when the steps are restricted by a
relation. -/
inductive Run (P : Machine → Machine → Prop) (s₀ : Store) : State → List Event → Prop where
  | start : Run P s₀ (.idle s₀) []
  | call {s : Store} {H : List Event} (a : Act) {st : State} :
      Run P s₀ (.idle s) H → a.begin s = some st → Run P s₀ st H
  /-- Evaluation is started by a call from outside only. -/
  | step {a : Act} {M : Machine} {H : List Event} :
      Run P s₀ (.busy a M) H →
      (∀ m, M.control = .run (.evaluate m) → M.frames = []) →
      P M M.step →
      Run P s₀ (.busy a M.step) (M.events ++ H)
  | consult {a : Act} {M : Machine} {H : List Event} {q : HostQuestion} {s : Store} :
      Run P s₀ (.busy a M) H → M.question? = some q → Consults M.store s →
      Run P s₀ (.busy a { M with store := s }) H
  | answer {a : Act} {M : Machine} {H : List Event} {q : HostQuestion} (as : List LoadAnswer) :
      Run P s₀ (.busy a M) H → M.question? = some q → Run P s₀ (.busy a (M.answer as)) H
  | finish {a : Act} {M : Machine} {H : List Event} {r : Result} :
      Run P s₀ (.busy a M) H → M.result? = some r → Run P s₀ (.idle M.store) (.done a r :: H)

/-- Nothing has been evaluated yet, and there is nothing to be done. -/
structure Store.Fresh (s : Store) : Prop where
  source : ∀ m r, s.source? m = some r →
    (r.status = .new ∨ r.status = .unlinked ∨ r.status = .linked) ∧ r.evaluationError = none ∧
      r.cycleRoot = none ∧ r.asyncState = .none ∧ r.capability = none ∧ r.asyncParents = [] ∧
      r.pendingAsync = 0
  synthetic : ∀ m r, s.synthetic? m = some r → r.steps.isSome ∧ r.completion = none
  promises : s.promises = #[]
  jobs : s.jobs = []

/-- A run that is less restricted. -/
theorem Run.mono {P Q : Machine → Machine → Prop} {s₀ : Store} {st : State} {H : List Event}
    (hPQ : ∀ M M', P M M' → Q M M') (h : Run P s₀ st H) : Run Q s₀ st H := by
  induction h with
  | start => exact .start
  | call a _ ha ih => exact .call a ih ha
  | step _ he hP ih => exact .step ih he (hPQ _ _ hP)
  | consult _ hq hs ih => exact .consult ih hq hs
  | answer as _ hq ih => exact .answer as ih hq
  | finish _ hr ih => exact .finish ih hr

/-! ## Going on with a run -/

/-- A state with its history leads to another one at once. -/
inductive Advance (P : Machine → Machine → Prop) : State × List Event → State × List Event → Prop where
  | call {s : Store} {H : List Event} (a : Act) {st : State} :
      a.begin s = some st → Advance P (.idle s, H) (st, H)
  | step {a : Act} {M : Machine} {H : List Event} :
      (∀ m, M.control = .run (.evaluate m) → M.frames = []) → P M M.step →
      Advance P (.busy a M, H) (.busy a M.step, M.events ++ H)
  | consult {a : Act} {M : Machine} {H : List Event} {q : HostQuestion} {s : Store} :
      M.question? = some q → Consults M.store s →
      Advance P (.busy a M, H) (.busy a { M with store := s }, H)
  | answer {a : Act} {M : Machine} {H : List Event} {q : HostQuestion} (as : List LoadAnswer) :
      M.question? = some q → Advance P (.busy a M, H) (.busy a (M.answer as), H)
  | finish {a : Act} {M : Machine} {H : List Event} {r : Result} :
      M.result? = some r → Advance P (.busy a M, H) (.idle M.store, .done a r :: H)

/-- A state with its history leads to another one in the course of a run. -/
abbrev Onward (P : Machine → Machine → Prop) : State × List Event → State × List Event → Prop :=
  Relation.ReflTransGen (Advance P)

/-- The course of a run that is less restricted. -/
theorem Onward.mono {P Q : Machine → Machine → Prop} {x y : State × List Event}
    (hPQ : ∀ M M', P M M' → Q M M') (h : Onward P x y) : Onward Q x y := by
  refine Relation.ReflTransGen.mono (fun a b hab ↦ ?_) _ _ h
  cases hab with
  | call a ha => exact .call a ha
  | step he hP => exact .step he (hPQ _ _ hP)
  | consult hq hs => exact .consult hq hs
  | answer as hq => exact .answer as hq
  | finish hr => exact .finish hr

theorem Run.advance {P : Machine → Machine → Prop} {s₀ : Store} {x y : State × List Event}
    (h : Run P s₀ x.1 x.2) (hxy : Advance P x y) : Run P s₀ y.1 y.2 := by
  cases hxy with
  | call a ha => exact .call a h ha
  | step he hP => exact .step h he hP
  | consult hq hs => exact .consult h hq hs
  | answer as hq => exact .answer as h hq
  | finish hr => exact .finish h hr

/-- A run comes from where it started. -/
theorem Run.onward_start {P : Machine → Machine → Prop} {s₀ : Store} {st : State} {H : List Event}
    (h : Run P s₀ st H) : Onward P (.idle s₀, []) (st, H) := by
  induction h with
  | start => exact .refl
  | call a _ ha ih => exact ih.tail (.call a ha)
  | step _ he hP ih => exact ih.tail (.step he hP)
  | consult _ hq hs ih => exact ih.tail (.consult hq hs)
  | answer as _ hq ih => exact ih.tail (.answer as hq)
  | finish _ hr ih => exact ih.tail (.finish hr)

/-- What comes of a run in its course is a run. -/
theorem Run.onward {P : Machine → Machine → Prop} {s₀ : Store} {x y : State × List Event}
    (h : Run P s₀ x.1 x.2) (hxy : Onward P x y) : Run P s₀ y.1 y.2 := by
  induction hxy with
  | refl => exact h
  | tail _ hyz ih => exact ih.advance hyz

end EcmaModules
