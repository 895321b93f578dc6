import EcmaModules.Body
import EcmaModules.Completion
import EcmaModules.Forcing
import EcmaModules.Loading

/-!
# The machine

Loading, linking, evaluating, reading and running bodies call each other in turn: a module's body is
run while others are being evaluated, and what it reads may have to be evaluated first. The machine
keeps track of that. It is at a task, or has the result of one, and below that is a stack of frames,
each of them a task that waits for a result.

A step takes the task one step further, or hands a result to the frame on top. Everything that
changes the store is in the modules on the single activities; here is only who waits for whom.

The host is not part of the machine. When a request is put to it the machine stands still until the
host has said what answers it gives at once (`Machine.answer`). It may give none and do so in a
later job, or give several.
-/

namespace EcmaModules

/-! ## Tasks and frames -/

/-- Why a graph is evaluated. -/
inductive EvaluationGoal where
  /-- The evaluation was started at a module and has a promise. -/
  | promise (root : ModuleId) (p : PromiseId)
  /-- An export of the deferred namespace of a module is going to be read. -/
  | force (m : ModuleId)
deriving Repr, DecidableEq, Inhabited

/-- A question to the host. -/
inductive HostQuestion where
  /-- A request has to be answered, now or later. -/
  | load (call : LoadCall)
  /-- In a job of the host: the request that it put off is to be answered. -/
  | answer (call : LoadCall)
deriving Repr, DecidableEq, Inhabited

/-- What the machine does. -/
inductive Task where
  /-- Takes the steps of a body. -/
  | body (b : Body)
  /-- Reads an export of a namespace. -/
  | read (n : NamespaceId) (name : String)
  /-- Evaluates a module, if need be, before an export is read. -/
  | force (m : ModuleId)
  /-- Runs the steps of a synthetic module, if they have not been run. -/
  | synthetic (m : ModuleId)
  | link (m : ModuleId)
  | linking (w : LinkWalk)
  | evaluate (m : ModuleId)
  | evaluation (goal : EvaluationGoal) (w : EvaluationWalk)
  /-- Executes modules that no longer wait for anything. -/
  | free (ms : List ModuleId)
  | load (m : ModuleId) (hostDefined : Option String)
  | loading (w : LoadWalk)
  | ask (q : HostQuestion)
  /-- Takes answers of the host one after the other. -/
  | answers (as : List LoadAnswer)
  | job (j : Job)
deriving Inhabited

/-- The result of a task. -/
inductive Result where
  | completion (c : Completion)
  | value (o : Outcome Value)
  | promise (p : PromiseId)
deriving Inhabited

/-- A task that waits for the result of another one. -/
inductive Frame where
  /-- A body waits for the value of an export. -/
  | bodyRead (b : Body) (label : String) (probe : Bool)
  /-- A body waits for a module to be linked. -/
  | bodyLink (b : Body) (name : String)
  /-- A body waits for the promise of an evaluation. -/
  | bodyEvaluate (b : Body) (name : String)
  /-- A read waits for the module of the namespace. -/
  | readForced (n : NamespaceId) (name : String)
  /-- A synthetic module waits for its steps. -/
  | syntheticSteps (m : ModuleId)
  /-- The evaluation of a synthetic module waits for the module. -/
  | syntheticPromise
  /-- A walk that links waits for the variables of a module. -/
  | setUp (m : ModuleId) (w : LinkWalk)
  /-- A walk that evaluates waits for a module to be executed. -/
  | executed (goal : EvaluationGoal) (m : ModuleId) (capability : Option PromiseId)
      (w : EvaluationWalk)
  /-- A walk that evaluates waits for a synthetic module. -/
  | passed (goal : EvaluationGoal) (w : EvaluationWalk)
  /-- A module that no longer waits for others has been executed; those after it wait. -/
  | freed (m : ModuleId) (capability : Option PromiseId) (rest : List ModuleId)
  /-- The promise of a loading operation waits for the first walk. -/
  | loadPromise (p : PromiseId)
  /-- A walk that loads waits for the host. -/
  | asked (w : LoadWalk)
  /-- The answers that come after the one being taken. -/
  | moreAnswers (as : List LoadAnswer)
deriving Inhabited

/-- What comes after a step. -/
inductive Next where
  | goto (t : Task)
  /-- A frame waits for the result of a task. -/
  | call (t : Task) (f : Frame)
  | give (r : Result)
deriving Inhabited

/-- The result of a task that went well and has no value. -/
def Result.done : Result := .completion (.ok ())

/-- A result as a completion. -/
def Result.toCompletion : Result → Completion
  | .completion c => c
  | .value (.ok _) => .ok ()
  | .value (.error e) => .error e
  | .promise _ => .ok ()

/-! ## Single tasks -/

namespace Body

/-- Ends a body and gives how it ended. -/
def give (s : Store) (b : Body) (c : Completion) : Store × Next :=
  let (c, s) := b.finish s c
  (s, .give (.completion c))

/-- Takes the next step of a body. -/
def advance (s : Store) (b : Body) : Store × Next :=
  match b.steps with
  | [] => give s b (.ok ())
  | step :: rest =>
    let b := { b with steps := rest }
    match take s b step with
    | (s, .next) => (s, .goto (.body b))
    | (s, .fail e) => give s b (.error e)
    | (s, .pause) => (s, .give .done)
    | (s, .read n name label probe) => (s, .call (.read n name) (.bodyRead b label probe))
    | (s, .link m name) => (s, .call (.link m) (.bodyLink b name))
    | (s, .evaluate m name) => (s, .call (.evaluate m) (.bodyEvaluate b name))

end Body

/-- The steps that a module takes when it is executed. -/
def Store.execution (s : Store) (m : ModuleId) (capability : Option PromiseId) : Task :=
  .body ⟨m, .execution capability, ((s.source? m).map (·.body)).getD []⟩

/-- The steps that a module takes when its environment is set up. -/
def Store.setUp (s : Store) (m : ModuleId) : Task :=
  .body ⟨m, .setUp, ((s.source? m).map (·.setup)).getD []⟩

/-- What comes after a step of a walk that links. -/
def LinkStep.next (s : Store) : LinkStep → Store × Next
  | .done => (s, .give .done)
  | .failed e stack => (s.unlink stack, .give (.completion (.error e)))
  | .go w => (s, .goto (.linking w))
  | .setUp m w => (s, .call (s.setUp m) (.setUp m w))

/-- Ends an evaluation whose walk has ended well. -/
def EvaluationGoal.finish (s : Store) : EvaluationGoal → Store × Next
  | .promise root p => (s.finishEvaluation root p, .give (.promise p))
  | .force m =>
    let (c, s) := s.finishForced m
    (s, .give (.completion c))

/-- Ends an evaluation whose walk has failed. -/
def EvaluationGoal.fail (s : Store) (stack : List ModuleId) (e : ErrorId) :
    EvaluationGoal → Store × Next
  | .promise _ p => ((s.failModules stack e).reject p e, .give (.promise p))
  | .force _ => (s.failModules stack e, .give (.completion (.error e)))

/-- What comes after a step of a walk that evaluates. -/
def EvaluationStep.next (s : Store) (goal : EvaluationGoal) : EvaluationStep → Store × Next
  | .done => goal.finish s
  | .failed e stack => goal.fail s stack e
  | .go w => (s, .goto (.evaluation goal w))
  | .synthetic m w => (s, .call (.synthetic m) (.passed goal w))
  | .execute m capability w => (s, .call (s.execution m capability) (.executed goal m capability w))

/-- What comes after a step of a walk that loads. -/
def LoadStep.next (s : Store) : LoadStep → Store × Next
  | .done => (s, .give .done)
  | .go w => (s, .goto (.loading w))
  | .ask call w => (s, .call (.ask (.load call)) (.asked w))

/-- Evaluates a module. A module whose component has an evaluation already gives the promise of
that. -/
def Store.evaluate (s : Store) (m : ModuleId) : Store × Next :=
  match s.source? m with
  | none => (s, .call (.synthetic m) .syntheticPromise)
  | some _ =>
    let root := s.evaluationRoot m
    match s.capability? root with
    | some p => (s, .give (.promise p))
    | none =>
      let (p, s) := s.newCapability root
      let (s, step) := EvaluationWalk.start s root
      step.next s (.promise root p)

/-- Does what has to be done before an export of a deferred namespace is read. -/
def Store.forceModule (s : Store) (m : ModuleId) : Store × Next :=
  match s.force m with
  | (.over c, s) => (s, .give (.completion c))
  | (.synthetic, s) => (s, .goto (.synthetic m))
  | (.evaluate, s) =>
    let (s, step) := EvaluationWalk.start s m
    step.next s (.force m)

/-- Reads an export. -/
def Store.read (s : Store) (n : NamespaceId) (name : String) : Store × Next :=
  match s.forcedBy? n name with
  | some m => (s, .call (.force m) (.readForced n name))
  | none =>
    let (o, s) := s.readExport n name
    (s, .give (.value o))

/-- Does what a watch of a promise says. -/
def Watch.run (s : Store) (w : Watch) (c : Completion) : Completion × Store :=
  let outcome :=
    match c with
    | .ok () => "fulfilled"
    | .error e => "rejected " ++ (s.error e).text
  let s := s.print ("then " ++ w.label ++ ": " ++ outcome)
  let s :=
    match w.chain with
    | some label => s.react w.promise (.note label)
    | none => s
  let s := w.resolve.elim s s.resolve
  let s := w.settle.elim s fun p ↦ s.settle p c
  (w.fails.elim (.ok ()) .error, s)

/-- Runs a job. -/
def Job.run (s : Store) (j : Job) : Store × Next :=
  match j.reaction, j.completion with
  | .completeModule m, .ok () =>
    let (s, ms) := s.fulfillModule m
    (s, .goto (.free ms))
  | .completeModule m, .error e => (s.rejectModule m e, .give .done)
  | .resumeBody m capability rest, .ok () => (s, .goto (.body ⟨m, .resumed capability, rest⟩))
  | .resumeBody _ capability _, .error e => (s.reject capability e, .give .done)
  | .answerLoad call, _ => (s, .goto (.ask (.answer call)))
  | .watch w, c =>
    let (c, s) := w.run s c
    (s, .give (.completion c))
  | .note label, .ok () => (s.print ("then " ++ label ++ ": fulfilled"), .give .done)
  | .note label, .error _ => (s.print ("then " ++ label ++ ": rejected"), .give .done)

/-! ## Steps of the machine -/

/-- Takes a task one step further. A question to the host stays where it is. -/
def Task.advance (s : Store) : Task → Store × Next
  | .body b => b.advance s
  | .read n name => s.read n name
  | .force m => s.forceModule m
  | .synthetic m =>
    match s.startSynthetic m with
    | (.over c, s) => (s, .give (.completion c))
    | (.run steps, s) => (s, .call (.body ⟨m, .synthetic, steps⟩) (.syntheticSteps m))
  | .link m =>
    match s.startLinking m with
    | (.ok w, s) => (s, .goto (.linking w))
    | (.error e, s) => (s, .give (.completion (.error e)))
  | .linking w =>
    let (s, step) := w.advance s
    step.next s
  | .evaluate m => s.evaluate m
  | .evaluation goal w =>
    let (s, step) := w.advance s
    step.next s goal
  | .free [] => (s, .give .done)
  | .free (m :: rest) =>
    match s.continueFree m with
    | (.over, s) => (s, .goto (.free rest))
    | (.execute capability, s) => (s, .call (s.execution m capability) (.freed m capability rest))
  | .load m hostDefined =>
    match s.source? m with
    | none =>
      let (p, s) := s.settledPromise (.ok ())
      (s, .give (.promise p))
    | some _ =>
      let (p, w, s) := s.startLoading m hostDefined
      (s, .call (.loading w) (.loadPromise p))
  | .loading w =>
    let (s, step) := w.advance s
    step.next s
  | .ask q => (s, .goto (.ask q))
  | .answers [] => (s, .give .done)
  | .answers (a :: rest) =>
    match s.takeAnswer a with
    | (s, some w) => (s, .call (.loading w) (.moreAnswers rest))
    | (s, none) => (s, .goto (.answers rest))
  | .job j => j.run s

/-- Goes on with a task that has waited for a result. -/
def Frame.resume (s : Store) (r : Result) : Frame → Store × Next
  | .bodyRead b label probe =>
    match r, probe with
    | .value (.ok v), _ => (s.printValue label v, .goto (.body b))
    | .value (.error e), true => (s.printThrown label e, .goto (.body b))
    | .value (.error e), false => b.give s (.error e)
    | _, _ => (s, .goto (.body b))
  | .bodyLink b name =>
    match r.toCompletion with
    | .ok () => (s.print ("link " ++ name ++ " = undefined"), .goto (.body b))
    | .error e => (s.printThrown ("link " ++ name) e, .goto (.body b))
  | .bodyEvaluate b name =>
    match r with
    | .promise p => (s.print ("evaluate " ++ name ++ " " ++ s.promiseText p), .goto (.body b))
    | _ => (s, .goto (.body b))
  | .readForced n name =>
    match r.toCompletion with
    | .ok () =>
      let (o, s) := s.readExport n name
      (s, .give (.value o))
    | .error e => (s, .give (.value (.error e)))
  | .syntheticSteps m => (s.finishSynthetic m r.toCompletion, .give (.completion r.toCompletion))
  | .syntheticPromise =>
    let (p, s) := s.settledPromise r.toCompletion
    (s, .give (.promise p))
  | .setUp m w =>
    match r.toCompletion with
    | .ok () =>
      let (s, w) := LinkWalk.conclude s w m
      (s, .goto (.linking w))
    | .error e => LinkStep.next s (.failed e w.stack)
  | .executed goal m capability w =>
    let (s, step) := w.executed s m capability r.toCompletion
    step.next s goal
  | .passed goal w =>
    let (s, step) := w.passed s r.toCompletion
    step.next s goal
  | .freed m capability rest =>
    (s.finishFree m capability r.toCompletion, .goto (.free rest))
  | .loadPromise p => (s, .give (.promise p))
  | .asked w => (s, .goto (.loading w))
  | .moreAnswers as => (s, .goto (.answers as))

/-- What the machine is about to do. -/
inductive Control where
  | run (t : Task)
  /-- A result goes to the frame on top. -/
  | give (r : Result)
deriving Inhabited

/-- The machine. -/
structure Machine where
  store : Store
  control : Control
  frames : List Frame := []
deriving Inhabited

namespace Machine

/-- The machine that begins with a task. -/
def start (s : Store) (t : Task) : Machine :=
  { store := s, control := .run t }

/-- What the machine is about to do after a step, and the frames below it then. -/
def apply (frames : List Frame) : Store × Next → Machine
  | (s, .goto t) => ⟨s, .run t, frames⟩
  | (s, .call t f) => ⟨s, .run t, f :: frames⟩
  | (s, .give r) => ⟨s, .give r, frames⟩

/-- The result of the first task, when the machine has come to its end. -/
def result? (m : Machine) : Option Result :=
  match m.control, m.frames with
  | .give r, [] => some r
  | _, _ => none

/-- The question that the machine puts to the host. -/
def question? (m : Machine) : Option HostQuestion :=
  match m.control with
  | .run (.ask q) => some q
  | _ => none

/-- One step. The machine stands still at its end and at a question to the host. -/
def step (m : Machine) : Machine :=
  match m.control, m.frames with
  | .run (.ask q), frames => ⟨m.store, .run (.ask q), frames⟩
  | .run t, frames => apply frames (t.advance m.store)
  | .give r, f :: frames => apply frames (f.resume m.store r)
  | .give r, [] => ⟨m.store, .give r, []⟩

/-- The host answers a question, with the answers that it gives at once. -/
def answer (m : Machine) (as : List LoadAnswer) : Machine :=
  match m.control with
  | .run (.ask _) => { m with control := .run (.answers as) }
  | _ => m

/-- Runs the machine to its end with a host, but for no more than the given number of steps.
`reply` says what answers the host gives at once to a question. -/
def runWith {m : Type → Type} [Monad m] {Host : Type}
    (reply : Host → Store → HostQuestion → m (List LoadAnswer × Host × Store)) :
    Nat → Host → Machine → m (Host × Machine)
  | 0, h, machine => return (h, machine)
  | limit + 1, h, machine =>
    match machine.result?, machine.question? with
    | some _, _ => return (h, machine)
    | none, some q => do
      let (as, h, s) ← reply h machine.store q
      runWith reply limit h ({ machine with store := s }.answer as)
    | none, none => runWith reply limit h machine.step

/-- How many steps a machine may take. A body is a finite list of steps and a graph has finitely
many modules, so a machine comes to its end long before. -/
def stepLimit : Nat := 1000000000000

/-- Runs a task to its end with a host. -/
def perform {m : Type → Type} [Monad m] {Host : Type}
    (reply : Host → Store → HostQuestion → m (List LoadAnswer × Host × Store))
    (h : Host) (s : Store) (t : Task) : m (Result × Host × Store) := do
  let (h, machine) ← runWith reply stepLimit h (start s t)
  return (machine.result?.getD .done, h, machine.store)

end Machine

end EcmaModules
