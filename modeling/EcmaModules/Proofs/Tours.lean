import EcmaModules.Proofs.Linkage
import EcmaModules.Proofs.Run

/-!
# Where evaluation stands

What the task and the frames of the machine say about evaluation: the walks that are under way with
the module that each has executed right now, the modules that were set free and are to be executed,
the one of them that is running, and the job in hand. Most steps change none of that; such a step is
quiet.

Walks that were started from outside, and modules that were set free, are at the bottom of the
stack of frames: nothing that a body does leads to them.
-/

namespace EcmaModules

/-- What a walk that evaluates is about. Only `here` and `running` last longer than a step. -/
inductive Stance where
  /-- It goes on with the module on top of its path. -/
  | here
  /-- It comes to a module in a traversal. -/
  | coming (m : ModuleId) (t : Traversal)
  /-- The module, whose requests it has gone through, is being executed. -/
  | running (m : ModuleId)
  /-- It is through with the module, which is still on the stack. -/
  | through (m : ModuleId)
  /-- It is back from the module at the one on top of its path. -/
  | back (m : ModuleId)
deriving DecidableEq

/-- The module above those in the frames of the walk. -/
def Stance.top : Stance → List ModuleId
  | .running m | .through m => [m]
  | _ => []

/-- A walk that evaluates, with its goal. -/
structure Tour where
  goal : EvaluationGoal
  stance : Stance
  walk : EvaluationWalk

/-- The modules from the one being executed, or gone through, to the one that the walk started
at. -/
def Tour.path (t : Tour) : List ModuleId := t.stance.top ++ t.walk.frames.map (·.module)

/-! ## Tasks, frames and the machine -/

/-- The walk that a task is. -/
def Task.tours : Task → List Tour
  | .evaluation goal w => [⟨goal, .here, w⟩]
  | _ => []

/-- The walk that waits in a frame. -/
def Frame.tours : Frame → List Tour
  | .executed goal m _ w => [⟨goal, .running m, w⟩]
  | .passed goal w => [⟨goal, .here, w⟩]
  | _ => []

/-- The modules that a task is going to execute one after the other. -/
def Task.queue : Task → List ModuleId
  | .free ms => ms
  | _ => []

/-- The modules that are executed when the result for the frame is there. -/
def Frame.queue : Frame → List ModuleId
  | .freed _ _ rest => rest
  | _ => []

/-- The module that has been set free and does not await, while it is running. -/
def Frame.lone : Frame → List ModuleId
  | .freed m none _ => [m]
  | _ => []

/-- The job that a task is. -/
def Task.hand : Task → List Job
  | .job j => [j]
  | _ => []

/-- The task is at the bottom of the frames. -/
def Task.isBase : Task → Bool
  | .evaluation (.promise _ _) _ | .free _ | .job _ => true
  | _ => false

/-- The frame is at the bottom of the frames. -/
def Frame.isBase : Frame → Bool
  | .executed (.promise _ _) _ _ _ | .passed (.promise _ _) _ | .freed _ _ _ => true
  | _ => false

namespace Next

/-- The walks that come on top. -/
def tours : Next → List Tour
  | .goto t => t.tours
  | .call t f => t.tours ++ f.tours
  | .give _ => []

/-- The walks that link and come on top. -/
def linkTours : Next → List LinkTour
  | .goto t => t.linkTours
  | .call t f => t.linkTours ++ f.linkTours
  | .give _ => []

/-- The modules to be executed that come on top. -/
def queue : Next → List ModuleId
  | .goto t => t.queue
  | .call t f => t.queue ++ f.queue
  | .give _ => []

/-- The running module that comes on top, if it was set free. -/
def lone : Next → List ModuleId
  | .call _ f => f.lone
  | _ => []

/-- The job that comes into hand. -/
def hand : Next → List Job
  | .goto t => t.hand
  | .call t _ => t.hand
  | .give _ => []

/-- What comes next belongs at the bottom of the frames. -/
def isBase : Next → Bool
  | .goto t => t.isBase
  | .call t f => t.isBase || f.isBase
  | .give _ => false

/-- What comes next is nothing to evaluation. -/
structure Still (n : Next) : Prop where
  tours : n.tours = []
  queue : n.queue = []
  lone : n.lone = []
  hand : n.hand = []
  began : n.began = []
  isBase : n.isBase = false

/-- What comes next is nothing to evaluation or linking. -/
structure Quiet (n : Next) : Prop extends Still n where
  linkTours : n.linkTours = []

end Next

namespace Machine

/-- The task or result as what came next to it. -/
def current (M : Machine) : Next :=
  match M.control with
  | .run t => .goto t
  | .give r => .give r

/-- The walks that are under way, the latest first. -/
def tours (M : Machine) : List Tour := M.current.tours ++ M.frames.flatMap Frame.tours

/-- The modules that are to be executed, as they were set free. -/
def queue (M : Machine) : List ModuleId := M.current.queue ++ M.frames.flatMap Frame.queue

/-- The module that has been set free and is running. -/
def lone (M : Machine) : List ModuleId := M.frames.flatMap Frame.lone

/-- The jobs that are still to be run, with the one in hand. -/
def jobs (M : Machine) : List Job := M.current.hand ++ M.store.jobs

/-- What belongs at the bottom of the frames is there. -/
structure Grounded (M : Machine) : Prop where
  current : M.current.isBase → M.frames = []
  frames : ∀ above f below, M.frames = above ++ f :: below → f.isBase → below = []

variable {s : Store} {n : Next} {fs : List Frame}

theorem tours_apply : (apply fs (s, n)).tours = n.tours ++ fs.flatMap Frame.tours := by
  cases n <;> simp [apply, tours, current, Next.tours]

theorem linkTours_apply :
    (apply fs (s, n)).linkTours = n.linkTours ++ fs.flatMap Frame.linkTours := by
  cases n <;> simp [apply, linkTours, Next.linkTours]

theorem queue_apply : (apply fs (s, n)).queue = n.queue ++ fs.flatMap Frame.queue := by
  cases n <;> simp [apply, queue, current, Next.queue]

theorem lone_apply : (apply fs (s, n)).lone = n.lone ++ fs.flatMap Frame.lone := by
  cases n <;> simp [apply, lone, Next.lone]

theorem jobs_apply : (apply fs (s, n)).jobs = n.hand ++ s.jobs := by
  cases n <;> simp [apply, jobs, current, Next.hand]

theorem store_apply : (apply fs (s, n)).store = s := by
  cases n <;> rfl

/-- What comes next belongs at the bottom of the frames only if it comes there. -/
theorem Grounded.apply (hfs : ∀ above f below, fs = above ++ f :: below → f.isBase → below = [])
    (hn : n.isBase → fs = []) (hc : ∀ t f, n = .call t f → t.isBase = false) :
    (apply fs (s, n)).Grounded := by
  cases n with
  | goto t => exact ⟨hn, hfs⟩
  | call t f =>
    refine ⟨fun ht ↦ ?_, fun above g below h hg ↦ ?_⟩
    · exact absurd ((hc t f rfl).symm.trans ht) Bool.false_ne_true
    · rcases above with _ | ⟨a, above⟩
      · obtain ⟨rfl, rfl⟩ := List.cons.inj h
        exact hn (by simp [Next.isBase, hg])
      · exact hfs above g below (List.cons.inj h).2 hg
  | give r => exact ⟨(fun h ↦ nomatch h), hfs⟩

theorem Grounded.apply_quiet
    (hfs : ∀ above f below, fs = above ++ f :: below → f.isBase → below = []) (hn : n.Quiet) :
    (Machine.apply fs (s, n)).Grounded := by
  refine .apply hfs (fun h ↦ ?_) fun t f h ↦ ?_
  · rw [hn.isBase] at h
    exact nomatch h
  · have := hn.isBase
    rw [h] at this
    simpa [Next.isBase] using (Bool.or_eq_false_iff.1 this).1

end Machine

/-! ## Quiet steps -/

namespace Next

theorem Quiet.give (r : Result) : (Next.give r).Quiet := ⟨⟨rfl, rfl, rfl, rfl, rfl, rfl⟩, rfl⟩

theorem Quiet.body (b : Body) : (Next.goto (.body b)).Quiet := ⟨⟨rfl, rfl, rfl, rfl, rfl, rfl⟩, rfl⟩

end Next

theorem Body.advance_quiet (s : Store) (b : Body) : (b.advance s).2.Quiet := by
  unfold advance
  split
  · exact .give _
  · dsimp only
    split
    · exact .body _
    · exact .give _
    · exact .give _
    all_goals exact ⟨⟨rfl, rfl, rfl, rfl, rfl, rfl⟩, rfl⟩

theorem Store.read_quiet (s : Store) (n : NamespaceId) (name : String) :
    Apart s (s.read n name).1 ∧ (s.read n name).2.Quiet := by
  unfold Store.read
  split
  · exact ⟨.refl s, ⟨⟨rfl, rfl, rfl, rfl, rfl, rfl⟩, rfl⟩⟩
  · exact ⟨s.readExport_apart n name, .give _⟩

/-! ### Loading -/

namespace Store

theorem visit_afar (s : Store) (l : LoadingId) (m : ModuleId) : Afar s (s.visit l m) :=
  .far rfl rfl rfl rfl

theorem foldl_markLoaded_afar (ms : List ModuleId) (s : Store) :
    Afar s (ms.foldl markLoaded s) := by
  induction ms generalizing s with
  | nil => exact (Aside.refl s).afar
  | cons m ms ih =>
    refine .trans (Inside.afar (.modifySource s m fun r _ ↦ ?_)) (ih _)
    split
    · next h => exact ⟨by simp [SourceText.outline, h, Status.outline, Status.isWalked], rfl, rfl, rfl⟩
    · exact ⟨rfl, rfl, rfl, rfl⟩

theorem finishDescent_afar (s : Store) (l : LoadingId) : Afar s (s.finishDescent l) := by
  unfold finishDescent
  split
  · exact (Aside.refl s).afar
  · dsimp only
    split
    · refine .trans (.far ?_ ?_ ?_ ?_) ((foldl_markLoaded_afar _ _).trans (.settle _ _ _))
      all_goals rfl
    · exact .far rfl rfl rfl rfl

theorem failLoading_afar (s : Store) (l : LoadingId) (e : ErrorId) :
    Afar s (s.failLoading l e) := by
  unfold failLoading
  split
  · exact (Aside.refl s).afar
  · refine .trans (.far ?_ ?_ ?_ ?_) (.settle _ _ _)
    all_goals rfl

/-- What is loaded for further requests leaves those alone that were loaded before. -/
theorem grows_appendLoaded (s : Store) (m : ModuleId) (l : LoadedModule) :
    Grows s (s.modifySource m fun r ↦ { r with loaded := r.loaded ++ [l] }) := by
  intro x r d hd
  unfold imported? at hd ⊢
  rw [source?_modifySource]
  obtain ⟨t, ht, hfind⟩ := Option.bind_eq_some_iff.1 hd
  obtain ⟨y, hy, rfl⟩ := Option.map_eq_some_iff.1 hfind
  split
  · simp [ht, List.find?_append, hy]
  · simp [ht, hy]

theorem grows_modifySynthetic (s : Store) (m : ModuleId) (f : Synthetic → Synthetic) :
    Grows s (s.modifySynthetic m f) := by
  intro x r d hd
  unfold imported? at hd ⊢
  rwa [source?_modifySynthetic]

theorem recordLoaded_afar (s : Store) (call : LoadCall) (m : ModuleId) :
    Afar s (s.recordLoaded call m).2 := by
  unfold recordLoaded
  split
  · split
    · exact (Aside.refl s).afar
    · exact (Aside.throw s _ _).afar
  · refine .view (outline_modifySource_of_outline fun r _ ↦ ?_) rfl rfl rfl ?_
    · rfl
    · exact grows_appendLoaded s _ _

theorem checkAnswer_afar (s : Store) (a : LoadAnswer) : Afar s (s.checkAnswer a).2 := by
  unfold checkAnswer
  split
  · dsimp only
    split
    · have h : Afar s (s.takeOutstanding a.call) := .far rfl rfl rfl rfl
      exact h.trans (recordLoaded_afar _ _ _)
    · exact .far rfl rfl rfl rfl
  · exact (Aside.throw s _ _).afar

end Store

theorem LoadWalk.from_afar (s : Store) (l : LoadingId) (m : ModuleId) :
    Afar s (LoadWalk.from s l m).1 := by
  unfold LoadWalk.from
  split
  · exact s.visit_afar l m
  · exact s.finishDescent_afar l

theorem Store.startLoading_afar (s : Store) (m : ModuleId) (hostDefined : Option String) :
    Afar s (s.startLoading m hostDefined).2.2 := by
  unfold startLoading
  refine (Aside.newPromise s).trans (.trans (.far ?_ ?_ ?_ ?_) (LoadWalk.from_afar _ _ _))
  all_goals rfl

theorem Store.takeAnswer_afar (s : Store) (a : LoadAnswer) : Afar s (s.takeAnswer a).1 := by
  have h := s.checkAnswer_afar a
  unfold takeAnswer
  split
  next outcome s' heq =>
  rw [heq] at h
  split
  · exact h
  · split
    · exact h.trans (LoadWalk.from_afar _ _ _)
    · exact h.trans (Store.failLoading_afar _ _ _)

theorem LoadWalk.advance_afar (s : Store) (w : LoadWalk) : Afar s (w.advance s).1 := by
  unfold LoadWalk.advance
  split
  · exact (Aside.refl s).afar
  · split
    · exact (Aside.refl s).afar
    · exact s.finishDescent_afar _
    · dsimp only
      split
      · split
        · exact s.visit_afar _ _
        · exact s.finishDescent_afar _
      · exact .far rfl rfl rfl rfl

theorem LoadStep.next_quiet (s : Store) (step : LoadStep) :
    (step.next s).1 = s ∧ (step.next s).2.Quiet := by
  cases step <;> exact ⟨rfl, ⟨⟨rfl, rfl, rfl, rfl, rfl, rfl⟩, rfl⟩⟩

/-! ### Tasks, frames and jobs -/

/-- The task may have walks start or end, or has to do with walks that link. -/
def Task.isWalk : Task → Bool
  | .force _ | .evaluate _ | .evaluation _ _ | .free _ | .job _ | .link _ | .linking _ => true
  | _ => false

/-- The frame has to do with walks. -/
def Frame.isWalk : Frame → Bool
  | .executed _ _ _ _ | .passed _ _ | .freed _ _ _ | .setUp _ _ => true
  | _ => false

/-- The task changes what was loaded or how far synthetic modules are. -/
def Task.isRemote : Task → Bool
  | .synthetic _ | .load _ _ | .loading _ | .ask _ | .answers _ => true
  | _ => false

theorem Task.advance_quiet (s : Store) {t : Task} (ht : t.isWalk = false) :
    Afar s (t.advance s).1 ∧ (t.advance s).2.Quiet ∧
      (t.isRemote = false → Apart s (t.advance s).1) := by
  cases t with
  | body b => exact ⟨(b.advance_apart s).afar, b.advance_quiet s, fun _ ↦ b.advance_apart s⟩
  | read n name =>
    have h := s.read_quiet n name
    exact ⟨h.1.afar, h.2, fun _ ↦ h.1⟩
  | synthetic m =>
    have h : Afar s (s.startSynthetic m).2 := by
      unfold Store.startSynthetic
      split
      · exact (Aside.refl s).afar
      · split
        · exact (Aside.refl s).afar
        · exact (Aside.refl s).afar
        · refine .view (funext fun x ↦ ?_) rfl rfl rfl (Store.grows_modifySynthetic s m _)
          simp only [Store.outline, Store.source?_modifySynthetic]
    refine ⟨?_, ?_, fun h ↦ by cases h⟩
    · simp only [Task.advance]
      split <;> next heq => rw [heq] at h; exact h
    · simp only [Task.advance]
      split
      · exact .give _
      · exact ⟨⟨rfl, rfl, rfl, rfl, rfl, rfl⟩, rfl⟩
  | load m hostDefined =>
    refine ⟨?_, ?_, fun h ↦ by cases h⟩
    · simp only [Task.advance]
      split
      · exact .settledPromise s _
      · exact s.startLoading_afar m hostDefined
    · simp only [Task.advance]
      split
      · exact .give _
      · exact ⟨⟨rfl, rfl, rfl, rfl, rfl, rfl⟩, rfl⟩
  | loading w =>
    have h := LoadStep.next_quiet (w.advance s).1 (w.advance s).2
    refine ⟨?_, h.2, fun h ↦ by cases h⟩
    simp only [Task.advance, h.1]
    exact w.advance_afar s
  | ask q => exact ⟨(Aside.refl s).afar, ⟨⟨rfl, rfl, rfl, rfl, rfl, rfl⟩, rfl⟩, fun h ↦ by cases h⟩
  | answers as =>
    rcases as with _ | ⟨a, rest⟩
    · exact ⟨(Aside.refl s).afar, .give _, fun h ↦ by cases h⟩
    · have h := s.takeAnswer_afar a
      refine ⟨?_, ?_, fun h ↦ by cases h⟩
      · simp only [Task.advance]
        split <;> next heq => rw [heq] at h; exact h
      · simp only [Task.advance]
        split <;> exact ⟨⟨rfl, rfl, rfl, rfl, rfl, rfl⟩, rfl⟩
  | _ => contradiction

theorem Frame.resume_quiet (s : Store) (r : Result) {f : Frame} (hf : f.isWalk = false) :
    Afar s (f.resume s r).1 ∧ (f.resume s r).2.Quiet ∧
      ((∀ m, f ≠ .syntheticSteps m) → Apart s (f.resume s r).1) := by
  cases f with
  | bodyRead b label probe =>
    have h : Apart s ((Frame.bodyRead b label probe).resume s r).1 := by
      simp only [Frame.resume]
      split
      · exact .print s _
      · exact .print s _
      · exact b.give_apart s _
      · exact .refl s
    refine ⟨h.afar, ?_, fun _ ↦ h⟩
    simp only [Frame.resume]
    split
    · exact .body _
    · exact .body _
    · exact .give _
    · exact .body _
  | bodyLink b name =>
    have h : Apart s ((Frame.bodyLink b name).resume s r).1 := by
      simp only [Frame.resume]
      split <;> exact .print s _
    refine ⟨h.afar, ?_, fun _ ↦ h⟩
    simp only [Frame.resume]
    split <;> exact .body _
  | bodyEvaluate b name =>
    have h : Apart s ((Frame.bodyEvaluate b name).resume s r).1 := by
      simp only [Frame.resume]
      split
      · exact .print s _
      · exact .refl s
    refine ⟨h.afar, ?_, fun _ ↦ h⟩
    simp only [Frame.resume]
    split <;> exact .body _
  | readForced n name =>
    have h : Apart s ((Frame.readForced n name).resume s r).1 := by
      simp only [Frame.resume]
      split
      · exact s.readExport_apart n name
      · exact .refl s
    refine ⟨h.afar, ?_, fun _ ↦ h⟩
    simp only [Frame.resume]
    split <;> exact .give _
  | syntheticSteps m =>
    refine ⟨.view (funext fun x ↦ ?_) rfl rfl rfl (Store.grows_modifySynthetic s m _), .give _,
      fun h ↦ absurd rfl (h m)⟩
    simp only [Frame.resume, Store.finishSynthetic, Store.outline, Store.source?_modifySynthetic]
  | syntheticPromise => exact ⟨.settledPromise s _, .give _, fun _ ↦ .settledPromise s _⟩
  | loadPromise p => exact ⟨(Aside.refl s).afar, .give _, fun _ ↦ .refl s⟩
  | asked w =>
    exact ⟨(Aside.refl s).afar, ⟨⟨rfl, rfl, rfl, rfl, rfl, rfl⟩, rfl⟩, fun _ ↦ .refl s⟩
  | moreAnswers as =>
    exact ⟨(Aside.refl s).afar, ⟨⟨rfl, rfl, rfl, rfl, rfl, rfl⟩, rfl⟩, fun _ ↦ .refl s⟩
  | _ => contradiction

/-- A job by which evaluation does not go on. -/
theorem Job.run_quiet (s : Store) {j : Job} (hj : ∀ m, j.reaction ≠ .completeModule m) :
    Apart s (j.run s).1 ∧ (j.run s).2.Quiet := by
  obtain ⟨reaction, c⟩ := j
  cases reaction with
  | completeModule m => exact absurd rfl (hj m)
  | resumeBody m capability rest =>
    rcases c with e | ⟨⟩
    · exact ⟨.settle s _ _, .give _⟩
    · exact ⟨.refl s, .body _⟩
  | answerLoad call => exact ⟨.refl s, ⟨⟨rfl, rfl, rfl, rfl, rfl, rfl⟩, rfl⟩⟩
  | watch w => exact ⟨w.run_apart s c, .give _⟩
  | note label =>
    rcases c with e | ⟨⟩
    · exact ⟨.print s _, .give _⟩
    · exact ⟨.print s _, .give _⟩

end EcmaModules
