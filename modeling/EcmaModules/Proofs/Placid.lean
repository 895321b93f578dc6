import EcmaModules.Proofs.Halting
import EcmaModules.Proofs.Synthetics

/-!
# Placid runs

A graph in which everything has been loaded is evaluated, by any number of calls. No body fails, at
once or later, and nothing is read that would have to be evaluated first.

Most steps of such a run are idle as far as it matters here: they enter no module, follow no request
and do not concern synthetic modules. The others are few: evaluation starts, a walk goes on, a
synthetic module starts or has run.
-/

namespace EcmaModules

namespace Store

/-! ## Synthetic modules -/

variable {s s' : Store}

theorem progress_of_synthetic? (h : ∀ d, s'.synthetic? d = s.synthetic? d) (d : ModuleId) :
    s'.progress d = s.progress d := by rw [progress, h, progress]

theorem synthetic?_fulfillModule (s : Store) (m d : ModuleId) :
    (s.fulfillModule m).1.synthetic? d = s.synthetic? d := by
  unfold fulfillModule
  split
  · rfl
  · refine (gatherFrom_of_lessen (R := fun s s' ↦ s'.synthetic? d = s.synthetic? d) (fun _ ↦ rfl)
      (fun _ _ _ h h' ↦ h'.trans h) (fun s p ↦ synthetic?_modifySource s p _ d) _ _ m []).trans ?_
    simp

/-- How far a synthetic module has come when it has started. -/
theorem progress_startSynthetic (s : Store) (m d : ModuleId) :
    (s.startSynthetic m).2.progress d = s.progress d ∨
      d = m ∧ ∃ c, (s.startSynthetic m).2.progress m = some (none, c) := by
  rcases s.startSynthetic_cases m with ⟨c, heq⟩ | ⟨steps, -, heq⟩
  · exact .inl (by rw [heq])
  · by_cases hd : d = m
    · subst hd
      rcases hs : s.synthetic? d with _ | r
      · refine .inl ?_
        rw [heq]
        simp [progress, synthetic?_modifySynthetic, hs]
      · refine .inr ⟨rfl, r.completion, ?_⟩
        rw [heq]
        simp [progress, synthetic?_modifySynthetic, hs]
    · refine .inl ?_
      rw [heq]
      simp [progress, synthetic?_modifySynthetic, hd]

end Store

/-! ## Idle steps -/

/-- What comes next is neither a synthetic module nor, on top of no frame, the evaluation of a module. -/
def Next.isOrdinary : Next → Bool
  | .goto (.synthetic _) | .goto (.evaluate _) | .call (.synthetic _) _ => false
  | _ => true

theorem EvaluationStep.isOrdinary_next {step : EvaluationStep} (s : Store) (goal : EvaluationGoal)
    (h : ∀ d w, step ≠ .synthetic d w) : (step.next s goal).2.isOrdinary = true := by
  cases step with
  | synthetic d w => exact absurd rfl (h d w)
  | done => cases goal <;> rfl
  | failed e left => cases goal <;> rfl
  | _ => rfl

theorem Frame.isOrdinary_resume (s : Store) (r : Result) (f : Frame) :
    (f.resume s r).2.isOrdinary = true := by
  cases f with
  | executed goal m capability w =>
    exact EvaluationStep.isOrdinary_next _ goal fun _ _ ↦ EvaluationWalk.executed_ne_synthetic
  | passed goal w =>
    exact EvaluationStep.isOrdinary_next _ goal fun _ _ ↦ EvaluationWalk.passed_ne_synthetic
  | _ =>
    simp only [resume]
    try split
    all_goals rfl

theorem Task.isOrdinary_advance (s : Store) {t : Task} (hevaluate : ∀ m, t ≠ .evaluate m)
    (hevaluation : ∀ goal w, t ≠ .evaluation goal w) (hforce : ∀ m, t ≠ .force m) :
    (t.advance s).2.isOrdinary = true := by
  cases t with
  | evaluate m => exact absurd rfl (hevaluate m)
  | evaluation goal w => exact absurd rfl (hevaluation goal w)
  | force m => exact absurd rfl (hforce m)
  | body b =>
    simp only [advance, Body.advance]
    split
    · rfl
    · split <;> rfl
  | read n name =>
    simp only [advance, Store.read]
    split <;> rfl
  | linking w =>
    simp only [advance]
    cases (w.advance s).2 <;> rfl
  | loading w =>
    simp only [advance]
    cases (w.advance s).2 <;> rfl
  | free ms =>
    rcases ms with _ | ⟨m, rest⟩
    · rfl
    · simp only [advance]
      split <;> rfl
  | answers as =>
    rcases as with _ | ⟨a, rest⟩
    · rfl
    · simp only [advance]
      split <;> rfl
  | job j =>
    simp only [advance, Job.run]
    split <;> rfl
  | _ =>
    simp only [advance]
    try split
    all_goals rfl

namespace Machine

/-- The requests that are left on the paths of the walks under way. -/
def paths (M : Machine) : List EvaluationFrame := M.tours.flatMap (·.walk.frames)

/-- In the step no module is entered and no request followed, and it does not concern synthetic
modules. -/
structure Idles (M M' : Machine) : Prop where
  store : M.store.Tarries M'.store
  paths : M'.paths = M.paths
  progress : ∀ d, M'.store.progress d = M.store.progress d
  synthetic : ∀ d, M'.control ≠ .run (.synthetic d)
  evaluate : ∀ m, M'.control = .run (.evaluate m) → M'.frames ≠ []

variable {s : Store} {t : Task} {fs : List Frame} {f : Frame} {r : Result} {x : Store × Next}
  {H : List Event}

theorem paths_next (goal : EvaluationGoal) (step : EvaluationStep) :
    (apply fs (step.next s goal)).paths =
      step.frames ++ (fs.flatMap Frame.tours).flatMap (·.walk.frames) := by
  rw [paths, ← Prod.mk.eta (p := step.next s goal), tours_apply, List.flatMap_append]
  congr 1
  cases step with
  | done => cases goal <;> rfl
  | failed e left => cases goal <;> rfl
  | _ => simp [EvaluationStep.next, Next.tours, Task.tours, Frame.tours, EvaluationStep.frames,
      Store.execution]

/-- A step with what is ordinary is idle if modules and paths stay as they are. -/
theorem Idles.of_ordinary {M : Machine} (hx : x.2.isOrdinary = true)
    (hstore : M.store.Tarries x.1) (hpaths : (apply fs x).paths = M.paths)
    (hprogress : ∀ d, x.1.progress d = M.store.progress d) : M.Idles (apply fs x) := by
  obtain ⟨s, n⟩ := x
  refine ⟨by rwa [store_apply], hpaths, fun d ↦ by rw [store_apply]; exact hprogress d,
    fun d hd ↦ ?_, fun m hm ↦ ?_⟩
  · cases n with
    | give r => contradiction
    | goto t => cases hd; contradiction
    | call t f => cases hd; contradiction
  · cases n with
    | give r => contradiction
    | goto t => cases hm; contradiction
    | call t f => exact List.cons_ne_nil _ _

/-- A step that is nothing to evaluation. -/
theorem Idles.of_inside {M : Machine} (hx : x.2.isOrdinary = true) (hinside : Inside M.store x.1)
    (hn : x.2.Still) (htours : M.tours = fs.flatMap Frame.tours) : M.Idles (apply fs x) := by
  refine .of_ordinary hx (.of_abides (.of_outline hinside.afar.outline hinside.same.imported)) ?_
    hinside.same.progress
  rw [Machine.paths, Machine.paths, ← Prod.mk.eta (p := x), tours_apply, hn.tours, htours, List.nil_append]

/-- A step while no walk is under way. -/
theorem Idles.of_moves {M : Machine} {H' : List Event} (hx : x.2.isOrdinary = true)
    (hmoves : Moves .parked (M.scene H) ((apply fs x).scene H')) (hv : Valid (M.scene H))
    (htours : M.tours = []) (hprogress : ∀ d, x.1.progress d = M.store.progress d) :
    M.Idles (apply fs x) := by
  obtain ⟨htarries, hnil⟩ := hmoves.tarries hv htours
  have hnil : (apply fs x).tours = [] := hnil
  have htarries : M.store.Tarries (apply fs x).store := htarries
  rw [← Prod.mk.eta (p := x), store_apply] at htarries
  exact .of_ordinary hx htarries (by rw [Machine.paths, Machine.paths, hnil, htours]) hprogress

/-- The walk on top has executed a module, or has waited for a synthetic one. -/
theorem Idles.of_walk {M : Machine} {goal : EvaluationGoal} {st : Stance} {w : EvaluationWalk}
    {step : EvaluationStep} (htours : M.tours = ⟨goal, st, w⟩ :: fs.flatMap Frame.tours)
    (hstore : M.store.Tarries s) (hframes : step.frames = w.frames)
    (hsynthetic : ∀ d, s.synthetic? d = M.store.synthetic? d)
    (hstep : ∀ d w, step ≠ .synthetic d w) (hok : ∀ e left, step ≠ .failed e left) :
    M.Idles (apply fs (step.next s goal)) := by
  refine .of_ordinary (EvaluationStep.isOrdinary_next s goal hstep) (hstore.trans ?_) ?_
    (Store.progress_of_synthetic? fun d ↦ (step.synthetic?_next s goal d).trans (hsynthetic d))
  · cases step with
    | failed e left => exact absurd rfl (hok e left)
    | done => exact .of_abides (.finish s goal)
    | _ => exact .refl s
  · rw [paths_next, hframes, Machine.paths, htours, List.flatMap_cons]

end Machine

/-! ## Steps -/

/-- Nothing is loaded. What is executed does not fail, and nothing is read that would have to be
evaluated first. -/
structure Machine.Placid (M : Machine) : Prop where
  loads : ∀ t, M.control = .run t → t.isLoad = false
  forces : ∀ m, M.control ≠ .run (.force m)
  executed : ∀ r f fs, M.control = .give r → M.frames = f :: fs → f.isExecution = true →
    r.toCompletion = .ok ()
  jobs : ∀ m e, M.control ≠ .run (.job ⟨.completeModule m, .error e⟩)

namespace Machine.Placid

variable {M : Machine} {H : List Event}

theorem smooth (h : M.Placid) (hs : M.store.Acyclic) : M.Smooth where
  loads t hc hl := absurd ((h.loads t hc).symm.trans hl) Bool.false_ne_true
  acyclic _ _ := hs
  forces := h.forces
  executed := h.executed
  jobs := h.jobs

theorem parked (h : M.Placid) (hgrants : M.Grants .smooth M.step)
    (hevaluate : ∀ m, M.control ≠ .run (.evaluate m)) : M.Grants .parked M.step where
  admits := ⟨hgrants.admits.searched, hgrants.admits.searches, hgrants.admits.roots⟩
  loads := .inr h.loads
  linking := hgrants.linking
  closed := hgrants.closed
  forces := hgrants.forces
  nests := hgrants.nests
  loaded := hgrants.loaded
  fails := hgrants.fails
  starts m hm := absurd hm (hevaluate m)

/-- What a step has to do with: a synthetic module starts or has run, an evaluation starts, a walk
goes on, or the step is idle. -/
theorem step_cases (h : M.Placid) (hv : Valid (M.scene H)) (hfit : M.Fit H)
    (hgrants : M.Grants .smooth M.step) (hflawless : M.Flawless) :
    (∃ d, M.control = .run (.synthetic d)) ∨ (∃ m, M.control = .run (.evaluate m)) ∨
      (∃ goal w, M.control = .run (.evaluation goal w)) ∨
      (∃ r d fs, M.control = .give r ∧ M.frames = .syntheticSteps d :: fs) ∨ M.Idles M.step := by
  by_cases hsynthetic : ∃ d, M.control = .run (.synthetic d)
  · exact .inl hsynthetic
  by_cases hevaluate : ∃ m, M.control = .run (.evaluate m)
  · exact .inr (.inl hevaluate)
  by_cases hevaluation : ∃ goal w, M.control = .run (.evaluation goal w)
  · exact .inr (.inr (.inl hevaluation))
  by_cases hsteps : ∃ r d fs, M.control = .give r ∧ M.frames = .syntheticSteps d :: fs
  · exact .inr (.inr (.inr (.inl hsteps)))
  refine .inr (.inr (.inr (.inr ?_)))
  push Not at hsynthetic hevaluate hevaluation hsteps
  have hmoves := (step_moves hv hfit (fun m hm ↦ absurd hm (hevaluate m)) (h.parked hgrants hevaluate)).1
  have hloads := h.loads
  have hforces := h.forces
  rcases hnext : M.next? with _ | x
  · rw [step_of_next?_eq_none hnext]
    exact ⟨.refl _, rfl, fun _ ↦ rfl, hsynthetic, fun m hm ↦ absurd hm (hevaluate m)⟩
  have hstep := step_of_next? hnext
  rw [hstep] at hmoves ⊢
  obtain ⟨s, control, fs⟩ := M
  rcases control with t | r
  · obtain rfl : x = t.advance s := advance_of_next? hnext
    have hord : (t.advance s).2.isOrdinary = true := Task.isOrdinary_advance s
      (fun m hm ↦ hevaluate m (by rw [hm])) (fun goal w hw ↦ hevaluation goal w (by rw [hw]))
      (fun m hm ↦ hforces m (by rw [hm]))
    have hload := hloads t rfl
    have hlinkage := hfit.linkage
    have hbase : t.isBase = true → fs = [] := hfit.current.base
    cases t with
    | body b => exact .of_inside hord (b.advance_apart s).inside (b.advance_quiet s).toStill rfl
    | read n name =>
      obtain ⟨hapart, hquiet⟩ := s.read_quiet n name
      exact .of_inside hord hapart.inside hquiet.toStill rfl
    | link m =>
      obtain ⟨hinside, hstill, -⟩ := Task.link_inside (L := fs.flatMap Frame.linkTours) hlinkage m
      exact .of_inside hord hinside hstill rfl
    | linking w =>
      obtain ⟨hinside, -⟩ := LinkWalk.advance_inside (L := fs.flatMap Frame.linkTours) hlinkage
      exact .of_inside hord hinside (LinkStep.next_still _ _).1 rfl
    | free ms =>
      obtain rfl := hbase rfl
      refine .of_moves hord hmoves hv rfl (Store.progress_of_synthetic? fun d ↦ ?_)
      rcases ms with _ | ⟨m, rest⟩
      · rfl
      · have hsame := s.synthetic?_continueFree d m
        simp only [Task.advance]
        split <;> next heq => rw [heq] at hsame; exact hsame
    | job j =>
      obtain rfl := hbase rfl
      refine .of_moves hord hmoves hv rfl fun d ↦ ?_
      by_cases hj : ∀ m, j.reaction ≠ .completeModule m
      · exact (Job.run_quiet s hj).1.inside.same.progress d
      · simp only [ne_eq, not_forall, not_not] at hj
        obtain ⟨reaction, c⟩ := j
        obtain ⟨m, rfl⟩ := hj
        rcases c with e | ⟨⟩
        · exact absurd rfl (h.jobs m e)
        · exact Store.progress_of_synthetic? (s.synthetic?_fulfillModule m) d
    | synthetic d => exact absurd rfl (hsynthetic d)
    | evaluate m => exact absurd rfl (hevaluate m)
    | evaluation goal w => exact absurd rfl (hevaluation goal w)
    | force m => exact absurd rfl (hforces m)
    | _ => contradiction
  · rcases fs with _ | ⟨f, fs⟩
    · contradiction
    obtain rfl : x = f.resume s r := (Option.some.inj hnext).symm
    have hord := Frame.isOrdinary_resume s r f
    have hbase : f.isBase = true → fs = [] := hfit.piled.base [] f fs rfl
    have hlinkage := hfit.linkage
    cases hf : f.isWalk with
    | false =>
      obtain ⟨-, hquiet, hapart⟩ := Frame.resume_quiet s r hf
      have htours : f.tours = [] := by cases f <;> first | rfl | contradiction
      refine .of_inside hord (hapart fun d hd ↦ hsteps r d fs rfl (by rw [hd])).inside hquiet.toStill ?_
      change f.tours ++ fs.flatMap Frame.tours = _
      rw [htours, List.nil_append]
      rfl
    | true =>
      cases f with
      | executed goal m capability w =>
        have hok : ∀ e left, (w.executed s m capability r.toCompletion).2 ≠ .failed e left :=
          fun e left hfailed ↦ hflawless.walks e left (congrArg some hfailed)
        exact .of_walk rfl (.of_permits fun _ hR ↦ hR.executed s w m capability _)
          (EvaluationWalk.executed_frames hok) (fun d ↦ EvaluationWalk.synthetic?_executed s w d m _ _)
          (fun _ _ ↦ EvaluationWalk.executed_ne_synthetic) hok
      | passed goal w =>
        have hok : ∀ e left, (w.passed s r.toCompletion).2 ≠ .failed e left :=
          fun e left hfailed ↦ hflawless.walks e left (congrArg some hfailed)
        exact .of_walk rfl (.of_permits fun _ hR ↦ hR.passed s w _)
          (EvaluationWalk.passed_frames hok) (fun d ↦ EvaluationWalk.synthetic?_passed s w d _)
          (fun _ _ ↦ EvaluationWalk.passed_ne_synthetic) hok
      | freed m capability rest =>
        obtain rfl := hbase rfl
        exact .of_moves hord hmoves hv rfl
          (Store.progress_of_synthetic? fun d ↦ s.synthetic?_finishFree d m capability _)
      | setUp m w =>
        obtain ⟨hinside, hstill, -⟩ := Frame.setUp_inside (L := fs.flatMap Frame.linkTours) hlinkage r
        exact .of_inside hord hinside hstill rfl
      | _ => contradiction

end Machine.Placid

end EcmaModules
