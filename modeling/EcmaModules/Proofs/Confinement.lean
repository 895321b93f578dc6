import EcmaModules.Proofs.Scopes

/-!
# Machines in scope

What the machine is at, what waits below it, and what the store refers to stay in a scope that is
large enough, step after step. Evaluation that is called from outside or from a body has to start in
it; everything else comes from what is there.

The steps that belong to loading are left out of what is said about the store: they bring modules
into scope. With none of the modules in scope being new, every other step leaves loading alone.
-/

namespace EcmaModules

variable {K K' : Scope} {s s' : Store} {m : ModuleId}

/-! ## Tasks and frames -/

/-- The job goes on with a module in scope, if with any. -/
def Job.Among (j : Job) (K : Scope) : Prop := ∀ m, j.reaction = .completeModule m → K.has m

/-- The walk that the task is, or the modules to be executed, are in scope. -/
def Task.Among (K : Scope) : Task → Prop
  | .linking w => w.Among K
  | .evaluation _ w => w.Among K
  | .free ms => ∀ m ∈ ms, K.has m
  | .job j => j.Among K
  | _ => True

/-- The walk that waits in the frame, or the modules to be executed, are in scope. -/
def Frame.Among (K : Scope) : Frame → Prop
  | .setUp _ w => w.Among K
  | .executed _ _ _ w | .passed _ w => w.Among K
  | .freed m _ rest => K.has m ∧ ∀ x ∈ rest, K.has x
  | _ => True

/-- What comes next is in scope. -/
def Next.Among (K : Scope) : Next → Prop
  | .goto t => t.Among K
  | .call t f => t.Among K ∧ f.Among K
  | .give _ => True

theorem Task.Among.mono {t : Task} (h : t.Among K) (hK : K.Within K') : t.Among K' := by
  cases t with
  | linking w => exact LinkWalk.Among.mono h hK
  | evaluation goal w => exact EvaluationWalk.Among.mono h hK
  | free ms => exact fun m hm ↦ hK.has m (h m hm)
  | job j => exact fun m hm ↦ hK.has m (h m hm)
  | _ => trivial

theorem Frame.Among.mono {f : Frame} (h : f.Among K) (hK : K.Within K') : f.Among K' := by
  cases f with
  | setUp m w => exact LinkWalk.Among.mono h hK
  | executed goal m capability w => exact EvaluationWalk.Among.mono h hK
  | passed goal w => exact EvaluationWalk.Among.mono h hK
  | freed m capability rest => exact ⟨hK.has m h.1, fun x hx ↦ hK.has x (h.2 x hx)⟩
  | _ => trivial

theorem Next.Among.mono {n : Next} (h : n.Among K) (hK : K.Within K') : n.Among K' := by
  cases n with
  | goto t => exact Task.Among.mono h hK
  | call t f => exact ⟨h.1.mono hK, h.2.mono hK⟩
  | give r => trivial

theorem Task.among_of_still {t : Task} (ht : t.tours = []) (hl : t.linkTours = [])
    (hq : t.queue = []) (hh : t.hand = []) : t.Among K := by
  cases t with
  | free ms =>
    obtain rfl : ms = [] := hq
    exact nofun
  | linking w => exact nomatch hl
  | evaluation goal w => exact nomatch ht
  | job j => exact nomatch hh
  | _ => trivial

theorem Next.Quiet.among {n : Next} (h : n.Quiet) : n.Among K := by
  obtain ⟨⟨ht, hq, -, hh, -, hb⟩, hl⟩ := h
  cases n with
  | goto t => exact Task.among_of_still ht hl hq hh
  | call t f =>
    obtain ⟨ht, ht'⟩ := List.append_eq_nil_iff.1 ht
    obtain ⟨hl, hl'⟩ := List.append_eq_nil_iff.1 hl
    refine ⟨Task.among_of_still ht hl (List.append_eq_nil_iff.1 hq).1 hh, ?_⟩
    have hf := (Bool.or_eq_false_iff.1 hb).2
    cases f with
    | setUp m w => exact nomatch hl'
    | executed goal m capability w => exact nomatch ht'
    | passed goal w => exact nomatch ht'
    | freed m capability rest => exact nomatch hf
    | _ => trivial
  | give r => trivial

/-! ## Steps in scope -/

/-- A step that stays in scope. -/
structure Store.Steps (K : Scope) (s : Store) (x : Store × Next) : Prop where
  store : s.Among K x.1
  next : x.2.Among K

theorem EvaluationWalk.Keeps.next {x : Store × EvaluationStep} (h : Keeps K s x)
    (goal : EvaluationGoal) : s.Steps K (x.2.next x.1 goal) := by
  obtain ⟨s', step⟩ := x
  obtain ⟨hs, hx⟩ := h
  cases step with
  | done =>
    cases goal with
    | promise root p =>
      refine ⟨hs.trans ?_, trivial⟩
      simp only [EvaluationStep.next, EvaluationGoal.finish, Store.finishEvaluation]
      split
      · exact .settle s' p _
      · exact .refl s'
    | force m =>
      refine ⟨hs.trans ?_, trivial⟩
      simp only [EvaluationStep.next, EvaluationGoal.finish, Store.finishForced]
      split
      · exact .refl s'
      · exact .apart (.throw s' _ _)
  | failed e stack =>
    have hfail : s'.Among K (s'.failModules stack e) := .failModules s' hx e
    cases goal with
    | promise root p => exact ⟨hs.trans (hfail.trans (.settle _ p _)), trivial⟩
    | force m => exact ⟨hs.trans hfail, trivial⟩
  | go w => exact ⟨hs, hx⟩
  | synthetic m w => exact ⟨hs, trivial, hx⟩
  | execute m capability w => exact ⟨hs, trivial, hx⟩

theorem LinkStep.next_steps {step : LinkStep} (hs : s.Among K s') (hx : step.Among K) :
    s.Steps K (step.next s') := by
  cases step with
  | done => exact ⟨hs, trivial⟩
  | failed e stack => exact ⟨hs.trans (.unlink s' hx), trivial⟩
  | go w => exact ⟨hs, hx⟩
  | setUp m w => exact ⟨hs, trivial, hx⟩

/-- The walk that starts at a module in scope. -/
theorem EvaluationWalk.start_keeps (hs : s.Holds K) (hm : K.has m) : Keeps K s (start s m) :=
  arrive_keeps hs ⟨List.forall_mem_nil _, List.forall_mem_nil _⟩ hm .executing

/-! ### Modules that are set free -/

namespace Store

/-- Those that are set free have waited. -/
theorem gatherFrom_among (depth : Nat) (hs : s.Refers K) {F : List ModuleId}
    (hF : ∀ x ∈ F, K.has x) : ∀ x ∈ (gatherFrom depth s m F).2, K.has x := by
  induction depth generalizing s m F with
  | zero => exact hF
  | succ depth ih =>
    have hfold : ∀ (ps : List ModuleId) (s : Store) (F : List ModuleId), s.Refers K →
        (∀ p ∈ ps, K.has p) → (∀ x ∈ F, K.has x) →
        ∀ x ∈ (ps.foldl (gatherParent depth) (s, F)).2, K.has x := fun ps ↦ by
      induction ps with
      | nil => exact fun _ _ _ _ hF ↦ hF
      | cons p ps ihps =>
        intro s F hs hps hF
        rw [List.foldl_cons]
        have hp := hps p List.mem_cons_self
        have hrest := fun q hq ↦ hps q (List.mem_cons_of_mem p hq)
        have hless : (s.lessen p).Refers K := hs.among (.lessen s p)
        have hmore : ∀ x ∈ F ++ [p], K.has x :=
          List.forall_mem_append.2 ⟨hF, fun x hx ↦ List.mem_singleton.1 hx ▸ hp⟩
        rcases gatherParent_cases depth s F p with
          ⟨-, heq⟩ | ⟨r, -, -, -, ⟨-, heq⟩ | ⟨-, heq⟩⟩
        · rw [heq]
          exact ihps s F hs hrest hF
        · rw [heq]
          exact ihps _ F hless hrest hF
        · rw [heq]
          split
          · exact ihps _ _ hless hrest hmore
          · have hdown := gatherFrom_of_lessen (R := Among K) .refl (fun _ _ _ ↦ .trans) .lessen
              depth (s.lessen p) p (F ++ [p])
            exact ihps _ _ (hless.among hdown) hrest (ih hless hmore)
    rw [gatherFrom_succ]
    refine hfold _ s F hs (fun p hp ↦ ?_) hF
    rcases hr : s.source? m with _ | r
    · simp [hr] at hp
    · exact hs.parents m r hr p (by simpa [hr] using hp)

theorem fulfillModule_among (hs : s.Refers K) (hm : K.has m) :
    ∀ x ∈ (s.fulfillModule m).2, K.has x := by
  unfold fulfillModule
  split
  · exact nofun
  · exact gatherFrom_among _ (hs.among (.finishModule s hm)) nofun

/-- Forcing starts an evaluation at a module that has been linked. -/
theorem linked_of_force {r : SourceText} (hm : s.source? m = some r)
    (h : (s.force m).1 = .evaluate) : .linked ≤ r.status := by
  rw [Status.le_iff]
  cases hs : r.status with
  | new | unlinked | linking =>
    simp only [force, hm, hs] at h
    contradiction
  | _ => decide

theorem evaluationRoot_among (hs : s.Refers K) (hm : K.has m) : K.has (s.evaluationRoot m) := by
  unfold evaluationRoot cycleRoot
  split
  · rcases hr : s.source? m with _ | r
    · exact hm
    · rcases hroot : r.cycleRoot with _ | root
      · simpa [hroot] using hm
      · simpa [hroot] using hs.root m r hr root hroot
  · exact hm

end Store

/-! ### Tasks -/

theorem Task.force_steps (hk : s.Holds K) (hm : (s.force m).1 = .evaluate → K.has m) :
    s.Steps K (Task.advance s (.force m)) := by
  rcases hq : s.source? m with _ | q
  · simp only [advance, Store.forceModule, Store.force, hq]
    exact ⟨.refl s, trivial⟩
  rcases Store.force_cases hq with ⟨c, s', heq, ha⟩ | ⟨heq, -⟩
  · simp only [advance, Store.forceModule, heq]
    exact ⟨.apart ha, trivial⟩
  · simp only [advance, Store.forceModule, heq]
    exact (EvaluationWalk.start_keeps hk (hm (by rw [heq]))).next (.force m)

theorem Task.evaluate_steps (hs : s.Refers K) (hk : s.Holds K) (hm : K.has m) :
    s.Steps K (Task.advance s (.evaluate m)) := by
  simp only [advance, Store.evaluate]
  split
  · exact ⟨.refl s, trivial, trivial⟩
  · have hroot := Store.evaluationRoot_among hs hm
    generalize s.evaluationRoot m = root at hroot ⊢
    split
    · exact ⟨.refl s, trivial⟩
    · have hnew : s.Among K (s.newCapability root).2 := .newCapability s root
      have hk' : (s.newCapability root).2.Holds K := by
        refine ⟨fun x r hr ↦ hk.asks x r ?_, fun x r d hx ha hd ↦
          hk.imports x r d hx ha ((hnew.same.imported x r).symm.trans hd)⟩
        rwa [hnew.same.entries] at hr
      exact (EvaluationWalk.Keeps.of_among hnew (EvaluationWalk.start_keeps hk' hroot)).next _

theorem Task.free_steps {ms : List ModuleId} (hms : ∀ m ∈ ms, K.has m) :
    s.Steps K (Task.advance s (.free ms)) := by
  rcases ms with _ | ⟨m, rest⟩
  · exact ⟨.refl s, trivial⟩
  · rw [List.forall_mem_cons] at hms
    have hfree : s.Among K (s.continueFree m).2 := .continueFree s hms.1
    simp only [advance]
    split <;> next heq => rw [heq] at hfree; first
      | exact ⟨hfree, hms.2⟩
      | exact ⟨hfree, trivial, hms⟩

theorem Job.run_steps (hs : s.Refers K) {j : Job} (hj : j.Among K) : s.Steps K (j.run s) := by
  by_cases hquiet : ∀ m, j.reaction ≠ .completeModule m
  · obtain ⟨ha, hq⟩ := Job.run_quiet s hquiet
    exact ⟨.apart ha, hq.among⟩
  · simp only [ne_eq, not_forall, not_not] at hquiet
    obtain ⟨m, hm⟩ := hquiet
    have hk := hj m hm
    obtain ⟨reaction, c⟩ := j
    obtain rfl : reaction = _ := hm
    rcases c with e | ⟨⟩
    · exact ⟨.rejectFrom _ hs hk e, trivial⟩
    · exact ⟨.fulfillModule s hk, Store.fulfillModule_among hs hk⟩

theorem Task.link_steps (hk : s.Knows K) (m : ModuleId) :
    s.Steps K (Task.advance s (.link m)) := by
  have hempty : ({} : LinkWalk).Among K := ⟨nofun, nofun⟩
  have hstart : s.Among K (s.startLinking m).2 ∧
      ∀ w, (s.startLinking m).1 = .ok w → w.Among K := by
    unfold Store.startLinking
    split
    · exact ⟨.apart (.throw s _ _), nofun⟩
    · exact ⟨.apart (.throw s _ _), nofun⟩
    · have henter := LinkWalk.enter_among hk hempty m
      split <;> next heq => rw [heq] at henter; refine ⟨henter.1, fun w hw ↦ ?_⟩; first
        | exact Except.ok.inj hw ▸ henter.2 _ rfl
        | exact Except.ok.inj hw ▸ hempty
  simp only [advance]
  split <;> next heq => rw [heq] at hstart; first
    | exact ⟨hstart.1, hstart.2 _ rfl⟩
    | exact ⟨hstart.1, trivial⟩

/-- The task is linking, or starts it. -/
def Task.links : Task → Bool
  | .link _ | .linking _ => true
  | _ => false

/-- A task that does not link stays in scope. -/
theorem Task.evaluating_steps {t : Task} (hs : s.Refers K) (hk : s.Holds K) (ht : t.Among K)
    (he : ∀ m, t = .evaluate m → K.has m)
    (hf : ∀ m, t = .force m → (s.force m).1 = .evaluate → K.has m) (hl : t.links = false)
    (hin : t.isRemote = false) : s.Steps K (t.advance s) := by
  cases hw : t.isWalk with
  | false =>
    obtain ⟨-, hq, ha⟩ := Task.advance_quiet s hw
    exact ⟨.apart (ha hin), hq.among⟩
  | true =>
    cases t with
    | force m => exact Task.force_steps hk (hf m rfl)
    | evaluate m => exact Task.evaluate_steps hs hk (he m rfl)
    | evaluation goal w => exact (EvaluationWalk.advance_keeps hk ht).next goal
    | free ms => exact Task.free_steps ht
    | job j => exact Job.run_steps hs ht
    | _ => contradiction

/-- A task stays in scope. -/
theorem Task.advance_steps {t : Task} (hs : s.Refers K) (hk : s.Knows K) (ht : t.Among K)
    (he : ∀ m, t = .evaluate m → K.has m) (hin : t.isRemote = false) : s.Steps K (t.advance s) := by
  cases hl : t.links with
  | false =>
    refine Task.evaluating_steps hs hk.toHolds ht he (fun m _ hforce ↦ ?_) hl hin
    rcases hm : s.source? m with _ | r
    · simp [Store.force, hm] at hforce
    · refine hk.old m r hm fun hnew ↦ ?_
      have hle := Store.linked_of_force hm hforce
      rw [hnew, Status.le_iff] at hle
      exact absurd hle (by decide)
  | true =>
    cases t with
    | link m => exact Task.link_steps hk m
    | linking w =>
      obtain ⟨hstore, hstep⟩ := LinkWalk.advance_among hk ht
      exact LinkStep.next_steps hstore hstep
    | _ => contradiction

/-- A frame stays in scope. -/
theorem Frame.resume_steps {f : Frame} (hs : s.Refers K) (hf : f.Among K) (r : Result)
    (hin : ∀ m, f ≠ .syntheticSteps m) : s.Steps K (f.resume s r) := by
  cases hw : f.isWalk with
  | false =>
    obtain ⟨-, hq, ha⟩ := Frame.resume_quiet s r hw
    exact ⟨.apart (ha hin), hq.among⟩
  | true =>
    cases f with
    | executed goal m capability w =>
      exact (EvaluationWalk.executed_keeps s hf m capability _).next goal
    | passed goal w => exact (EvaluationWalk.passed_keeps s hf _).next goal
    | freed m capability rest => exact ⟨.finishFree hs hf.1 capability _, hf.2⟩
    | setUp m w =>
      simp only [resume]
      split
      · obtain ⟨hstore, hw'⟩ := LinkWalk.conclude_among s hf m
        exact ⟨hstore, hw'⟩
      · exact LinkStep.next_steps (.refl s) hf.stack
    | _ => contradiction

/-! ## Steps of the machine -/

namespace Machine

/-- What the machine is at, what waits below, and what the store refers to is in scope. -/
structure Among (M : Machine) (K : Scope) : Prop where
  refers : M.store.Refers K
  current : M.current.Among K
  frames : ∀ f ∈ M.frames, f.Among K

/-- Evaluation that is started in the next step starts in scope. -/
def StartsIn (M : Machine) (K : Scope) : Prop := ∀ m, M.control = .run (.evaluate m) → K.has m

/-- The next step has nothing to do with loading and with the steps of synthetic modules. -/
def Inner (M : Machine) : Prop :=
  (∀ t, M.control = .run t → t.isRemote = false) ∧
    ∀ r m fs, M.control = .give r → M.frames ≠ .syntheticSteps m :: fs

theorem Among.mono {M : Machine} (h : M.Among K) (hK : K.Within K') : M.Among K' :=
  ⟨h.refers.mono hK, h.current.mono hK, fun f hf ↦ (h.frames f hf).mono hK⟩

theorem Among.apply {n : Next} {fs : List Frame} (hs : s.Refers K) (hn : n.Among K)
    (hfs : ∀ f ∈ fs, f.Among K) : (apply fs (s, n)).Among K := by
  cases n with
  | goto t => exact ⟨hs, hn, hfs⟩
  | call t f => exact ⟨hs, hn.1, List.forall_mem_cons.2 ⟨hn.2, hfs⟩⟩
  | give r => exact ⟨hs, hn, hfs⟩

/-- What is in scope stays there. -/
theorem Among.step {M : Machine} (h : M.Among K) (hk : M.store.Knows K) (he : M.StartsIn K) :
    M.step.Among K := by
  rcases hnext : M.next? with _ | x
  · rwa [step_of_next?_eq_none hnext]
  rw [step_of_next? hnext]
  obtain ⟨s, control, fs⟩ := M
  obtain ⟨hs, hcurrent, hframes⟩ := h
  rcases control with t | r
  · obtain rfl : x = t.advance s := advance_of_next? hnext
    cases hin : t.isRemote with
    | false =>
      have hsteps := Task.advance_steps hs hk hcurrent (fun m ht ↦ he m (congrArg _ ht)) hin
      exact .apply (hs.among hsteps.store) hsteps.next hframes
    | true =>
      have hw : t.isWalk = false := by cases t <;> first | rfl | exact nomatch hin
      obtain ⟨ha, hq, -⟩ := Task.advance_quiet s hw
      exact .apply (hs.aside ha) hq.among hframes
  · rcases fs with _ | ⟨f, fs⟩
    · exact nomatch hnext
    obtain rfl : x = f.resume s r := (Option.some.inj hnext).symm
    rw [List.forall_mem_cons] at hframes
    by_cases hin : ∀ m, f ≠ .syntheticSteps m
    · have hsteps := Frame.resume_steps hs hframes.1 r hin
      exact .apply (hs.among hsteps.store) hsteps.next hframes.2
    · simp only [ne_eq, not_forall, not_not] at hin
      obtain ⟨m, rfl⟩ := hin
      obtain ⟨ha, hq, -⟩ := Frame.resume_quiet s r (f := .syntheticSteps m) rfl
      exact .apply (hs.aside ha) hq.among hframes.2

/-- An inner step changes modules in scope only. -/
theorem Among.store {M : Machine} (h : M.Among K) (hk : M.store.Knows K) (he : M.StartsIn K)
    (hin : M.Inner) : M.store.Among K M.step.store := by
  rcases hnext : M.next? with _ | x
  · rw [step_of_next?_eq_none hnext]
    exact .refl _
  rw [step_of_next? hnext, store_apply]
  obtain ⟨s, control, fs⟩ := M
  obtain ⟨hs, hcurrent, hframes⟩ := h
  rcases control with t | r
  · obtain rfl : x = t.advance s := advance_of_next? hnext
    exact (Task.advance_steps hs hk hcurrent (fun m ht ↦ he m (congrArg _ ht)) (hin.1 t rfl)).store
  · rcases fs with _ | ⟨f, fs⟩
    · exact nomatch hnext
    obtain rfl : x = f.resume s r := (Option.some.inj hnext).symm
    rw [List.forall_mem_cons] at hframes
    refine (Frame.resume_steps hs hframes.1 r fun m hf ↦ ?_).store
    exact hin.2 r m fs rfl (hf ▸ rfl)

end Machine

end EcmaModules
