import EcmaModules.Proofs.Settlement

/-!
# Promises that nobody else gets hold of

The promise of a loading operation is settled by that operation alone. Evaluation settles the
promises that modules have, and those that evaluations were started with; jobs, bodies and callers
settle what was handed to them (`Store.Trusts`). If the promise is none of these, then no step of
anything but the operation changes how it was settled, and it does not get to be one of these.

In the terms of `Fund`: all other promises are such that others may settle them, and all other
operations are counted among those others. It does not matter here whether evaluation may settle a
promise or others may, so the promises of modules have to be in the fund as well.
-/

namespace EcmaModules

/-! ## Evaluations with a promise -/

/-- The promise that an evaluation was started with. -/
def EvaluationGoal.promises : EvaluationGoal → List PromiseId
  | .promise _ p => [p]
  | .force _ => []

/-- The promises of the evaluation that a task is part of. -/
def Task.goals : Task → List PromiseId
  | .evaluation goal _ => goal.promises
  | _ => []

/-- The promises of the evaluation that waits in a frame. -/
def Frame.goals : Frame → List PromiseId
  | .executed goal _ _ _ | .passed goal _ => goal.promises
  | _ => []

/-- The promises of the evaluation that what comes next is part of. -/
def Next.goals : Next → List PromiseId
  | .goto t => t.goals
  | .call t f => t.goals ++ f.goals
  | .give _ => []

/-- The promises that what comes next may settle, for evaluation or for others. -/
def Next.holds (n : Next) : List PromiseId := n.targets ++ n.goals

/-- The promises that may be settled when the result for the frame is there. -/
def Frame.holds (f : Frame) : List PromiseId := f.targets ++ f.goals

/-- What is no walk that evaluates has no such promise. -/
theorem Next.holds_of_tours {n : Next} (h : n.tours = []) : n.holds = n.targets := by
  have htask : ∀ t : Task, t.tours = [] → t.goals = [] := fun t ht ↦ by
    cases t <;> first | rfl | simp [Task.tours] at ht
  have hframe : ∀ f : Frame, f.tours = [] → f.goals = [] := fun f hf ↦ by
    cases f <;> first | rfl | simp [Frame.tours] at hf
  have hgoals : n.goals = [] := by
    cases n with
    | goto t => exact htask t h
    | call t f =>
      obtain ⟨ht, hf⟩ := List.append_eq_nil_iff.1 h
      rw [goals, htask t ht, hframe f hf]
      rfl
    | give r => rfl
  rw [holds, hgoals, List.append_nil]

/-! ## Stores -/

namespace Store

variable {E : Fund} {s s' s'' : Store}

/-- Only promises in the fund may be settled by anyone, evaluation included. -/
structure Reserves (s : Store) (E : Fund) : Prop where
  trusts : s.Trusts E
  capabilities : ∀ x p, s.capability? x = some p → E p ∧ (s.promise? p).isSome

/-- A change after which that is still so, and which leaves alone the promises that are not in the
fund. -/
structure Spares (E : Fund) (s s' : Store) : Prop where
  reserves : s'.Reserves E
  grows : ∀ p, (s.promise? p).isSome → (s'.promise? p).isSome
  keeps : ∀ p, ¬E p → s'.outcome? p = s.outcome? p

namespace Spares

theorem refl (h : s.Reserves E) : s.Spares E s := ⟨h, fun _ ↦ id, fun _ _ ↦ rfl⟩

theorem trans (h : Spares E s s') (h' : Spares E s' s'') : Spares E s s'' :=
  ⟨h'.reserves, fun p hp ↦ h'.grows p (h.grows p hp),
    fun p hp ↦ (h'.keeps p hp).trans (h.keeps p hp)⟩

theorem of_deals (h : s.Reserves E) (hd : s.Deals E s')
    (hc : ∀ x, s'.capability? x = s.capability? x) : s.Spares E s' := by
  refine ⟨⟨hd.trusts, fun x p hp ↦ ?_⟩, hd.grows, hd.keeps⟩
  obtain ⟨hE, hsome⟩ := h.capabilities x p ((hc x).symm.trans hp)
  exact ⟨hE, hd.grows p hsome⟩

theorem of_duties (h : s.Reserves E) (hd : s'.duties = s.duties)
    (hc : ∀ x, s'.capability? x = s.capability? x) : s.Spares E s' :=
  of_deals h (.of_duties h.trusts hd) hc

theorem settle (h : s.Reserves E) {p : PromiseId} (hp : s.Lends E [p]) (c : Completion) :
    s.Spares E (s.settle p c) :=
  of_deals h (.settle h.trusts hp c) (capability?_congr (modules_settle s p c))

/-- An evaluation starts, with a new promise. -/
theorem newCapability (h : s.Reserves E) (root : ModuleId) :
    s.Spares E (s.newCapability root).2 ∧
      (s.newCapability root).2.Lends E [(s.newCapability root).1] := by
  obtain ⟨hnew, hlends⟩ := Deals.newPromise h.trusts
  have hdeals : s.Deals E (s.newCapability root).2 := hnew.trans (.of_duties hnew.trusts rfl)
  refine ⟨⟨⟨hdeals.trusts, fun x p hp ↦ ?_⟩, hdeals.grows, hdeals.keeps⟩, hlends⟩
  rw [capability?_newCapability] at hp
  split at hp
  · obtain ⟨r, -, rfl⟩ := Option.map_eq_some_iff.1 hp
    exact hlends _ List.mem_cons_self
  · obtain ⟨hE, hsome⟩ := h.capabilities x p hp
    exact ⟨hE, hdeals.grows p hsome⟩

/-! ### What evaluation settles -/

theorem resolveCapability (h : s.Reserves E) (m : ModuleId) :
    s.Spares E (s.resolveCapability m) := by
  unfold Store.resolveCapability
  split
  · next p hp => exact settle h (List.forall_mem_singleton.2 (h.capabilities m p hp)) _
  · exact refl h

theorem rejectCapability (h : s.Reserves E) (m : ModuleId) (e : ErrorId) :
    s.Spares E (s.rejectCapability m e) := by
  unfold Store.rejectCapability
  split
  · next p hp => exact settle h (List.forall_mem_singleton.2 (h.capabilities m p hp)) _
  · exact refl h

theorem finishModule (h : s.Reserves E) (m : ModuleId) : s.Spares E (s.finishModule m) := by
  have hover : s.Spares E ((s.settleAsync m).setStatus m .evaluated) :=
    of_duties h rfl fun x ↦ by rw [capability?_setStatus, capability?_settleAsync]
  exact hover.trans (resolveCapability hover.reserves m)

theorem finishSearched (h : s.Reserves E) (m : ModuleId) : s.Spares E (s.finishSearched m) := by
  have hover : s.Spares E ((s.setStatus m .asyncSubgraphsEvaluated).settleAsync m) :=
    of_duties h rfl fun x ↦ by rw [capability?_settleAsync, capability?_setStatus]
  exact hover.trans (resolveCapability hover.reserves m)

theorem rejectFrom (h : s.Reserves E) (depth : Nat) (m : ModuleId) (e : ErrorId) :
    s.Spares E (s.rejectFrom depth m e) := by
  induction depth generalizing s m with
  | zero => exact refl h
  | succ depth ih =>
    unfold Store.rejectFrom
    split
    · exact refl h
    have hfold : ∀ (ms : List ModuleId) {s : Store}, s.Reserves E →
        s.Spares E (ms.foldl (fun s m ↦ s.rejectFrom depth m e) s) := by
      intro ms
      induction ms with
      | nil => exact refl
      | cons d ms ihms => exact fun h ↦ (ih h d).trans (ihms (ih h d).reserves)
    have hmarked : s.Spares E (s.markFailed m e) :=
      of_duties h rfl fun x ↦ by
        unfold Store.markFailed
        rw [capability?_modifySource]
        exact fun _ ↦ rfl
    have hspread := fun ms ↦ hmarked.trans (hfold ms hmarked.reserves)
    exact (hspread _).trans (rejectCapability (hspread _).reserves m e)

theorem fulfillModule (h : s.Reserves E) (m : ModuleId) : s.Spares E (s.fulfillModule m).1 := by
  have hfinish := finishModule h m
  unfold Store.fulfillModule
  split
  · exact refl h
  · refine hfinish.trans (of_duties hfinish.reserves ?_ fun x ↦ ?_)
    · exact gatherFrom_of_lessen (R := fun s s' ↦ s'.duties = s.duties) (fun _ ↦ rfl)
        (fun _ _ _ h h' ↦ h'.trans h) (fun _ _ ↦ rfl) _ _ m []
    · exact gatherFrom_of_lessen (R := fun s s' ↦ s'.capability? x = s.capability? x)
        (fun _ ↦ rfl) (fun _ _ _ h h' ↦ h'.trans h) (fun s p ↦ s.capability?_lessen p x) _ _ m []

theorem continueFree (h : s.Reserves E) (m : ModuleId) :
    s.Spares E (s.continueFree m).2 ∧
      ∀ capability, (s.continueFree m).1 = .execute capability →
        (s.continueFree m).2.Lends E capability.toList := by
  refine ⟨?_, (Upholds.continueFree h.trusts m).2⟩
  unfold Store.continueFree
  split
  · exact refl h
  · split
    · exact refl h
    · split
      · exact of_deals h (s.startAsync_deals h.trusts m).1 (Treads.startAsync s m).capability?
      · split
        · exact finishSearched h m
        · exact refl h

theorem finishFree (h : s.Reserves E) (m : ModuleId) {capability : Option PromiseId}
    (hlends : s.Lends E capability.toList) (c : Completion) :
    s.Spares E (s.finishFree m capability c) := by
  rcases capability with _ | p <;> rcases c with e | ⟨⟩
  · exact rejectFrom h _ m e
  · rw [s.finishFree_eq_finishModule]
    exact finishModule h m
  · exact settle h hlends _
  · exact refl h

end Spares

end Store

/-! ## Linking -/

namespace LinkWalk

theorem capability?_enter (s : Store) (w : LinkWalk) (m x : ModuleId) :
    (enter s w m).1.capability? x = s.capability? x := by
  unfold enter
  split
  · refine (Store.capability?_modifySource _ m ?_ x).trans (s.capability?_setStatus m .linking x)
    exact fun _ ↦ rfl
  · rfl

theorem capability?_leave (s : Store) (m required x : ModuleId) :
    (leave s m required).capability? x = s.capability? x := by
  unfold leave
  split
  · split
    · refine s.capability?_modifySource m ?_ x
      exact fun _ ↦ rfl
    · rfl
  · rfl

theorem capability?_popComponent (root x : ModuleId) (stack : List ModuleId) (s : Store) :
    (popComponent s root stack).1.capability? x = s.capability? x := by
  induction stack generalizing s with
  | nil => rfl
  | cons m stack ih =>
    rw [popComponent]
    split
    · exact s.capability?_setStatus m .linked x
    · exact (ih _).trans (s.capability?_setStatus m .linked x)

theorem capability?_conclude (s : Store) (w : LinkWalk) (m x : ModuleId) :
    (conclude s w m).1.capability? x = s.capability? x := by
  have hpop : (if s.isComponentRoot m then popComponent s m w.stack
      else (s, w.stack)).1.capability? x = s.capability? x := by
    split
    · exact capability?_popComponent m x w.stack s
    · rfl
  unfold conclude
  split
  next heq =>
    rw [heq] at hpop
    dsimp only
    split
    · exact (capability?_leave _ _ _ x).trans hpop
    · exact hpop

end LinkWalk

theorem Store.capability?_unlink (stack : List ModuleId) (s : Store) (x : ModuleId) :
    (s.unlink stack).capability? x = s.capability? x := by
  induction stack generalizing s with
  | nil => rfl
  | cons m stack ih => exact (ih _).trans (s.capability?_setStatus m .unlinked x)

theorem LinkStep.capability?_next (s : Store) (step : LinkStep) (x : ModuleId) :
    (step.next s).1.capability? x = s.capability? x := by
  cases step with
  | failed e stack => exact s.capability?_unlink stack x
  | _ => rfl

theorem LinkWalk.capability?_advance (s : Store) (w : LinkWalk) (x : ModuleId) :
    (w.advance s).1.capability? x = s.capability? x := by
  unfold LinkWalk.advance
  split
  · rfl
  · next m rest _ =>
    have h := Store.capability?_of_outline (s.initializeEnvironment_furnishing m).outline x
    split <;> next heq => rw [heq] at h; exact h
  · next m r requests rest _ =>
    dsimp only
    split
    · rfl
    · next d _ =>
      have h := capability?_enter s { w with frames := ⟨m, requests⟩ :: rest } d x
      split <;> next heq =>
        rw [heq] at h
        first | exact h | exact (capability?_leave _ _ _ x).trans h

theorem Task.capability?_link (s : Store) (m x : ModuleId) :
    (Task.advance s (.link m)).1.capability? x = s.capability? x := by
  have hstart : (s.startLinking m).2.capability? x = s.capability? x := by
    have h := LinkWalk.capability?_enter s {} m x
    unfold Store.startLinking
    split
    · rfl
    · rfl
    · split <;> next heq => rw [heq] at h; exact h
  simp only [Task.advance]
  split <;> next heq => rw [heq] at hstart; exact hstart

theorem Frame.capability?_setUp (s : Store) (r : Result) (m : ModuleId) (w : LinkWalk)
    (x : ModuleId) : (Frame.resume s r (.setUp m w)).1.capability? x = s.capability? x := by
  simp only [Frame.resume]
  split
  · exact LinkWalk.capability?_conclude s w m x
  · exact LinkStep.capability?_next s _ x

/-! ## Walks -/

section

variable {E : Fund} {s : Store}

/-- What a step of a walk leads to. -/
theorem EvaluationStep.next_spares {step : EvaluationStep} (h : s.Reserves E)
    (hlends : s.Lends E step.targets) {goal : EvaluationGoal} (hgoal : s.Lends E goal.promises) :
    s.Spares E (step.next s goal).1 ∧
      (step.next s goal).1.Lends E (step.next s goal).2.holds := by
  cases step with
  | done =>
    cases goal with
    | promise root p =>
      refine ⟨?_, List.forall_mem_nil _⟩
      simp only [next, EvaluationGoal.finish, Store.finishEvaluation]
      split
      · exact .settle h hgoal _
      · exact .refl h
    | force m =>
      refine ⟨.of_duties h ?_ fun x ↦ ?_, List.forall_mem_nil _⟩
      · simp only [next, EvaluationGoal.finish, Store.finishForced]
        split <;> rfl
      · exact Store.capability?_of_outline (outline_finish s (.force m)) x
  | failed e left =>
    have hfail : s.Spares E (s.failModules left e) :=
      .of_duties h (s.duties_failModules left e) (s.capability?_failModules left e)
    cases goal with
    | promise root p =>
      exact ⟨hfail.trans (.settle hfail.reserves (hgoal.mono hfail.grows) _), List.forall_mem_nil _⟩
    | force m => exact ⟨hfail, List.forall_mem_nil _⟩
  | go w => exact ⟨.refl h, hgoal⟩
  | synthetic m w => exact ⟨.refl h, hgoal⟩
  | execute m capability w =>
    refine ⟨.refl h, fun p hp ↦ ?_⟩
    change p ∈ (capability.toList ++ capability.toList) ++ goal.promises at hp
    rcases List.mem_append.1 hp with hp | hp
    · exact (List.mem_append.1 hp).elim (hlends p) (hlends p)
    · exact hgoal p hp

theorem EvaluationStep.walk_spares {y : Store × EvaluationStep} (h : s.Reserves E)
    (hdeals : s.Deals E y.1) (hlends : y.1.Lends E y.2.targets) (htreads : s.Treads y.1)
    {goal : EvaluationGoal} (hgoal : s.Lends E goal.promises) :
    s.Spares E (y.2.next y.1 goal).1 ∧
      (y.2.next y.1 goal).1.Lends E (y.2.next y.1 goal).2.holds := by
  have hwalk : s.Spares E y.1 := .of_deals h hdeals htreads.capability?
  obtain ⟨hnext, hholds⟩ := next_spares hwalk.reserves hlends (hgoal.mono hwalk.grows)
  exact ⟨hwalk.trans hnext, hholds⟩

/-- A walk starts. -/
theorem EvaluationStep.start_spares (h : s.Reserves E) (m : ModuleId) {goal : EvaluationGoal}
    (hgoal : s.Lends E goal.promises) :
    s.Spares E ((EvaluationWalk.start s m).2.next (EvaluationWalk.start s m).1 goal).1 ∧
      ((EvaluationWalk.start s m).2.next (EvaluationWalk.start s m).1 goal).1.Lends E
        ((EvaluationWalk.start s m).2.next (EvaluationWalk.start s m).1 goal).2.holds := by
  have htargets : (EvaluationWalk.start s m).2.targets = [] := EvaluationWalk.targets_arrive
  have hdeals : s.Deals E (EvaluationWalk.start s m).1 :=
    .of_duties h.trusts (EvaluationWalk.duties_arrive s {} m .executing)
  exact walk_spares h hdeals (htargets ▸ List.forall_mem_nil _) (.arrive s {} m .executing) hgoal

end

/-! ## Tasks and frames -/

section

variable {E : Fund} {s : Store}

/-- What is nothing to linking and evaluating. -/
theorem Store.Spares.quiet {x : Store × Next} (h : s.Reserves E) (hdeals : s.Deals E x.1)
    (hlends : x.1.Lends E x.2.targets) (houtline : x.1.outline = s.outline)
    (htours : x.2.tours = []) : s.Spares E x.1 ∧ x.1.Lends E x.2.holds := by
  refine ⟨.of_deals h hdeals (Store.capability?_of_outline houtline), ?_⟩
  rwa [Next.holds_of_tours htours]

theorem Store.duties_force (s : Store) (m : ModuleId) : (s.force m).2.duties = s.duties := by
  unfold Store.force
  split
  · rfl
  · split
    · split <;> rfl
    · rfl
    · rfl
    · rfl
    · rfl
    · rfl
    all_goals split <;> rfl

theorem Store.forceModule_spares (h : s.Reserves E) (m : ModuleId) :
    s.Spares E (s.forceModule m).1 ∧ (s.forceModule m).1.Lends E (s.forceModule m).2.holds := by
  rcases hm : s.source? m with _ | q
  · simp only [Store.forceModule, Store.force, hm]
    exact ⟨.refl h, List.forall_mem_nil _⟩
  rcases Store.force_cases hm with ⟨c, s', heq, ha⟩ | ⟨heq, -⟩
  · have hduties : s'.duties = s.duties := by
      have hforce := s.duties_force m
      rwa [heq] at hforce
    simp only [Store.forceModule, heq]
    exact ⟨.of_duties h hduties (Store.capability?_of_outline ha.outline), List.forall_mem_nil _⟩
  · simp only [Store.forceModule, heq]
    exact EvaluationStep.start_spares h m (List.forall_mem_nil _)

theorem Store.evaluate_spares (h : s.Reserves E) (m : ModuleId) :
    s.Spares E (s.evaluate m).1 ∧ (s.evaluate m).1.Lends E (s.evaluate m).2.holds := by
  unfold Store.evaluate
  split
  · exact ⟨.refl h, List.forall_mem_nil _⟩
  · dsimp only
    split
    · exact ⟨.refl h, List.forall_mem_nil _⟩
    · obtain ⟨hnew, hlends⟩ := Store.Spares.newCapability h (s.evaluationRoot m)
      have hgoal : (s.newCapability (s.evaluationRoot m)).2.Lends E
          (EvaluationGoal.promise (s.evaluationRoot m)
            (s.newCapability (s.evaluationRoot m)).1).promises := hlends
      obtain ⟨hstart, hholds⟩ :=
        EvaluationStep.start_spares hnew.reserves (s.evaluationRoot m) hgoal
      exact ⟨hnew.trans hstart, hholds⟩

/-- Linking settles nothing. -/
theorem Store.Spares.linked {x : Store × Next} (h : s.Reserves E) (hduties : x.1.duties = s.duties)
    (htargets : x.2.targets = []) (hc : ∀ y, x.1.capability? y = s.capability? y)
    (htours : x.2.tours = []) : s.Spares E x.1 ∧ x.1.Lends E x.2.holds := by
  refine ⟨.of_duties h hduties hc, ?_⟩
  rw [Next.holds_of_tours htours, htargets]
  exact List.forall_mem_nil _

theorem Task.advance_spares (h : s.Reserves E) {t : Task} (hlends : s.Lends E (Next.goto t).holds)
    (hK : ∀ l, t.operation? = some l → E.loadings l) :
    s.Spares E (t.advance s).1 ∧ (t.advance s).1.Lends E (t.advance s).2.holds := by
  obtain ⟨htargets, hgoals⟩ : s.Lends E t.targets ∧ s.Lends E t.goals :=
    List.forall_mem_append.1 hlends
  cases ht : t.isWalk with
  | false =>
    obtain ⟨ha, hq, -⟩ := Task.advance_quiet s ht
    obtain ⟨hdeals, hlends'⟩ := Task.advance_deals h.trusts ht htargets hK
    exact Store.Spares.quiet h hdeals hlends' ha.outline hq.toStill.tours
  | true =>
    cases t with
    | force m => exact s.forceModule_spares h m
    | evaluate m => exact s.evaluate_spares h m
    | evaluation goal w =>
      obtain ⟨hdeals, hlends'⟩ := EvaluationWalk.advance_deals h.trusts w
      exact EvaluationStep.walk_spares h hdeals hlends' (.advance s w) hgoals
    | free ms =>
      rcases ms with _ | ⟨m, rest⟩
      · exact ⟨.refl h, List.forall_mem_nil _⟩
      · obtain ⟨hfree, hexecute⟩ := Store.Spares.continueFree h m
        simp only [Task.advance]
        split
        · next heq =>
          rw [heq] at hfree
          exact ⟨hfree, List.forall_mem_nil _⟩
        · next capability s' heq =>
          rw [heq] at hfree hexecute
          have hlent := hexecute capability rfl
          refine ⟨hfree, fun p hp ↦ ?_⟩
          change p ∈ (capability.toList ++ capability.toList) ++ [] at hp
          rw [List.append_nil] at hp
          exact (List.mem_append.1 hp).elim (hlent p) (hlent p)
    | job j =>
      by_cases hj : ∀ m, j.reaction ≠ .completeModule m
      · obtain ⟨ha, hq⟩ := Job.run_quiet s hj
        obtain ⟨hdeals, hlends'⟩ := Job.run_deals h.trusts hj htargets
        exact Store.Spares.quiet h hdeals hlends' ha.outline hq.toStill.tours
      · simp only [ne_eq, not_forall, not_not] at hj
        obtain ⟨reaction, c⟩ := j
        obtain ⟨m, rfl⟩ := hj
        rcases c with e | ⟨⟩
        · exact ⟨.rejectFrom h _ m e, List.forall_mem_nil _⟩
        · exact ⟨.fulfillModule h m, List.forall_mem_nil _⟩
    | link m =>
      obtain ⟨hduties, htargets'⟩ := Task.link_duties s m
      refine Store.Spares.linked h hduties htargets' (Task.capability?_link s m) ?_
      simp only [Task.advance]
      split <;> rfl
    | linking w =>
      obtain ⟨hduties, htargets'⟩ := LinkStep.next_duties (w.advance s).1 (w.advance s).2
      refine Store.Spares.linked h (hduties.trans (w.advance_duties s)) htargets' (fun x ↦ ?_)
        (LinkStep.next_still _ _).1.tours
      exact (LinkStep.capability?_next _ _ x).trans (w.capability?_advance s x)
    | _ => contradiction

theorem Frame.resume_spares (h : s.Reserves E) (r : Result) {f : Frame}
    (hlends : s.Lends E f.holds) :
    s.Spares E (f.resume s r).1 ∧ (f.resume s r).1.Lends E (f.resume s r).2.holds := by
  obtain ⟨htargets, hgoals⟩ : s.Lends E f.targets ∧ s.Lends E f.goals :=
    List.forall_mem_append.1 hlends
  cases hf : f.isWalk with
  | false =>
    obtain ⟨ha, hq, -⟩ := Frame.resume_quiet s r hf
    obtain ⟨hdeals, hlends'⟩ := Frame.resume_deals h.trusts r hf htargets
    exact Store.Spares.quiet h hdeals hlends' ha.outline hq.toStill.tours
  | true =>
    cases f with
    | executed goal m capability w =>
      obtain ⟨hdeals, hnone⟩ := EvaluationWalk.executed_deals h.trusts w m htargets r.toCompletion
      exact EvaluationStep.walk_spares h hdeals (hnone ▸ List.forall_mem_nil _)
        (.executed s w m capability _) hgoals
    | passed goal w =>
      obtain ⟨hdeals, hnone⟩ := EvaluationWalk.passed_deals h.trusts w r.toCompletion
      exact EvaluationStep.walk_spares h hdeals (hnone ▸ List.forall_mem_nil _) (.passed s w _) hgoals
    | freed m capability rest => exact ⟨.finishFree h m htargets _, List.forall_mem_nil _⟩
    | setUp m w =>
      obtain ⟨hduties, hnone⟩ := Frame.setUp_duties s r m w
      refine Store.Spares.linked h hduties hnone (Frame.capability?_setUp s r m w) ?_
      simp only [Frame.resume]
      split
      · rfl
      · exact (LinkStep.next_still _ _).1.tours
    | _ => contradiction

end

/-! ## The machine -/

/-- The promises that a machine may settle, apart from those it finds in the store. -/
def Machine.holds (M : Machine) : List PromiseId := M.current.holds ++ M.frames.flatMap Frame.holds

/-- The loading operation that the next step is one of. -/
def Machine.operation? (M : Machine) : Option LoadingId :=
  match M.control with
  | .run t => t.operation?
  | .give _ => none

/-- Only promises in the fund may be settled. -/
structure Machine.Reserves (M : Machine) (E : Fund) : Prop where
  store : M.store.Reserves E
  lends : M.store.Lends E M.holds

namespace Machine

variable {E : Fund} {M : Machine}

theorem holds_apply (fs : List Frame) (x : Store × Next) :
    ∀ p ∈ (apply fs x).holds, p ∈ x.2.holds ∨ p ∈ fs.flatMap Frame.holds := by
  obtain ⟨s, n⟩ := x
  cases n with
  | call t f =>
    simp only [apply, holds, current, Next.holds, Next.targets, Next.goals, Frame.holds,
      List.flatMap_cons, List.mem_append]
    tauto
  | _ => exact fun p hp ↦ List.mem_append.1 hp

theorem Reserves.apply {fs : List Frame} {x : Store × Next} (h : x.1.Reserves E)
    (hlends : x.1.Lends E x.2.holds) (hbelow : x.1.Lends E (fs.flatMap Frame.holds)) :
    (apply fs x).Reserves E := by
  refine ⟨?_, fun p hp ↦ ?_⟩
  · rwa [store_apply]
  · rw [store_apply]
    exact (holds_apply fs x p hp).elim (hlends p) (hbelow p)

/-- A step that is not one of an operation outside of the fund leaves alone the promises that are
not in it. -/
theorem Reserves.step (h : M.Reserves E) (hK : ∀ l, M.operation? = some l → E.loadings l) :
    M.step.Reserves E ∧ M.store.Spares E M.step.store := by
  rcases hnext : M.next? with _ | x
  · rw [step_of_next?_eq_none hnext]
    exact ⟨h, .refl h.store⟩
  rw [step_of_next? hnext, store_apply]
  obtain ⟨s, control, fs⟩ := M
  rcases control with t | r
  · obtain rfl : x = t.advance s := advance_of_next? hnext
    obtain ⟨hlends, hbelow⟩ : s.Lends E (Next.goto t).holds ∧ s.Lends E (fs.flatMap Frame.holds) :=
      List.forall_mem_append.1 h.lends
    obtain ⟨hspares, hholds⟩ := Task.advance_spares h.store hlends hK
    exact ⟨.apply hspares.reserves hholds (hbelow.mono hspares.grows), hspares⟩
  · rcases fs with _ | ⟨f, fs⟩
    · contradiction
    obtain rfl : x = f.resume s r := (Option.some.inj hnext).symm
    obtain ⟨hlends, hbelow⟩ : s.Lends E f.holds ∧ s.Lends E (fs.flatMap Frame.holds) :=
      List.forall_mem_append.1 (List.forall_mem_append.1 h.lends).2
    obtain ⟨hspares, hholds⟩ := Frame.resume_spares h.store r hlends
    exact ⟨.apply hspares.reserves hholds (hbelow.mono hspares.grows), hspares⟩

end Machine

theorem Task.advance_works (s : Store) {t : Task} {l : LoadingId} (h : t.operation? = some l) :
    s.Works l (t.advance s).1 ∧ (t.advance s).2.holds = [] := by
  cases t with
  | loading w =>
    obtain rfl := Option.some.inj h
    have hworks := w.advance_works s
    simp only [Task.advance, (LoadStep.next_quiet _ _).1]
    refine ⟨hworks, ?_⟩
    cases (w.advance s).2 <;> rfl
  | answers as =>
    rcases as with _ | ⟨a, rest⟩
    · contradiction
    · obtain rfl := Option.some.inj h
      have hworks := s.takeAnswer_works a
      simp only [Task.advance]
      split <;> next heq => rw [heq] at hworks; exact ⟨hworks, rfl⟩
  | _ => contradiction

/-- A step of a loading operation. -/
theorem Machine.works_of_operation? {M : Machine} {l : LoadingId} (h : M.operation? = some l) :
    M.store.Works l M.step.store ∧ ∀ E : Fund, M.Reserves E → M.step.Reserves E := by
  obtain ⟨s, control, fs⟩ := M
  rcases control with t | r
  · have hwalk : t.isWalk = false := by
      cases t <;> first | rfl | contradiction
    have hstep : Machine.step ⟨s, .run t, fs⟩ = Machine.apply fs (t.advance s) := by
      cases t <;> rfl
    obtain ⟨hworks, hholds⟩ := Task.advance_works s h
    rw [hstep, store_apply]
    refine ⟨hworks, fun E hE ↦ ?_⟩
    have hupholds := hworks.upholds hE.store.trusts
    have hbelow : s.Lends E (fs.flatMap Frame.holds) := (List.forall_mem_append.1 hE.lends).2
    refine .apply ⟨hupholds.trusts, fun x p hp ↦ ?_⟩ (hholds ▸ List.forall_mem_nil _)
      (hbelow.mono hupholds.grows)
    rw [Store.capability?_of_outline (Task.advance_quiet s hwalk).1.outline] at hp
    obtain ⟨hp, hsome⟩ := hE.store.capabilities x p hp
    exact ⟨hp, hupholds.grows p hsome⟩
  · contradiction

end EcmaModules
