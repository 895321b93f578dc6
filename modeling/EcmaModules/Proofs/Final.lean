import EcmaModules.Proofs.Simulation

/-!
# What spares outcomes

A module that has been evaluated has its outcome: the error that it ended with, or that there is
none. What evaluation does to the store spares the outcomes that there are, but for a walk that fails:
that marks whatever is left on its stack.
-/

namespace EcmaModules

theorem Store.source?_of_status? {s : Store} {m : ModuleId} {status : Status}
    (h : s.status? m = some status) : ∃ r, s.source? m = some r ∧ r.status = status :=
  Option.map_eq_some_iff.1 h

/-! ## Stores -/

/-- Modules that have been evaluated stay so, with the same error or without one. -/
def Final (s s' : Store) : Prop :=
  ∀ m r, s.source? m = some r → r.status = .evaluated →
    ∃ r', s'.source? m = some r' ∧ r'.status = .evaluated ∧ r'.evaluationError = r.evaluationError

namespace Final

variable {s s' s'' : Store}

theorem refl (s : Store) : Final s s := fun _ r hr hs ↦ ⟨r, hr, hs, rfl⟩

theorem trans (h : Final s s') (h' : Final s' s'') : Final s s'' := by
  intro m r hr hs
  obtain ⟨r', hr', hs', he'⟩ := h m r hr hs
  obtain ⟨r'', hr'', hs'', he''⟩ := h' m r' hr' hs'
  exact ⟨r'', hr'', hs'', he''.trans he'⟩

theorem of_outline (h : s'.outline = s.outline) : Final s s' := by
  intro m r hr hs
  have ho : s'.outline m = some r.outline := by rw [h, Store.outline_eq_some hr]
  obtain ⟨r', hr', heq⟩ := Store.source?_of_outline ho
  refine ⟨r', hr', ?_, ?_⟩
  · have : r'.outline.status = .evaluated := by rw [heq]; simp [hs]
    simpa using this
  · rw [← r'.outline_evaluationError, heq, r.outline_evaluationError]

theorem of_modules (h : s'.modules = s.modules) : Final s s' := of_outline (Store.outline_congr h)

/-- A change of one module that spares the outcome. -/
theorem modifySource (s : Store) (m : ModuleId) {f : SourceText → SourceText}
    (hf : ∀ r, s.source? m = some r → r.status = .evaluated →
      (f r).status = .evaluated ∧ (f r).evaluationError = r.evaluationError) :
    Final s (s.modifySource m f) := by
  intro x r hr hs
  rw [Store.source?_modifySource]
  split
  · next hx =>
    subst hx
    exact ⟨f r, by rw [hr]; rfl, hf r hr hs⟩
  · exact ⟨r, hr, hs, rfl⟩

/-- A change of one module that is not about its outcome. -/
theorem modifySource_of_fields (s : Store) (m : ModuleId) {f : SourceText → SourceText}
    (hf : ∀ r, (f r).status = r.status ∧ (f r).evaluationError = r.evaluationError) :
    Final s (s.modifySource m f) :=
  modifySource s m fun r _ hs ↦ ⟨(hf r).1.trans hs, (hf r).2⟩

theorem foldl {α : Type} {f : Store → α → Store} (hf : ∀ s a, Final s (f s a)) (l : List α)
    (s : Store) : Final s (l.foldl f s) := by
  induction l generalizing s with
  | nil => exact refl s
  | cons a l ih => exact (hf s a).trans (ih _)

theorem of_fails {e : ErrorId} (h : Fails e s s') : Final s s' := by
  intro m r hr hs
  exact ⟨r, h.of_evaluated hr hs, hs, rfl⟩

/-- Of the modules that are left on a stack, none had been evaluated before. -/
theorem failModules (h : Final s s') {stack : List ModuleId}
    (hstack : ∀ m ∈ stack, s.status? m ≠ some .evaluated) (e : ErrorId) :
    Final s (s'.failModules stack e) := by
  intro m r hr hs
  obtain ⟨r', hr', hs', he'⟩ := h m r hr hs
  have hm : m ∉ stack := fun hm ↦ hstack m hm (by simp [Store.status?, hr, hs])
  refine ⟨r', ?_, hs', he'⟩
  clear h hstack
  unfold Store.failModules
  induction stack generalizing s' with
  | nil => exact hr'
  | cons x stack ih =>
    rw [List.mem_cons, not_or] at hm
    refine ih ?_ hm.2
    rw [Store.source?_modifySource, if_neg hm.1, hr']

/-! ### What a walk does -/

theorem await (s : Store) (m d : ModuleId) : Final s (EvaluationWalk.await s m d) := by
  rcases EvaluationWalk.await_cases s m d with h | ⟨_, _, _, _, _, _, h⟩
  · rw [h]
    exact refl s
  · rw [h]
    refine (modifySource_of_fields s m ?_).trans (modifySource_of_fields _ d ?_)
    all_goals exact fun _ ↦ ⟨rfl, rfl⟩

theorem detach (s : Store) (w : EvaluationWalk) (m : ModuleId) :
    Final s (EvaluationWalk.detach s w m) := by
  unfold EvaluationWalk.detach
  split
  · exact modifySource_of_fields s m fun _ ↦ ⟨rfl, rfl⟩
  · exact refl s

theorem leave (s : Store) (m d : ModuleId) : Final s (EvaluationWalk.leave s m d).2 := by
  unfold EvaluationWalk.leave
  split
  · next r q _ _ =>
    split
    · refine .trans ?_ (await _ m d)
      exact modifySource_of_fields s m fun _ ↦ ⟨rfl, rfl⟩
    · split
      · exact await s m d
      · dsimp only
        split
        · exact refl s
        · exact await s m _
  · exact refl s

theorem back (s : Store) (w : EvaluationWalk) (d : ModuleId) :
    Final s (EvaluationWalk.back s w d).1 := by
  unfold EvaluationWalk.back
  split
  · exact refl s
  · next f _ _ =>
    have h := leave s f.module d
    split <;> next heq => rw [heq] at h; exact h

theorem push {w : EvaluationWalk} {m : ModuleId} {t t' : Traversal} {r : SourceText}
    (hm : s.source? m = some r) (ha : r.arrival t = .enter t') :
    Final s (EvaluationWalk.push s w m t').1 := by
  refine modifySource s m fun q hq hs ↦ ?_
  obtain rfl : r = q := by simpa [hm] using hq
  exact absurd hs (SourceText.arrival_not_evaluated ha)

/-- A module that has been evaluated is completed with its component, but stays as it is. -/
theorem completeMember (s : Store) (root m : ModuleId) :
    Final s (EvaluationWalk.completeMember s root m) :=
  modifySource s m fun r _ hs ↦ ⟨by simp [EvaluationWalk.completeStatus, hs], rfl⟩

theorem popExecuted (s : Store) (root : ModuleId) (stack : List ModuleId) :
    Final s (EvaluationWalk.popExecuted s root stack).1 := by
  induction stack generalizing s with
  | nil => exact refl s
  | cons m stack ih =>
    rw [EvaluationWalk.popExecuted]
    split
    · exact completeMember s root m
    · exact (completeMember s root m).trans (ih _)

theorem popSearched (s : Store) (root : ModuleId) (stack : List ModuleId) :
    Final s (EvaluationWalk.popSearched s root stack).1 := by
  induction stack generalizing s with
  | nil => exact refl s
  | cons m stack ih =>
    rw [EvaluationWalk.popSearched]
    split
    · exact completeMember s root m
    · exact (completeMember s root m).trans (ih _)

theorem concludeExecuted (s : Store) (w : EvaluationWalk) (m : ModuleId) :
    Final s (EvaluationWalk.concludeExecuted s w m).1 := by
  unfold EvaluationWalk.concludeExecuted
  split
  · have h := popExecuted s m w.stack
    split
    next heq =>
      rw [heq] at h
      exact h.trans (back _ _ m)
  · exact back s w m

theorem concludeSearched (s : Store) (w : EvaluationWalk) (m : ModuleId) :
    Final s (EvaluationWalk.concludeSearched s w m).1 := by
  rw [EvaluationWalk.concludeSearched_eq]
  have hold : Final s (s.holdSearched m) := modifySource_of_fields s m fun r ↦ by
    split <;> exact ⟨rfl, rfl⟩
  refine hold.trans ?_
  split
  · exact (popSearched _ m w.stack).trans (back _ _ m)
  · exact back _ w m

theorem startAsync (s : Store) (m : ModuleId) : Final s (s.startAsync m).2 := by
  refine (modifySource_of_fields s m (f := fun r ↦ { r with asyncState := .pending }) ?_).trans
    (of_modules (Store.modules_react _ _ _))
  exact fun _ ↦ ⟨rfl, rfl⟩

theorem execute (s : Store) (w : EvaluationWalk) (m : ModuleId) :
    Final s (EvaluationWalk.execute s w m).1 := by
  unfold EvaluationWalk.execute
  split
  · exact refl s
  · split
    · refine .trans ?_ (concludeExecuted _ w m)
      exact modifySource_of_fields s m fun _ ↦ ⟨rfl, rfl⟩
    · split
      · exact startAsync s m
      · exact refl s

theorem executed (s : Store) (w : EvaluationWalk) (m : ModuleId) (capability : Option PromiseId)
    (c : Completion) : Final s (w.executed s m capability c).1 := by
  unfold EvaluationWalk.executed
  split
  · exact concludeExecuted s w m
  · exact (of_modules (Store.modules_settle _ _ _)).trans (concludeExecuted _ w m)
  · exact refl s

theorem arrive (s : Store) (w : EvaluationWalk) (m : ModuleId) (t : Traversal) :
    Final s (EvaluationWalk.arrive s w m t).1 := by
  unfold EvaluationWalk.arrive
  split
  · exact refl s
  · next r hm =>
    split
    · exact refl s
    · refine .trans ?_ (back _ w m)
      split
      · exact detach s w m
      · exact refl s
    · next ha => exact push hm ha

theorem advance (s : Store) (w : EvaluationWalk) : Final s (w.advance s).1 := by
  unfold EvaluationWalk.advance
  split
  · exact refl s
  · exact execute s _ _
  · exact concludeSearched s _ _
  · dsimp only
    split
    · exact arrive s _ _ _
    · exact refl s

/-- What a step of a walk leads to, with the modules that a failed walk has left. -/
theorem next (h : Final s s') (goal : EvaluationGoal) {step : EvaluationStep}
    (hstep : ∀ e stack, step = .failed e stack → ∀ m ∈ stack, s.status? m ≠ some .evaluated) :
    Final s (step.next s' goal).1 := by
  cases step with
  | done => exact h.trans (of_outline (outline_finish s' goal))
  | failed e stack =>
    exact (h.failModules (hstep e stack rfl) e).trans (of_outline (outline_fail s' stack e goal))
  | go w => exact h
  | synthetic m w => exact h
  | execute m capability w => exact h

/-! ### What modules that are set free do -/

theorem settleAsync (s : Store) (m : ModuleId) : Final s (s.settleAsync m) :=
  modifySource_of_fields s m fun _ ↦ ⟨rfl, rfl⟩

theorem setEvaluated (s : Store) (m : ModuleId) : Final s (s.setStatus m .evaluated) :=
  modifySource s m fun _ _ _ ↦ ⟨rfl, rfl⟩

theorem finishModule (s : Store) (m : ModuleId) : Final s (s.finishModule m) :=
  ((settleAsync s m).trans (setEvaluated _ m)).trans
    (of_modules (Store.modules_resolveCapability _ m))

theorem gatherFrom (depth : Nat) (s : Store) (m : ModuleId) (F : List ModuleId) :
    Final s (s.gatherFrom depth m F).1 :=
  Store.gatherFrom_of_lessen refl (fun _ _ _ ↦ trans)
    (fun s p ↦ modifySource_of_fields s p fun _ ↦ ⟨rfl, rfl⟩) depth s m F

theorem fulfillModule (s : Store) (m : ModuleId) : Final s (s.fulfillModule m).1 := by
  unfold Store.fulfillModule
  split
  · exact refl s
  · exact (finishModule s m).trans (gatherFrom _ _ m [])

theorem finishSearched {m : ModuleId} {r : SourceText} (hm : s.source? m = some r)
    (hs : r.status = .asyncSubgraphsSearchingAsync) : Final s (s.finishSearched m) := by
  have hstatus : Final s (s.setStatus m .asyncSubgraphsEvaluated) := by
    refine modifySource s m fun q hq he ↦ ?_
    obtain rfl : r = q := by simpa [hm] using hq
    exact absurd (hs.symm.trans he) nofun
  exact (hstatus.trans (settleAsync _ m)).trans (of_modules (Store.modules_resolveCapability _ m))

theorem continueFree (s : Store) (m : ModuleId) : Final s (s.continueFree m).2 := by
  unfold Store.continueFree
  split
  · exact refl s
  · next r hm =>
    split
    · exact refl s
    · split
      · exact startAsync s m
      · split
        · next hs => exact finishSearched hm hs
        · exact refl s

theorem rejectModule (s : Store) (m : ModuleId) (e : ErrorId) : Final s (s.rejectModule m e) :=
  of_fails (Store.fails_rejectModule s m e)

theorem finishFree (s : Store) (m : ModuleId) (capability : Option PromiseId) (c : Completion) :
    Final s (s.finishFree m capability c) := by
  unfold Store.finishFree
  split
  · exact ((setEvaluated s m).trans (settleAsync _ m)).trans
      (of_modules (Store.modules_resolveCapability _ m))
  · exact rejectModule s m _
  · exact refl s
  · exact of_modules (Store.modules_settle _ _ _)

theorem newCapability (s : Store) (m : ModuleId) : Final s (s.newCapability m).2 := by
  have hpromise : Final s s.newPromise.2 := of_modules rfl
  exact hpromise.trans (modifySource_of_fields _ m fun _ ↦ ⟨rfl, rfl⟩)

end Final

/-! ## Tasks that have to do with walks -/

/-- The start of an evaluation fails no module. -/
theorem Final.start {s s' : Store} (h : Final s s') (m : ModuleId) (goal : EvaluationGoal) :
    Final s ((EvaluationWalk.start s' m).2.next (EvaluationWalk.start s' m).1 goal).1 := by
  refine (h.trans (arrive s' {} m .executing)).next goal fun e stack hstep x hx ↦ ?_
  rw [(EvaluationWalk.stack_of_start hstep).1] at hx
  exact absurd hx List.not_mem_nil

theorem Final.forceModule (s : Store) (m : ModuleId) : Final s (s.forceModule m).1 := by
  rcases hm : s.source? m with _ | q
  · simp only [Store.forceModule, Store.force, hm]
    exact refl s
  rcases Store.force_cases hm with ⟨c, s', heq, ha⟩ | ⟨heq, -⟩
  · simp only [Store.forceModule, heq]
    exact of_outline ha.outline
  · simp only [Store.forceModule, heq]
    exact (refl s).start m _

theorem Final.evaluate (s : Store) (m : ModuleId) : Final s (s.evaluate m).1 := by
  unfold Store.evaluate
  split
  · exact refl s
  · dsimp only
    split
    · exact refl s
    · exact (newCapability s _).start _ _

theorem Final.run (s : Store) (j : Job) : Final s (j.run s).1 := by
  by_cases hj : ∀ m, j.reaction ≠ .completeModule m
  · exact of_outline (Job.run_quiet s hj).1.outline
  simp only [ne_eq, not_forall, not_not] at hj
  obtain ⟨reaction, c⟩ := j
  obtain ⟨m, rfl⟩ := hj
  rcases c with e | ⟨⟩
  · exact rejectModule s m e
  · exact fulfillModule s m

theorem Final.task (s : Store) {t : Task} (ht : t.isWalk = true) (hlinking : ∀ w, t ≠ .linking w)
    (hlink : ∀ m, t ≠ .link m)
    (hlost : ∀ goal w, t = .evaluation goal w → ∀ e stack, (w.advance s).2 = .failed e stack →
      ∀ m ∈ stack, s.status? m ≠ some .evaluated) : Final s (t.advance s).1 := by
  cases t with
  | force m => exact forceModule s m
  | evaluate m => exact evaluate s m
  | evaluation goal w => exact (advance s w).next goal (hlost goal w rfl)
  | free ms =>
    rcases ms with _ | ⟨m, rest⟩
    · exact refl s
    · have h := continueFree s m
      simp only [Task.advance]
      split <;> next heq => rw [heq] at h; exact h
  | job j => exact run s j
  | link m => exact absurd rfl (hlink m)
  | linking w => exact absurd rfl (hlinking w)
  | _ => contradiction

end EcmaModules
