import EcmaModules.Proofs.Play
import EcmaModules.Proofs.Treading

/-!
# Modules come further

The statuses of modules are ordered: from new over linked to the three of searching, and then those
of evaluating. Whatever changes the status of a module takes it further up, with one exception: when
linking fails, the modules that were being linked are unlinked again.

That rests on an assertion. A walk that enters a module asserts that the module has been linked, for
else linking, going on after the walk, would take the module back. In a run for the relation
`Machine.Asserts` no step is taken in which the assertion fails: such a run ends there. Only a body
that links further modules while its own is being linked, and reads from them at once, leads to that.
-/

namespace EcmaModules

/-! ## What may become of a module -/

/-- What a step does to a module, unless linking fails. -/
structure SourceText.Ascends (r r' : SourceText) : Prop where
  script : r'.script = r.script
  rises : r.status ≤ r'.status
  error : r'.evaluationError = r.evaluationError ∨ r'.status = .evaluated

/-- What loading, reading and bodies do to a module. -/
structure SourceText.Loads (r r' : SourceText) : Prop where
  script : r'.script = r.script
  error : r'.evaluationError = r.evaluationError
  status : r'.status = r.status ∨ r.status = .new ∧ r'.status = .unlinked
  points : r'.points = r.points

/-- What loading alone does to a module. -/
structure SourceText.Fetches (r r' : SourceText) : Prop extends r.Loads r' where
  environment : r'.environment = r.environment

/-- What a failure of linking does to a module. -/
structure SourceText.Relapses (r r' : SourceText) : Prop where
  script : r'.script = r.script
  error : r'.evaluationError = r.evaluationError
  status : r'.status = r.status ∨ r.status = .linking ∧ r'.status = .unlinked

namespace SourceText

variable {r r' r'' : SourceText}

theorem Ascends.refl (r : SourceText) : r.Ascends r := ⟨rfl, le_rfl, .inl rfl⟩

theorem Ascends.trans (h : r.Ascends r') (h' : r'.Ascends r'') : r.Ascends r'' := by
  refine ⟨h'.script.trans h.script, h.rises.trans h'.rises, ?_⟩
  rcases h'.error with he | hs
  · refine h.error.imp he.trans fun hs ↦ ?_
    exact le_antisymm r''.status.le_evaluated (hs ▸ h'.rises)
  · exact .inr hs

theorem Ascends.of_treads (h : r.Treads r') : r.Ascends r' :=
  ⟨h.script, h.rises, .inl h.evaluationError⟩

/-- A change of what does not matter here. -/
theorem Ascends.of_status (h : r'.script = r.script ∧ r'.evaluationError = r.evaluationError ∧
    r'.status = r.status) : r.Ascends r' := ⟨h.1, h.2.2.ge, .inl h.2.1⟩

/-- The module is over. -/
theorem Ascends.over (h : r'.script = r.script) (hs : r'.status = .evaluated) : r.Ascends r' :=
  ⟨h, hs ▸ r.status.le_evaluated, .inr hs⟩

theorem Loads.refl (r : SourceText) : r.Loads r := ⟨rfl, rfl, .inl rfl, rfl⟩

theorem Loads.trans (h : r.Loads r') (h' : r'.Loads r'') : r.Loads r'' := by
  refine ⟨h'.script.trans h.script, h'.error.trans h.error, ?_, h'.points.trans h.points⟩
  rcases h.status with hs | ⟨hs, hs'⟩
  · rcases h'.status with hs' | ⟨hs', hs''⟩
    · exact .inl (hs'.trans hs)
    · exact .inr ⟨hs.symm.trans hs', hs''⟩
  · rcases h'.status with hs'' | ⟨hs'', -⟩
    · exact .inr ⟨hs, hs''.trans hs'⟩
    · exact nomatch hs'.symm.trans hs''

theorem Fetches.refl (r : SourceText) : r.Fetches r := ⟨.refl r, rfl⟩

theorem Fetches.trans (h : r.Fetches r') (h' : r'.Fetches r'') : r.Fetches r'' :=
  ⟨h.toLoads.trans h'.toLoads, h'.environment.trans h.environment⟩

theorem Loads.ascends (h : r.Loads r') : r.Ascends r' := by
  refine ⟨h.script, ?_, .inl h.error⟩
  rcases h.status with hs | ⟨hs, hs'⟩
  · exact hs.ge
  · rw [hs, hs', Status.le_iff]
    decide

theorem Loads.linking (h : r.Loads r') (hs : r.status = .linking) : r'.status = .linking :=
  (h.status.resolve_right fun hn ↦ nomatch hs.symm.trans hn.1).trans hs

end SourceText

namespace Store

/-- Every module is as a step may leave it, unless linking fails. -/
abbrev Ascends : Store → Store → Prop := Each SourceText.Ascends

/-- Every module is as loading, reading and bodies may leave it. -/
abbrev Loads : Store → Store → Prop := Each SourceText.Loads

/-- Every module is as loading may leave it. -/
abbrev Fetches : Store → Store → Prop := Each SourceText.Fetches

/-- What is being linked stays so. -/
abbrev KeepsAllLinking : Store → Store → Prop :=
  Each fun r r' ↦ r.status = .linking → r'.status = .linking

variable {s s' s'' : Store} {x : ModuleId}

theorem Ascends.refl (s : Store) : s.Ascends s := Each.refl .refl s

theorem Ascends.trans (h : s.Ascends s') (h' : s'.Ascends s'') : s.Ascends s'' :=
  Each.trans (fun _ _ _ ↦ .trans) h h'

theorem Ascends.of_modules (h : s'.modules = s.modules) : s.Ascends s' :=
  Each.of_modules .refl h

theorem Ascends.modifySource (s : Store) (m : ModuleId) {f : SourceText → SourceText}
    (hf : ∀ r : SourceText, (f r).script = r.script ∧ (f r).evaluationError = r.evaluationError ∧
      (f r).status = r.status) : s.Ascends (s.modifySource m f) :=
  Each.modifySource .refl s m fun r _ ↦ .of_status (hf r)

theorem Ascends.of_treads (h : s.Treads s') : s.Ascends s' := Each.mono h fun _ _ ↦ .of_treads

theorem Loads.ascends (h : s.Loads s') : s.Ascends s' := Each.mono h fun _ _ ↦ SourceText.Loads.ascends

theorem Loads.linking (h : s.Loads s') : s.KeepsAllLinking s' := Each.mono h fun _ _ ↦ SourceText.Loads.linking

theorem Loads.refl (s : Store) : s.Loads s := Each.refl .refl s

theorem Loads.trans (h : s.Loads s') (h' : s'.Loads s'') : s.Loads s'' :=
  Each.trans (fun _ _ _ ↦ .trans) h h'

theorem Loads.of_modules (h : s'.modules = s.modules) : s.Loads s' := Each.of_modules .refl h

theorem Fetches.loads (h : s.Fetches s') : s.Loads s' := Each.mono h fun _ _ ↦ SourceText.Fetches.toLoads

theorem Fetches.environment (h : s.Fetches s') (x : ModuleId) : s'.environment? x = s.environment? x := by
  have hx := h x
  unfold environment?
  revert hx
  cases s.source? x <;> cases s'.source? x <;> rintro ⟨⟩
  · rfl
  · next hrel => exact hrel.environment

theorem Fetches.of_source? (h : ∀ x, s'.source? x = s.source? x) : s.Fetches s' := fun x ↦ by
  rw [h]
  exact Each.refl .refl s x

theorem Loads.of_source? (h : ∀ x, s'.source? x = s.source? x) : s.Loads s' :=
  (Fetches.of_source? h).loads

/-- Whatever sets up environments leaves texts, statuses and errors alone. -/
theorem Loads.of_furnishing (h : Furnishing s s') : s.Loads s' := fun x ↦ by
  have hout := Each.of_outline h.outline x
  have hscript := h.level.script x
  have hstatus := h.level.status x
  have hpoints := h.level.points x
  unfold script? at hscript
  unfold status? at hstatus
  unfold points? at hpoints
  revert hout hscript hstatus hpoints
  cases s.source? x <;> cases s'.source? x <;> rintro ⟨⟩ hscript hstatus hpoints
  · exact .none
  · next hrel =>
    exact .some ⟨Option.some.inj hscript, (congrArg (·.evaluationError) hrel :),
      .inl (Option.some.inj hstatus), Option.some.inj hpoints⟩

/-- Bodies and reading do so, too. -/
theorem Loads.of_apart (h : Apart s s') : s.Loads s' :=
  .of_furnishing h.furnishing

theorem KeepsAllLinking.keeps (h : s.KeepsAllLinking s') (L : List LinkTour) :
    s.KeepsLinking s' L := fun _ _ x _ hx ↦ by
  obtain ⟨r, hr, hs⟩ := source?_of_status? hx
  obtain ⟨r', hr', hrel⟩ := Each.after h hr
  rw [status?, hr', Option.map_some, hrel hs]

theorem Aloft.ascend (h : s.Aloft x) (hs : s.Ascends s') : s'.Aloft x := by
  obtain ⟨r, hr, hle⟩ := h
  obtain ⟨r', hr', hrel⟩ := Each.after hs hr
  exact ⟨r', hr', hle.trans hrel.rises⟩

/-- No module has an error that is not over. -/
def Upright (s : Store) : Prop :=
  ∀ x r, s.source? x = some r → r.status ≠ .evaluated → r.evaluationError = none

theorem Upright.ascend (h : s.Upright) (hs : s.Ascends s') : s'.Upright := by
  intro x r' hr' hne
  obtain ⟨r, hr, hrel⟩ := Each.before hs hr'
  rw [hrel.error.resolve_right hne]
  refine h x r hr fun hover ↦ hne ?_
  exact le_antisymm r'.status.le_evaluated (hover ▸ hrel.rises)

end Store

/-! ## Loading -/

namespace Store.Fetches

variable {s s' s'' : Store}

theorem refl (s : Store) : s.Fetches s := Each.refl .refl s

theorem trans (h : s.Fetches s') (h' : s'.Fetches s'') : s.Fetches s'' :=
  Each.trans (fun _ _ _ ↦ .trans) h h'

theorem of_modules (h : s'.modules = s.modules) : s.Fetches s' := Each.of_modules .refl h

theorem markLoaded (s : Store) (m : ModuleId) : s.Fetches (s.markLoaded m) := by
  refine Each.modifySource .refl s m fun r _ ↦ ?_
  split
  · next hs => exact ⟨⟨rfl, rfl, .inr ⟨hs, rfl⟩, rfl⟩, rfl⟩
  · exact .refl r

theorem finishDescent (s : Store) (l : LoadingId) : s.Fetches (s.finishDescent l) := by
  unfold Store.finishDescent
  split
  · exact refl s
  · dsimp only
    split
    · refine (trans (of_modules ?_) (Each.foldl .refl (fun _ _ _ ↦ .trans) markLoaded _ _)).trans
        (of_modules (modules_settle _ _ _))
      rfl
    · exact of_modules rfl

theorem failLoading (s : Store) (l : LoadingId) (e : ErrorId) : s.Fetches (s.failLoading l e) := by
  unfold Store.failLoading
  split
  · exact refl s
  · exact of_modules (modules_settle _ _ _)

theorem checkAnswer (s : Store) (a : LoadAnswer) : s.Fetches (s.checkAnswer a).2 := by
  have hrecord : ∀ (s : Store) m, s.Fetches (s.recordLoaded a.call m).2 := fun s m ↦ by
    unfold recordLoaded
    split
    · split <;> exact of_modules rfl
    · exact Each.modifySource .refl s _ fun r _ ↦ ⟨⟨rfl, rfl, .inl rfl, rfl⟩, rfl⟩
  unfold Store.checkAnswer
  split
  · dsimp only
    split
    · have htake : s.Fetches (s.takeOutstanding a.call) := of_modules rfl
      exact htake.trans (hrecord _ _)
    · exact of_modules rfl
  · exact of_modules rfl

end Store.Fetches

theorem LoadWalk.from_fetches (s : Store) (l : LoadingId) (m : ModuleId) :
    s.Fetches (LoadWalk.from s l m).1 := by
  unfold LoadWalk.from
  split
  · exact .of_modules rfl
  · exact .finishDescent s l

theorem LoadWalk.advance_fetches (s : Store) (w : LoadWalk) : s.Fetches (w.advance s).1 := by
  unfold LoadWalk.advance
  split
  · exact .refl s
  · split
    · exact .refl s
    · exact .finishDescent s _
    · dsimp only
      split
      · split
        · exact .of_modules rfl
        · exact .finishDescent s _
      · exact .of_modules rfl

theorem Store.takeAnswer_fetches (s : Store) (a : LoadAnswer) : s.Fetches (s.takeAnswer a).1 := by
  have h := Fetches.checkAnswer s a
  unfold takeAnswer
  split
  next outcome s' heq =>
  rw [heq] at h
  split
  · exact h
  · split
    · exact h.trans (LoadWalk.from_fetches _ _ _)
    · exact h.trans (Fetches.failLoading _ _ _)

theorem Store.startLoading_fetches (s : Store) (m : ModuleId) (hostDefined : Option String) :
    s.Fetches (s.startLoading m hostDefined).2.2 := by
  unfold startLoading
  refine .trans (.of_modules ?_) (LoadWalk.from_fetches _ _ _)
  rfl

/-- A task of loading, or a synthetic module that is started. -/
theorem Task.advance_fetches (s : Store) {t : Task} (ht : t.isRemote = true) :
    s.Fetches (t.advance s).1 := by
  cases t with
  | synthetic m =>
    simp only [advance, Store.startSynthetic]
    refine .of_source? fun x ↦ ?_
    split <;> next heq =>
      split at heq
      · obtain ⟨-, rfl⟩ := Prod.mk.inj heq
        rfl
      · split at heq <;> obtain ⟨-, rfl⟩ := Prod.mk.inj heq <;>
          simp only [Store.source?_modifySynthetic]
  | load m hostDefined =>
    simp only [advance]
    split
    · exact .of_modules rfl
    · exact s.startLoading_fetches m hostDefined
  | loading w =>
    simp only [advance, (LoadStep.next_quiet _ _).1]
    exact w.advance_fetches s
  | ask q => exact .refl s
  | answers as =>
    rcases as with _ | ⟨a, rest⟩
    · exact .refl s
    · have h := s.takeAnswer_fetches a
      simp only [advance]
      split <;> next heq => rw [heq] at h; exact h
  | _ => contradiction

/-- A task that has nothing to do with linking and evaluating. -/
theorem Task.advance_loads (s : Store) {t : Task} (ht : t.isWalk = false) :
    s.Loads (t.advance s).1 := by
  cases hr : t.isRemote with
  | false => exact .of_apart ((Task.advance_quiet s ht).2.2 hr)
  | true => exact (Task.advance_fetches s hr).loads

theorem Frame.resume_fetches (s : Store) (r : Result) (m : ModuleId) :
    s.Fetches (Frame.resume s r (.syntheticSteps m)).1 :=
  .of_source? fun x ↦ Store.source?_modifySynthetic _ _ _ x

/-- A frame that has nothing to do with linking and evaluating. -/
theorem Frame.resume_loads (s : Store) (r : Result) {f : Frame} (hf : f.isWalk = false) :
    s.Loads (f.resume s r).1 := by
  by_cases hsteps : ∃ m, f = .syntheticSteps m
  · obtain ⟨m, rfl⟩ := hsteps
    exact (Frame.resume_fetches s r m).loads
  · exact .of_apart ((Frame.resume_quiet s r hf).2.2 (not_exists.1 hsteps))

/-! ## Walks -/

namespace Store

variable {s s' : Store} {e : ErrorId} {left : List ModuleId}

theorem Ascends.failModules (s : Store) (left : List ModuleId) (e : ErrorId) :
    s.Ascends (s.failModules left e) :=
  Each.foldl .refl (fun _ _ _ ↦ .trans)
    (fun s m ↦ Each.modifySource .refl s m fun _ _ ↦ .over rfl rfl) left s

theorem modules_finish (s : Store) (goal : EvaluationGoal) :
    (goal.finish s).1.modules = s.modules := by
  cases goal with
  | promise root p =>
    simp only [EvaluationGoal.finish, finishEvaluation]
    split
    · exact modules_settle _ _ _
    · rfl
  | force m =>
    simp only [EvaluationGoal.finish, finishForced]
    split <;> rfl

theorem modules_fail (s : Store) (left : List ModuleId) (e : ErrorId) (goal : EvaluationGoal) :
    (goal.fail s left e).1.modules = (s.failModules left e).modules := by
  cases goal with
  | promise root p => exact modules_settle _ _ _
  | force m => rfl

/-- Modules that fail because they are on the stack of a walk are not being linked. -/
theorem KeepsAllLinking.failModules (hleft : ∀ x ∈ left, s.Aloft x) (e : ErrorId) :
    s.KeepsAllLinking (s.failModules left e) := by
  intro x
  by_cases hx : x ∈ left
  · obtain ⟨r, hr, hle⟩ := hleft x hx
    rw [hr]
    obtain ⟨r', hr', -⟩ := Each.after (Ascends.failModules s left e) hr
    rw [hr']
    refine .some fun hs ↦ ?_
    rw [hs, Status.le_iff] at hle
    exact absurd hle (by decide)
  · have hsame : (s.failModules left e).source? x = s.source? x :=
      source?_foldl_of_not_mem (fun r ↦ r.fail e) hx s
    rw [hsame]
    exact Each.refl (R := fun r r' ↦ r.status = .linking → r'.status = .linking) (fun _ ↦ id) s x

end Store

namespace EvaluationStep

variable {s : Store} {goal : EvaluationGoal} {step : EvaluationStep}

theorem next_ascends (s : Store) (goal : EvaluationGoal) (step : EvaluationStep) :
    s.Ascends (step.next s goal).1 := by
  cases step with
  | done => exact .of_modules (Store.modules_finish s goal)
  | failed e left =>
    exact (Store.Ascends.failModules s left e).trans (.of_modules (Store.modules_fail s left e goal))
  | _ => exact .refl s

theorem next_linking (h : ∀ x ∈ step.stack, s.Aloft x) :
    s.KeepsAllLinking (step.next s goal).1 := by
  cases step with
  | done => exact Store.Each.of_modules (fun _ ↦ id) (Store.modules_finish s goal)
  | failed e left =>
    exact .trans (fun _ _ _ h h' hs ↦ h' (h hs)) (Store.KeepsAllLinking.failModules h e)
      (.of_modules (fun _ ↦ id) (Store.modules_fail s left e goal))
  | _ => exact Store.Each.refl (fun _ ↦ id) s

/-- A walk that goes on has the stack that the step has left it. -/
theorem stack_of_tours {τ : Tour} (h : τ ∈ (step.next s goal).2.tours) :
    τ.walk.stack = step.stack := by
  cases step with
  | done => cases goal <;> exact absurd h List.not_mem_nil
  | failed e left => cases goal <;> exact absurd h List.not_mem_nil
  | _ =>
    obtain rfl := List.mem_singleton.1 h
    rfl

theorem goal_of_tours {τ : Tour} (h : τ ∈ (step.next s goal).2.tours) : τ.goal = goal := by
  cases step with
  | done => cases goal <;> exact absurd h List.not_mem_nil
  | failed e left => cases goal <;> exact absurd h List.not_mem_nil
  | _ =>
    obtain rfl := List.mem_singleton.1 h
    rfl

end EvaluationStep

/-! ## Linking -/

namespace SourceText.Relapses

variable {r r' r'' : SourceText}

theorem refl (r : SourceText) : r.Relapses r := ⟨rfl, rfl, .inl rfl⟩

theorem trans (h : r.Relapses r') (h' : r'.Relapses r'') : r.Relapses r'' := by
  refine ⟨h'.script.trans h.script, h'.error.trans h.error, ?_⟩
  rcases h.status with hs | ⟨hs, hs'⟩
  · rcases h'.status with hs' | ⟨hs', hs''⟩
    · exact .inl (hs'.trans hs)
    · exact .inr ⟨hs.symm.trans hs', hs''⟩
  · rcases h'.status with hs'' | ⟨hs'', -⟩
    · exact .inr ⟨hs, hs''.trans hs'⟩
    · exact nomatch hs'.symm.trans hs''

end SourceText.Relapses

namespace Store

/-- Every module is as a failure of linking may leave it. -/
abbrev Relapses : Store → Store → Prop := Each SourceText.Relapses

variable {s s' : Store} {x : ModuleId}

theorem Relapses.of_furnishing (h : Furnishing s s') : s.Relapses s' := fun y ↦ by
  have hloads := Loads.of_furnishing h y
  have hstatus := h.level.status y
  unfold status? at hstatus
  revert hloads hstatus
  cases s.source? y <;> cases s'.source? y <;> rintro ⟨⟩ hstatus
  · exact .none
  · next hrel => exact .some ⟨hrel.script, hrel.error, .inl (Option.some.inj hstatus)⟩

theorem Relapses.unlink (stack : List ModuleId)
    (h : ∀ x ∈ stack, ∀ r, s.source? x = some r → r.status = .linking ∨ r.status = .unlinked) :
    s.Relapses (s.unlink stack) := by
  induction stack generalizing s with
  | nil => exact Each.refl .refl s
  | cons m stack ih =>
    have hset : s.Relapses (s.setStatus m .unlinked) := Each.modifySource .refl s m fun r hr ↦
      ⟨rfl, rfl, (h m List.mem_cons_self r hr).symm.imp Eq.symm fun hs ↦ ⟨hs, rfl⟩⟩
    refine Each.trans (fun _ _ _ ↦ .trans) hset (ih fun x hx r hr ↦ ?_)
    rw [setStatus, source?_modifySource] at hr
    split at hr
    · obtain ⟨q, -, rfl⟩ := Option.map_eq_some_iff.1 hr
      exact .inr rfl
    · exact h x (List.mem_cons_of_mem _ hx) r hr

theorem Aloft.relapse (h : s.Aloft x) (hs : s.Relapses s') : s'.Aloft x := by
  obtain ⟨r, hr, hle⟩ := h
  obtain ⟨r', hr', hrel⟩ := Each.after hs hr
  refine ⟨r', hr', ?_⟩
  rcases hrel.status with heq | ⟨heq, -⟩
  · rwa [heq]
  · rw [heq, Status.le_iff] at hle
    exact absurd hle (by decide)

theorem Upright.relapse (h : s.Upright) (hs : s.Relapses s') : s'.Upright := by
  intro x r' hr' hne
  obtain ⟨r, hr, hrel⟩ := Each.before hs hr'
  rw [hrel.error]
  refine h x r hr fun hover ↦ ?_
  rcases hrel.status with heq | ⟨heq, -⟩
  · exact hne (heq.trans hover)
  · exact nomatch heq.symm.trans hover

end Store

namespace LinkWalk

variable {s : Store} {w : LinkWalk}

/-- A module that is linked comes further if it was not beyond that. -/
theorem popComponent_ascends {s : Store} (root : ModuleId) (stack : List ModuleId)
    (h : ∀ x ∈ stack, ∀ r, s.source? x = some r → r.status ≤ .linked) :
    s.Ascends (popComponent s root stack).1 := by
  induction stack generalizing s with
  | nil => exact .refl s
  | cons m stack ih =>
    have hset : s.Ascends (s.setStatus m .linked) := Store.Each.modifySource .refl s m fun r hr ↦
      ⟨rfl, h m List.mem_cons_self r hr, .inl rfl⟩
    rw [popComponent]
    split
    · exact hset
    · refine hset.trans (ih fun x hx r hr ↦ ?_)
      rw [Store.setStatus, Store.source?_modifySource] at hr
      split at hr
      · obtain ⟨q, -, rfl⟩ := Option.map_eq_some_iff.1 hr
        exact le_rfl
      · exact h x (List.mem_cons_of_mem _ hx) r hr

theorem leave_ascends (s : Store) (m required : ModuleId) : s.Ascends (leave s m required) := by
  unfold leave
  split
  · split
    · exact .modifySource s m fun _ ↦ ⟨rfl, rfl, rfl⟩
    · exact .refl s
  · exact .refl s

theorem enter_ascends (s : Store) (w : LinkWalk) (m : ModuleId) : s.Ascends (enter s w m).1 := by
  unfold enter
  split
  · next hm =>
    suffices hlinking : s.Ascends (s.setStatus m .linking) from
      hlinking.trans (.modifySource _ m fun _ ↦ ⟨rfl, rfl, rfl⟩)
    refine Store.Each.modifySource .refl s m fun r hr ↦ ⟨rfl, ?_, .inl rfl⟩
    have hs : r.status = .unlinked := by simpa [Store.status?, hr] using hm
    rw [hs]
    exact (by decide : Status.unlinked.rank ≤ Status.linking.rank)
  · exact .refl s

theorem conclude_ascends (m : ModuleId)
    (h : ∀ x ∈ w.stack, ∀ r, s.source? x = some r → r.status ≤ .linked) :
    s.Ascends (conclude s w m).1 := by
  have hpop : s.Ascends
      (if s.isComponentRoot m then popComponent s m w.stack else (s, w.stack)).1 := by
    split
    · exact popComponent_ascends m w.stack h
    · exact .refl s
  unfold conclude
  split
  next s' stack heq =>
  rw [heq] at hpop
  dsimp only
  split
  · exact hpop.trans (leave_ascends s' _ m)
  · exact hpop

/-- A step of a walk that links takes modules further, or the walk fails. -/
theorem advance_climbs (h : ∀ x ∈ w.stack, ∀ r, s.source? x = some r → r.status = .linking) :
    s.Ascends ((w.advance s).2.next (w.advance s).1).1 ∨
      (∃ e, ((w.advance s).2.next (w.advance s).1).2 = .give (.completion (.error e))) ∧
        s.Relapses ((w.advance s).2.next (w.advance s).1).1 := by
  unfold advance
  split
  · exact .inl (.refl s)
  · next m rest _ =>
    have hapart := s.initializeEnvironment_furnishing m
    split
    · next heq =>
      rw [heq] at hapart
      exact .inl (Store.Loads.of_furnishing hapart).ascends
    · next e s' heq =>
      rw [heq] at hapart
      refine .inr ⟨⟨e, rfl⟩, ?_⟩
      refine .trans (fun _ _ _ ↦ .trans) (Store.Relapses.of_furnishing hapart) ?_
      refine Store.Relapses.unlink w.stack fun x hx r' hr' ↦ .inl ?_
      obtain ⟨r, hr, hrel⟩ := Store.Each.before (Store.Relapses.of_furnishing hapart) hr'
      have hs := hapart.level.status x
      rw [Store.status?, hr', Store.status?, hr] at hs
      exact (Option.some.inj hs).trans (h x hx r hr)
  · next m r requests rest _ =>
    dsimp only
    split
    · exact .inl (.refl s)
    · next d _ =>
      have henter := enter_ascends s { w with frames := ⟨m, requests⟩ :: rest } d
      split
      · next heq =>
        rw [heq] at henter
        exact .inl henter
      · next heq =>
        rw [heq] at henter
        exact .inl (henter.trans (leave_ascends _ m d))

end LinkWalk

/-- The variables of a module have been set up, or could not be. -/
theorem Frame.setUp_climbs {s : Store} {w : LinkWalk} (r : Result) (m : ModuleId)
    (h : ∀ x ∈ w.stack, ∀ r, s.source? x = some r → r.status = .linking) :
    s.Ascends (Frame.resume s r (.setUp m w)).1 ∨
      (∃ e, (Frame.resume s r (.setUp m w)).2 = .give (.completion (.error e))) ∧
        s.Relapses (Frame.resume s r (.setUp m w)).1 := by
  simp only [resume]
  split
  · refine .inl (LinkWalk.conclude_ascends m fun x hx r hr ↦ ?_)
    rw [h x hx r hr, Status.le_iff]
    decide
  · next e _ => exact .inr ⟨⟨e, rfl⟩, .unlink w.stack fun x hx r hr ↦ .inl (h x hx r hr)⟩

theorem Task.link_ascends (s : Store) (m : ModuleId) : s.Ascends (Task.advance s (.link m)).1 := by
  have henter := LinkWalk.enter_ascends s {} m
  have hstart : s.Ascends (s.startLinking m).2 := by
    unfold Store.startLinking
    split
    · exact .of_modules rfl
    · exact .of_modules rfl
    · split <;> next heq => rw [heq] at henter; exact henter
  simp only [advance]
  split <;> next heq => rw [heq] at hstart; exact hstart

/-! ## Modules that were waited for -/

namespace Store.Ascends

variable {s s' : Store} {m : ModuleId}

theorem of_fails {e : ErrorId} (h : Fails e s s') : s.Ascends s' := fun x ↦ by
  rcases h x with heq | ⟨r, hr, -, heq⟩
  · rw [heq]
    exact Each.refl .refl s x
  · rw [hr, heq]
    exact .some (.over rfl rfl)

theorem finishModule (s : Store) (m : ModuleId) : s.Ascends (s.finishModule m) := by
  have hasync : s.Ascends (s.settleAsync m) := .modifySource s m fun _ ↦ ⟨rfl, rfl, rfl⟩
  have hover : (s.settleAsync m).Ascends ((s.settleAsync m).setStatus m .evaluated) :=
    Each.modifySource .refl _ m fun _ _ ↦ .over rfl rfl
  exact (hasync.trans hover).trans (.of_modules (modules_resolveCapability _ m))

theorem finishSearched {r : SourceText} (hm : s.source? m = some r)
    (hs : r.status = .asyncSubgraphsSearchingAsync) : s.Ascends (s.finishSearched m) := by
  have hset : s.Ascends (s.setStatus m .asyncSubgraphsEvaluated) :=
    Each.modifySource .refl s m fun q hq ↦ by
      obtain rfl := Option.some.inj (hm.symm.trans hq)
      refine ⟨rfl, ?_, .inl rfl⟩
      rw [hs]
      exact (by decide : Status.asyncSubgraphsSearchingAsync.rank ≤ Status.asyncSubgraphsEvaluated.rank)
  have hasync : (s.setStatus m .asyncSubgraphsEvaluated).Ascends
      ((s.setStatus m .asyncSubgraphsEvaluated).settleAsync m) :=
    .modifySource _ m fun _ ↦ ⟨rfl, rfl, rfl⟩
  exact (hset.trans hasync).trans (.of_modules (modules_resolveCapability _ m))

theorem fulfillModule (s : Store) (m : ModuleId) : s.Ascends (s.fulfillModule m).1 := by
  unfold Store.fulfillModule
  split
  · exact refl s
  · exact (finishModule s m).trans (gatherFrom_of_lessen refl (fun _ _ _ ↦ trans)
      (fun s p ↦ .modifySource s p fun _ ↦ ⟨rfl, rfl, rfl⟩) _ _ m [])

theorem continueFree (s : Store) (m : ModuleId) : s.Ascends (s.continueFree m).2 := by
  unfold Store.continueFree
  split
  · exact refl s
  · next r hm =>
    split
    · exact refl s
    · split
      · exact .of_treads (.startAsync s m)
      · split
        · next hs => exact finishSearched hm hs
        · exact refl s

theorem finishFree (s : Store) (m : ModuleId) (capability : Option PromiseId) (c : Completion) :
    s.Ascends (s.finishFree m capability c) := by
  rcases capability with _ | p <;> rcases c with e | ⟨⟩
  · exact of_fails (fails_rejectModule s m e)
  · rw [s.finishFree_eq_finishModule]
    exact finishModule s m
  · exact .of_modules (modules_settle _ _ _)
  · exact refl s

theorem newCapability (s : Store) (m : ModuleId) : s.Ascends (s.newCapability m).2 := by
  have hpromise : s.Ascends s.newPromise.2 := .of_modules rfl
  exact hpromise.trans (.modifySource _ m fun _ ↦ ⟨rfl, rfl, rfl⟩)

end Store.Ascends

theorem Job.run_ascends (s : Store) (j : Job) : s.Ascends (j.run s).1 := by
  by_cases hj : ∀ m, j.reaction ≠ .completeModule m
  · exact (Store.Loads.of_apart (Job.run_quiet s hj).1).ascends
  · simp only [ne_eq, not_forall, not_not] at hj
    obtain ⟨reaction, c⟩ := j
    obtain ⟨m, rfl⟩ := hj
    rcases c with e | ⟨⟩
    · exact .of_fails (Store.fails_rejectModule s m e)
    · exact .fulfillModule s m

/-! ## The assertion of walks -/

/-- The trail of the walk that a task is. -/
def Task.trail : Task → List (ModuleId × Traversal)
  | .evaluation _ w => w.trail
  | _ => []

namespace Machine

/-- The trail of the walk that the machine takes further in the next step. -/
def trail (M : Machine) : List (ModuleId × Traversal) :=
  match M.control with
  | .run t => t.trail
  | .give _ => []

/-- In the next step a walk, maybe one that starts with it, enters the module in the traversal. -/
def Pushes (M : Machine) (m : ModuleId) (t : Traversal) : Prop :=
  (∃ task, M.control = .run task) ∧ M.step.trail = (m, t) :: M.trail

/-- A module that a walk enters has been linked. -/
def Asserts (M _ : Machine) : Prop :=
  ∀ m t, M.Pushes m t → ∃ r, M.store.source? m = some r ∧ .linked ≤ r.status

theorem trail_apply (fs : List Frame) (s : Store) (goal : EvaluationGoal) (step : EvaluationStep) :
    (apply fs (step.next s goal)).trail = step.trail := by
  cases step with
  | done => cases goal <;> rfl
  | failed e left => cases goal <;> rfl
  | _ => rfl

end Machine

/-! ## What is at the bottom of the frames -/

/-- The task goes on with modules that were set free, or leads to that. It is at the bottom of the
frames, even if bodies start evaluations. -/
def Task.isBottom : Task → Bool
  | .free _ | .job _ => true
  | _ => false

/-- The frame goes on with modules that were set free. -/
def Frame.isBottom : Frame → Bool
  | .freed _ _ _ => true
  | _ => false

/-- What comes next goes on with modules that were set free. -/
def Next.isBottom : Next → Bool
  | .goto t => t.isBottom
  | .call t f => t.isBottom || f.isBottom
  | .give _ => false

theorem Task.isBase_of_isBottom {t : Task} (h : t.isBottom = true) : t.isBase = true := by
  cases t <;> first | rfl | exact nomatch h

theorem Next.isBase_of_isBottom {n : Next} (h : n.isBottom = true) : n.isBase = true := by
  cases n with
  | goto t => exact Task.isBase_of_isBottom h
  | call t f =>
    simp only [isBottom, isBase, Bool.or_eq_true] at h ⊢
    refine h.imp Task.isBase_of_isBottom fun hf ↦ ?_
    cases f <;> first | rfl | contradiction
  | give r => contradiction

theorem Next.Still.isBottom {n : Next} (h : n.Still) : n.isBottom ≠ true := fun hb ↦
  nomatch h.isBase.symm.trans (Next.isBase_of_isBottom hb)

theorem EvaluationStep.isBottom_next (s : Store) (goal : EvaluationGoal) (step : EvaluationStep) :
    (step.next s goal).2.isBottom ≠ true := by
  cases step <;> cases goal <;> exact nofun

theorem Task.isBottom_advance {s : Store} {t : Task} (h : (t.advance s).2.isBottom = true) :
    t.isBottom = true := by
  cases ht : t.isWalk with
  | false => exact absurd h (Task.advance_quiet s ht).2.1.isBottom
  | true =>
    cases t with
    | free ms => rfl
    | job j => rfl
    | force m =>
      simp only [advance, Store.forceModule] at h
      split at h
      · contradiction
      · contradiction
      · exact absurd h (EvaluationStep.isBottom_next _ _ _)
    | evaluate m =>
      simp only [advance, Store.evaluate] at h
      split at h
      · contradiction
      · split at h
        · contradiction
        · exact absurd h (EvaluationStep.isBottom_next _ _ _)
    | evaluation goal w => exact absurd h (EvaluationStep.isBottom_next _ _ _)
    | link m => exact absurd h (Task.link_binds s m).still.isBottom
    | linking w => exact absurd h (LinkWalk.advance_binds s w).still.isBottom
    | _ => contradiction

theorem Frame.isBottom_resume {s : Store} {r : Result} {f : Frame}
    (h : (f.resume s r).2.isBottom = true) : f.isBottom = true := by
  cases hf : f.isWalk with
  | false => exact absurd h (Frame.resume_quiet s r hf).2.1.isBottom
  | true =>
    cases f with
    | freed m capability rest => rfl
    | executed goal m capability w => exact absurd h (EvaluationStep.isBottom_next _ _ _)
    | passed goal w => exact absurd h (EvaluationStep.isBottom_next _ _ _)
    | setUp m w => exact absurd h (LinkWalk.setUp_binds s r m w).still.isBottom
    | _ => exact nomatch hf

namespace Machine

/-- Nothing is below what goes on with modules that were set free. -/
structure Founded (M : Machine) : Prop where
  current : M.current.isBottom = true → M.frames = []
  frames : M.frames.Pairwise fun f _ ↦ f.isBottom = false

theorem Founded.apply {s : Store} {n : Next} {fs : List Frame}
    (hfs : fs.Pairwise fun f _ ↦ f.isBottom = false) (hn : n.isBottom = true → fs = [])
    (hc : n.CallsAbove) : (Machine.apply fs (s, n)).Founded := by
  cases n with
  | goto t => exact ⟨hn, hfs⟩
  | call t f =>
    refine ⟨fun ht ↦ ?_, List.pairwise_cons.2 ⟨fun g hg ↦ Bool.eq_false_iff.2 fun hb ↦ ?_, hfs⟩⟩
    · exact nomatch (hc t f rfl).symm.trans (Task.isBase_of_isBottom ht)
    · rw [hn (by simp [Next.isBottom, hb])] at hg
      exact absurd hg List.not_mem_nil
  | give r => exact ⟨nofun, hfs⟩

theorem Founded.below {f : Frame} {fs : List Frame}
    (h : (f :: fs).Pairwise fun f _ ↦ f.isBottom = false) (hf : f.isBottom = true) : fs = [] := by
  refine List.eq_nil_iff_forall_not_mem.2 fun g hg ↦ ?_
  exact nomatch hf.symm.trans ((List.pairwise_cons.1 h).1 g hg)

theorem Founded.step {M : Machine} (h : M.Founded) : M.step.Founded := by
  rcases hnext : M.next? with _ | x
  · rwa [step_of_next?_eq_none hnext]
  rw [step_of_next? hnext]
  obtain ⟨s, control, fs⟩ := M
  rcases control with t | r
  · obtain rfl : x = t.advance s := advance_of_next? hnext
    exact .apply h.frames (fun hb ↦ h.current (Task.isBottom_advance hb)) (t.callsAbove_advance s)
  · rcases fs with _ | ⟨f, fs⟩
    · exact nomatch hnext
    obtain rfl : x = f.resume s r := (Option.some.inj hnext).symm
    exact .apply (List.pairwise_cons.1 h.frames).2
      (fun hb ↦ Founded.below h.frames (Frame.isBottom_resume hb)) (f.callsAbove_resume s r)

end Machine

/-! ## Steps of the machine -/

/-- A step that takes modules further, and puts only modules on stacks that walks have entered. What
is being linked stays so, if there is anything below. -/
structure Store.Lifts (s : Store) (fs : List Frame) (x : Store × Next) : Prop where
  ascends : s.Ascends x.1
  linking : fs = [] ∨ s.KeepsAllLinking x.1
  tours : ∀ τ ∈ x.2.tours, ∀ y ∈ τ.walk.stack, x.1.Aloft y

namespace Store.Lifts

variable {s : Store} {fs : List Frame} {x : Store × Next}

theorem of_loads (h : s.Loads x.1) (ht : x.2.tours = []) : s.Lifts fs x :=
  ⟨h.ascends, .inr h.linking, by rw [ht]; exact nofun⟩

/-- A step of a walk. -/
theorem walk {y : Store × EvaluationStep} {stack : List ModuleId} (htreads : s.Treads y.1)
    (hdraws : s.Draws stack y) (hstack : ∀ x ∈ stack, s.Aloft x)
    (hlinking : s.Each (fun r r' ↦ r.status < .linked → r'.status = r.status) y.1)
    (goal : EvaluationGoal) : s.Lifts fs (y.2.next y.1 goal) := by
  have haloft := hdraws.aloft htreads hstack
  refine ⟨(Ascends.of_treads htreads).trans (EvaluationStep.next_ascends _ _ _), .inr ?_,
    fun τ hτ x hx ↦ ?_⟩
  · refine Each.trans (fun _ _ _ h h' hs ↦ h' (h hs))
      (Each.mono hlinking fun r r' h hs ↦ (h ?_).trans hs) (EvaluationStep.next_linking haloft)
    rw [hs, ← not_le, Status.le_iff]
    decide
  · rw [EvaluationStep.stack_of_tours hτ] at hx
    exact (haloft x hx).ascend (EvaluationStep.next_ascends _ _ _)

/-- A step that comes after a change. -/
theorem after {s' : Store} (h : s.Ascends s') (hl : s.KeepsAllLinking s') (hx : s'.Lifts fs x) :
    s.Lifts fs x :=
  ⟨h.trans hx.ascends,
    hx.linking.imp_right fun hx ↦ Each.trans (fun _ _ _ h h' hs ↦ h' (h hs)) hl hx, hx.tours⟩

end Store.Lifts

namespace Machine

variable {s : Store} {fs : List Frame} {m : ModuleId} {t : Traversal}

/-- The module that a walk enters has been linked, so no other one comes further. -/
theorem Asserts.unlinked {task : Task} {w : EvaluationWalk} {M' : Machine} {r : SourceText}
    (h : (Machine.mk s (.run task) fs).Asserts M') (htask : task.trail = w.trail)
    (htrail : (Machine.mk s (.run task) fs).step.trail = (m, t) :: w.trail) (hm : s.source? m = some r) :
    ¬r.status < .linked := by
  obtain ⟨q, hq, hle⟩ := h m t ⟨⟨task, rfl⟩, htrail.trans (by rw [← htask]; rfl)⟩
  obtain rfl := Option.some.inj (hm.symm.trans hq)
  exact not_lt.2 hle

end Machine

theorem LinkWalk.enter_linking (s : Store) (w : LinkWalk) (m : ModuleId) :
    s.KeepsAllLinking (enter s w m).1 := by
  have hrefl : ∀ r : SourceText, r.status = .linking → r.status = .linking := fun _ ↦ id
  unfold enter
  split
  · have hlinking : s.KeepsAllLinking (s.setStatus m .linking) :=
      .modifySource hrefl s m fun _ _ _ ↦ rfl
    exact hlinking.trans (fun _ _ _ h h' hs ↦ h' (h hs)) (.modifySource hrefl _ m fun _ _ ↦ id)
  · exact .refl hrefl s

theorem Task.link_linking (s : Store) (m : ModuleId) :
    s.KeepsAllLinking (Task.advance s (.link m)).1 := by
  have hrefl : ∀ r : SourceText, r.status = .linking → r.status = .linking := fun _ ↦ id
  have henter := LinkWalk.enter_linking s {} m
  have hstart : s.KeepsAllLinking (s.startLinking m).2 := by
    unfold Store.startLinking
    split
    · exact .of_modules hrefl rfl
    · exact .of_modules hrefl rfl
    · split <;> next heq => rw [heq] at henter; exact henter
  simp only [advance]
  split <;> next heq => rw [heq] at hstart; exact hstart

namespace Store

theorem KeepsAllLinking.newCapability (s : Store) (m : ModuleId) :
    s.KeepsAllLinking (s.newCapability m).2 :=
  Each.modifySource (fun _ ↦ id) s.newPromise.2 m fun _ _ ↦ id

/-- The promise of an evaluation is nothing to the statuses of modules. -/
theorem status_newCapability {s : Store} {m x : ModuleId} {r : SourceText}
    (h : (s.newCapability m).2.source? x = some r) :
    ∃ q, s.source? x = some q ∧ r.status = q.status :=
  have hsame : s.Each (fun q r ↦ r.status = q.status) (s.newCapability m).2 :=
    Each.modifySource (R := fun q r ↦ r.status = q.status) (fun _ ↦ rfl) s.newPromise.2 m
      fun _ _ ↦ rfl
  hsame.before h

end Store

/-- A task takes modules further, if it is not linking. -/
theorem Task.advance_lifts {s : Store} {t : Task} {fs : List Frame}
    (haloft : ∀ τ ∈ t.tours, ∀ x ∈ τ.walk.stack, s.Aloft x)
    (hbase : t.isBottom = true → fs = []) (hP : (Machine.mk s (.run t) fs).Asserts (.start s t))
    (hl : ∀ w, t ≠ .linking w) : s.Lifts fs (t.advance s) := by
  cases ht : t.isWalk with
  | false =>
    exact .of_loads (Task.advance_loads s ht) (Task.advance_quiet s ht).2.1.tours
  | true =>
    cases t with
    | force m =>
      rcases hm : s.source? m with _ | q
      · simp only [advance, Store.forceModule, Store.force, hm]
        exact .of_loads (.refl s) rfl
      rcases Store.force_cases hm with ⟨c, s', heq, ha⟩ | ⟨heq, -⟩
      · simp only [advance, Store.forceModule, heq]
        exact .of_loads (.of_apart ha) rfl
      · have hstep : Task.advance s (.force m) = (EvaluationWalk.start s m).2.next
            (EvaluationWalk.start s m).1 (.force m) := by
          simp only [advance, Store.forceModule, heq]
        rw [hstep]
        refine .walk (.arrive s {} m .executing) (EvaluationWalk.arrive_draws s {} m .executing)
          (by simp) ?_ _
        refine SourceText.permits_unlinked.arrive s {} fun r t' hr _ htrail hlt ↦ ?_
        refine absurd hlt (hP.unlinked (w := {}) (t := t') rfl ?_ hr)
        change (Machine.apply fs (Task.advance s (.force m))).trail = _
        rw [hstep, Machine.trail_apply]
        exact htrail
    | evaluate m =>
      have hroot : Task.advance s (.evaluate m) = s.evaluate m := rfl
      revert hroot
      simp only [Store.evaluate]
      split
      · exact fun h ↦ h ▸ .of_loads (.refl s) rfl
      · generalize s.evaluationRoot m = root
        split
        · exact fun h ↦ h ▸ .of_loads (.refl s) rfl
        · intro hstep
          rw [hstep]
          refine .after (.newCapability s root) (.newCapability s root) ?_
          refine .walk (.arrive _ {} root .executing)
            (EvaluationWalk.arrive_draws _ {} root .executing) (by simp) ?_ _
          refine SourceText.permits_unlinked.arrive _ {} fun r t' hr _ htrail hlt ↦ ?_
          obtain ⟨q, hq, hs⟩ := Store.status_newCapability hr
          refine absurd (hs ▸ hlt) (hP.unlinked (w := {}) (t := t') rfl ?_ hq)
          change (Machine.apply fs (Task.advance s (.evaluate m))).trail = _
          rw [hstep, Machine.trail_apply]
          exact htrail
    | evaluation goal w =>
      refine .walk (.advance s w) (EvaluationWalk.advance_draws s w)
        (haloft ⟨goal, .here, w⟩ List.mem_cons_self) ?_ goal
      refine SourceText.permits_unlinked.advance s w fun m _ r t' hr _ htrail hlt ↦ ?_
      refine absurd hlt (hP.unlinked (w := w) (t := t') rfl ?_ hr)
      change (Machine.apply fs ((w.advance s).2.next (w.advance s).1 goal)).trail = _
      rw [Machine.trail_apply]
      exact htrail
    | free ms =>
      obtain rfl := hbase rfl
      rcases ms with _ | ⟨m, rest⟩
      · exact .of_loads (.refl s) rfl
      · have hfree := Store.Ascends.continueFree s m
        simp only [advance]
        split <;> next heq => rw [heq] at hfree; exact ⟨hfree, .inl rfl, List.forall_mem_nil _⟩
    | job j =>
      obtain rfl := hbase rfl
      refine ⟨j.run_ascends s, .inl rfl, ?_⟩
      obtain ⟨reaction, c⟩ := j
      cases reaction <;> rcases c with e | ⟨⟩ <;> rintro _ ⟨⟩
    | link m =>
      refine ⟨Task.link_ascends s m, .inr (Task.link_linking s m), ?_⟩
      rw [(Task.link_binds s m).still.tours]
      simp
    | linking w => exact absurd rfl (hl w)
    | _ => contradiction

/-- A frame takes modules further, if it is not one of a walk that links. -/
theorem Frame.resume_lifts {s : Store} {f : Frame} {fs : List Frame} (r : Result)
    (haloft : ∀ τ ∈ f.tours, ∀ x ∈ τ.walk.stack, s.Aloft x)
    (hbase : f.isBottom = true → fs = []) (hl : ∀ m w, f ≠ .setUp m w) : s.Lifts fs (f.resume s r) := by
  cases hf : f.isWalk with
  | false =>
    exact .of_loads (Frame.resume_loads s r hf) (Frame.resume_quiet s r hf).2.1.tours
  | true =>
    cases f with
    | executed goal m capability w =>
      exact .walk (.executed s w m capability _)
        (.of_subset (EvaluationWalk.executed_stack s w m capability _))
        (haloft ⟨goal, .running m, w⟩ List.mem_cons_self)
        (SourceText.permits_unlinked.executed s w m capability _) goal
    | passed goal w =>
      exact .walk (.passed s w _)
        (.of_subset (EvaluationWalk.passed_stack s w _))
        (haloft ⟨goal, .here, w⟩ List.mem_cons_self)
        (SourceText.permits_unlinked.passed s w _) goal
    | freed m capability rest =>
      obtain rfl := hbase rfl
      exact ⟨.finishFree s m capability _, .inl rfl, nofun⟩
    | setUp m w => exact absurd rfl (hl m w)
    | _ => exact nomatch hf

namespace Machine

/-- What holds of every machine in a run in which walks enter linked modules only. -/
structure Upward (M : Machine) : Prop where
  linkage : Linkage M.store M.linkTours
  aloft : ∀ τ ∈ M.tours, ∀ x ∈ τ.walk.stack, M.store.Aloft x
  upright : M.store.Upright
  founded : M.Founded

/-- In the next step linking fails, and takes back what was being linked. -/
structure Unlinks (M : Machine) : Prop where
  links : M.links
  fails : ∃ e, M.step.control = .give (.completion (.error e))
  relapses : M.store.Relapses M.step.store

/-- The next step takes modules further, unless linking fails in it. -/
def Climbs (M : Machine) : Prop := M.store.Ascends M.step.store ∨ M.Unlinks

theorem Climbs.aloft {M : Machine} (h : M.Climbs) {x : ModuleId} (hx : M.store.Aloft x) :
    M.step.store.Aloft x := h.elim hx.ascend fun h ↦ hx.relapse h.relapses

theorem Climbs.upright {M : Machine} (h : M.Climbs) (hu : M.store.Upright) :
    M.step.store.Upright := h.elim hu.ascend fun h ↦ hu.relapse h.relapses

theorem links_of_linking {s : Store} {w : LinkWalk} {fs : List Frame} :
    (Machine.mk s (.run (.linking w)) fs).links := .inl ⟨w, rfl⟩

theorem links_of_setUp {s : Store} {r : Result} {m : ModuleId} {w : LinkWalk} {fs : List Frame} :
    (Machine.mk s (.give r) (.setUp m w :: fs)).links := .inr ⟨r, m, w, fs, rfl, rfl⟩

theorem control_apply_give {s : Store} {r : Result} {fs : List Frame} :
    (apply fs (s, .give r)).control = .give r := rfl

/-- What a step of a walk that links leads to. -/
theorem climbs_of_links {M : Machine} {x : Store × Next} (hlinks : M.links)
    (hnext : M.next? = some x)
    (h : M.store.Ascends x.1 ∨
      (∃ e, x.2 = .give (.completion (.error e))) ∧ M.store.Relapses x.1) : M.Climbs := by
  have hstep := step_of_next? hnext
  have hstore : M.step.store = x.1 := by rw [hstep, store_apply]
  refine h.imp (fun h ↦ hstore ▸ h) fun ⟨⟨e, hx⟩, hr⟩ ↦ ⟨hlinks, ⟨e, ?_⟩, hstore ▸ hr⟩
  obtain ⟨s', n⟩ := x
  obtain rfl : n = _ := hx
  rw [hstep]
  rfl

/-- One step: modules come further unless linking fails, the modules on the stacks of walks that link
are being linked, and those on the stacks of walks that evaluate have been entered. -/
theorem Upward.step {M : Machine} (h : M.Upward) (hP : M.Asserts M.step) :
    M.step.Upward ∧ M.Climbs := by
  -- what is left to show, once it is known what becomes of modules and of stacks
  have hall : M.Climbs → (M.links ∨ M.store.KeepsLinking M.step.store M.linkTours) →
      (∀ τ ∈ M.step.tours, ∀ y ∈ τ.walk.stack, M.step.store.Aloft y) →
      M.step.Upward ∧ M.Climbs := fun hc hl ht ↦
    ⟨⟨step_linkage h.linkage hl, ht, hc.upright h.upright, h.founded.step⟩, hc⟩
  rcases hnext : M.next? with _ | x
  · have hstep := step_of_next?_eq_none hnext
    have hsame : M.store.Ascends M.step.store := by
      rw [hstep]
      exact .refl _
    refine hall (.inl hsame) (.inr fun _ _ _ _ hx ↦ hstep.symm ▸ hx) ?_
    rw [hstep]
    exact h.aloft
  have hstep := step_of_next? hnext
  have hlifted : M.store.Lifts M.rest x → (M.rest = [] → M.linkTours = []) →
      (∀ τ ∈ M.rest.flatMap Frame.tours, ∀ y ∈ τ.walk.stack, M.store.Aloft y) →
      M.step.Upward ∧ M.Climbs := fun hlifts hempty hbelow ↦ by
    have hstore : M.step.store = x.1 := by rw [hstep, store_apply]
    refine hall (.inl (hstore ▸ hlifts.ascends)) (.inr ?_) ?_
    · rcases hlifts.linking with hnil | hkeeps
      · rw [hempty hnil]
        rintro _ ⟨⟩
      · exact hstore ▸ hkeeps.keeps _
    · rw [hstep, tours_apply, store_apply]
      refine List.forall_mem_append.2 ⟨hlifts.tours, fun τ hτ y hy ↦ ?_⟩
      exact (hbelow τ hτ y hy).ascend hlifts.ascends
  have hlinked : M.links → (M.store.Ascends x.1 ∨
      (∃ e, x.2 = .give (.completion (.error e))) ∧ M.store.Relapses x.1) →
      x.2.tours = [] → (∀ τ ∈ M.rest.flatMap Frame.tours, ∀ y ∈ τ.walk.stack, M.store.Aloft y) →
      M.step.Upward ∧ M.Climbs := fun hlinks hx htours hbelow ↦ by
    have hc := climbs_of_links hlinks hnext hx
    refine hall hc (.inl hlinks) fun τ hτ y hy ↦ hc.aloft (hbelow τ ?_ y hy)
    rwa [hstep, tours_apply, htours] at hτ
  obtain ⟨s, control, fs⟩ := M
  have haloft := h.aloft
  have hlinking : ∀ {τ : LinkTour} {L : List LinkTour}, Linkage s (τ :: L) → ∀ x ∈ τ.stack,
      ∀ r, s.source? x = some r → r.status = .linking := fun hl x hx r hr ↦ by
    have := hl.linking _ List.mem_cons_self x hx
    simpa [Store.status?, hr] using this
  rcases control with t | r
  · obtain rfl : x = t.advance s := advance_of_next? hnext
    have hrest : (Machine.mk s (.run t) fs).rest = fs := rfl
    rw [hrest] at hlifted hlinked
    have hbelow : ∀ τ ∈ fs.flatMap Frame.tours, ∀ y ∈ τ.walk.stack, s.Aloft y :=
      fun τ hτ ↦ haloft τ (List.mem_append_right _ hτ)
    by_cases hl : ∃ w, t = .linking w
    · obtain ⟨w, rfl⟩ := hl
      exact hlinked links_of_linking (LinkWalk.advance_climbs (hlinking h.linkage))
        (LinkWalk.advance_binds s w).still.tours hbelow
    · rw [not_exists] at hl
      refine hlifted (Task.advance_lifts (fun τ hτ ↦ haloft τ (List.mem_append_left _ hτ))
        h.founded.current hP hl) (fun hnil ↦ ?_) hbelow
      subst hnil
      cases t <;> first | rfl | exact absurd rfl (hl _)
  · rcases fs with _ | ⟨f, fs⟩
    · contradiction
    obtain rfl : x = f.resume s r := (Option.some.inj hnext).symm
    have hrest : (Machine.mk s (.give r) (f :: fs)).rest = fs := rfl
    rw [hrest] at hlifted hlinked
    have haloft : ∀ τ ∈ f.tours ++ fs.flatMap Frame.tours, ∀ y ∈ τ.walk.stack, s.Aloft y := haloft
    have hbelow : ∀ τ ∈ fs.flatMap Frame.tours, ∀ y ∈ τ.walk.stack, s.Aloft y :=
      fun τ hτ ↦ haloft τ (List.mem_append_right _ hτ)
    by_cases hl : ∃ m w, f = .setUp m w
    · obtain ⟨m, w, rfl⟩ := hl
      exact hlinked links_of_setUp (Frame.setUp_climbs r m (hlinking h.linkage))
        (LinkWalk.setUp_binds s r m w).still.tours hbelow
    · simp only [not_exists] at hl
      refine hlifted (Frame.resume_lifts r (fun τ hτ ↦ haloft τ (List.mem_append_left _ hτ))
        (Founded.below h.founded.frames) hl) (fun hnil ↦ ?_) hbelow
      subst hnil
      cases f <;> first | rfl | exact absurd rfl (hl _ _)

end Machine

/-! ## Runs -/

/-- A state leads to another one at once. A body may start an evaluation, too. -/
inductive Turn (P : Machine → Machine → Prop) : State → State → Prop where
  | call {s : Store} (a : Act) {st : State} : a.begin s = some st → Turn P (.idle s) st
  | step {a : Act} {M : Machine} : P M M.step → Turn P (.busy a M) (.busy a M.step)
  | consult {a : Act} {M : Machine} {q : HostQuestion} {s : Store} :
      M.question? = some q → Consults M.store s →
      Turn P (.busy a M) (.busy a { M with store := s })
  | answer {a : Act} {M : Machine} {q : HostQuestion} (as : List LoadAnswer) :
      M.question? = some q → Turn P (.busy a M) (.busy a (M.answer as))
  | finish {a : Act} {M : Machine} {r : Result} :
      M.result? = some r → Turn P (.busy a M) (.idle M.store)

/-- A state leads to another one in the course of a run in which bodies may start evaluations. -/
abbrev Turns (P : Machine → Machine → Prop) : State → State → Prop :=
  Relation.ReflTransGen (Turn P)

/-- A turn of a run that is less restricted. -/
theorem Turn.mono {P Q : Machine → Machine → Prop} {st st' : State} (hPQ : ∀ M M', P M M' → Q M M')
    (h : Turn P st st') : Turn Q st st' := by
  cases h with
  | call a ha => exact .call a ha
  | step hP => exact .step (hPQ _ _ hP)
  | consult hq hs => exact .consult hq hs
  | answer as hq => exact .answer as hq
  | finish hr => exact .finish hr

theorem Turns.mono {P Q : Machine → Machine → Prop} {st st' : State} (hPQ : ∀ M M', P M M' → Q M M')
    (h : Turns P st st') : Turns Q st st' :=
  Relation.ReflTransGen.mono (fun _ _ ↦ Turn.mono hPQ) _ _ h

/-- Steps of a call that pass a check. -/
theorem Turns.steps {P : Machine → Machine → Prop} {check : Machine → Bool} {a : Act} {M : Machine}
    {n : Nat} (hcheck : ∀ M M', check M = true → P M M')
    (h : ∀ i < n, check (Machine.step^[i] M) = true) :
    Turns P (.busy a M) (.busy a (Machine.step^[n] M)) := by
  induction n with
  | zero => exact .refl
  | succ n ih =>
    rw [Function.iterate_succ_apply']
    exact (ih fun i hi ↦ h i (hi.trans n.lt_succ_self)).tail
      (.step (hcheck _ _ (h n n.lt_succ_self)))

theorem Advance.turn {P : Machine → Machine → Prop} {x y : State × List Event}
    (h : Advance P x y) : Turn P x.1 y.1 := by
  cases h with
  | call a ha => exact .call a ha
  | step _ hP => exact .step hP
  | consult hq hs => exact .consult hq hs
  | answer as hq => exact .answer as hq
  | finish hr => exact .finish hr

theorem Run.turns {P : Machine → Machine → Prop} {s₀ : Store} {st : State} {H : List Event}
    (h : Run P s₀ st H) : Turns P (.idle s₀) st :=
  Relation.ReflTransGen.lift (p := Turn P) Prod.fst (fun _ _ ↦ Advance.turn) _ _ h.onward_start

/-- What holds of every state in a run in which walks enter linked modules only. -/
def State.Upward : State → Prop
  | .idle s => s.Upright
  | .busy _ M => M.Upward

/-- In the next step linking fails. -/
def State.FailsToLink : State → Prop
  | .idle _ => False
  | .busy _ M => M.links ∧ ∃ e, M.step.control = .give (.completion (.error e))

/-- A state in which modules have come further, unless linking has failed. -/
def State.Climbs (st st' : State) : Prop :=
  st.store.Ascends st'.store ∨ st.FailsToLink ∧ st.store.Relapses st'.store

theorem Store.Fresh.upright {s : Store} (h : s.Fresh) : s.Upright :=
  fun x r hr _ ↦ (h.source x r hr).2.1

namespace Machine

variable {s s' : Store}

theorem upward_start (h : s.Upright) {t : Task} (ht : t.tours = []) (hl : t.linkTours = []) :
    (Machine.start s t).Upward := by
  have hlinks : (Machine.start s t).linkTours = [] := by
    change t.linkTours ++ [] = []
    rw [hl, List.append_nil]
  have htours : (Machine.start s t).tours = [] := by
    change t.tours ++ [] = []
    rw [ht, List.append_nil]
  refine ⟨?_, ?_, h, fun _ ↦ rfl, .nil⟩
  · rw [hlinks]
    exact ⟨List.nodup_nil, nofun, nofun⟩
  · rw [htours]
    exact nofun

/-- What the machine is about to do does not matter if it is nothing to walks. -/
theorem Upward.control {t t' : Task} {fs : List Frame} (h : (Machine.mk s (.run t) fs).Upward)
    (hs : s.Loads s') (htours : t'.tours = t.tours) (hlinks : t'.linkTours = t.linkTours)
    (hbottom : t'.isBottom = t.isBottom) : (Machine.mk s' (.run t') fs).Upward := by
  have hl : (Machine.mk s' (.run t') fs).linkTours = (Machine.mk s (.run t) fs).linkTours := by
    change t'.linkTours ++ _ = t.linkTours ++ _
    rw [hlinks]
  have ht : (Machine.mk s' (.run t') fs).tours = (Machine.mk s (.run t) fs).tours := by
    change t'.tours ++ _ = t.tours ++ _
    rw [htours]
  refine ⟨?_, ?_, h.upright.ascend hs.ascends, fun hb ↦ h.founded.current ?_, h.founded.frames⟩
  · rw [hl]
    exact h.linkage.keep (hs.linking.keeps _)
  · rw [ht]
    exact fun τ hτ x hx ↦ (h.aloft τ hτ x hx).ascend hs.ascends
  · exact hbottom.symm.trans hb

end Machine

theorem Act.begin_upward {s : Store} {a : Act} {st : State} (h : s.Upright)
    (ha : a.begin s = some st) : st.Upward ∧ s.Ascends st.store := by
  cases a with
  | namespaceOf m phase =>
    obtain rfl := Option.some.inj ha
    have hs := (Store.Loads.of_apart (s.namespaceOf_apart m phase)).ascends
    exact ⟨h.ascend hs, hs⟩
  | settle label c =>
    obtain ⟨p, -, rfl⟩ := Option.map_eq_some_iff.1 ha
    have hs : s.Ascends (s.settle p c) := .of_modules (s.modules_settle p c)
    exact ⟨h.ascend hs, hs⟩
  | job =>
    simp only [begin] at ha
    split at ha
    · contradiction
    · next j rest _ =>
      obtain rfl := Option.some.inj ha
      have hs : s.Ascends { s with jobs := rest } := .of_modules rfl
      exact ⟨Machine.upward_start (h.ascend hs) rfl rfl, hs⟩
  | _ =>
    obtain rfl := Option.some.inj ha
    exact ⟨Machine.upward_start h rfl rfl, .refl s⟩

theorem State.Upward.turn {st st' : State} (h : st.Upward) (ht : Turn Machine.Asserts st st') :
    st'.Upward ∧ st.Climbs st' := by
  cases ht with
  | call a ha => exact (Act.begin_upward h ha).imp_right .inl
  | step hP =>
    obtain ⟨hup, hclimbs⟩ := Machine.Upward.step h hP
    exact ⟨hup, hclimbs.imp_right fun hu ↦ ⟨⟨hu.links, hu.fails⟩, hu.relapses⟩⟩
  | @consult a M q s hq hconsults =>
    have hc := Machine.control_of_question? hq
    obtain ⟨s, control, fs⟩ := M
    obtain rfl : control = _ := hc
    have hloads := Store.Loads.of_apart hconsults.aside
    exact ⟨Machine.Upward.control h hloads rfl rfl rfl, .inl hloads.ascends⟩
  | @answer a M q as hq =>
    have hc := Machine.control_of_question? hq
    obtain ⟨s, control, fs⟩ := M
    obtain rfl : control = _ := hc
    exact ⟨Machine.Upward.control h (.refl s) rfl rfl rfl, .inl (.refl s)⟩
  | finish _ => exact ⟨Machine.Upward.upright h, .inl (.refl _)⟩

theorem State.Upward.turns {st st' : State} (hst : st.Upward) (h : Turns Machine.Asserts st st') :
    st'.Upward := by
  induction h with
  | refl => exact hst
  | tail _ ht ih => exact (ih.turn ht).1

theorem Run.upward {s₀ : Store} {st : State} {H : List Event} (hs : s₀.Fresh)
    (h : Run Machine.Asserts s₀ st H) : st.Upward := by
  have hstart : (State.idle s₀).Upward := hs.upright
  exact hstart.turns h.turns

/-! ## Entering modules -/

theorem Next.trail_of_tours {s : Store} {n : Next} (fs : List Frame) (h : n.tours = []) :
    (Machine.apply fs (s, n)).trail = [] := by
  have htask : ∀ t : Task, t.tours = [] → t.trail = [] := fun t ht ↦ by
    cases t <;> first | rfl | exact nomatch ht
  cases n with
  | goto t => exact htask t h
  | call t f => exact htask t (List.append_eq_nil_iff.1 h).1
  | give r => rfl

namespace Machine

variable {M : Machine} {m : ModuleId} {t : Traversal}

/-- A module that a walk enters was not as far before, and is afterwards. -/
theorem Pushes.enters (h : M.Pushes m t) :
    ∃ r r', M.store.source? m = some r ∧ r.status < t.status ∧
      M.step.store.source? m = some r' ∧ r'.status = t.status := by
  obtain ⟨⟨task, hrun⟩, htrail⟩ := h
  obtain ⟨s, control, fs⟩ := M
  obtain rfl : control = .run task := hrun
  have hmark : ∀ {s' : Store} {w : EvaluationWalk} {r : SourceText}, s'.source? m = some r →
      ∃ r', (EvaluationWalk.push s' w m t).1.source? m = some r' ∧ r'.status = t.status :=
    fun {s' w r} hr ↦ by
      refine ⟨r.entered t w.index, ?_, rfl⟩
      simp only [EvaluationWalk.push, Store.source?_modifySource, if_true, hr, Option.map_some]
  -- a walk that starts at the module
  have hstart : ∀ {s' : Store} {root : ModuleId} {goal : EvaluationGoal},
      (∀ r, s'.source? m = some r → ∃ q, s.source? m = some q ∧ r.status = q.status) →
      Task.advance s task = (EvaluationWalk.start s' root).2.next (EvaluationWalk.start s' root).1
        goal → task.trail = [] → (Machine.mk s (.run task) fs).step =
        apply fs (Task.advance s task) → ∃ r r', s.source? m = some r ∧ r.status < t.status ∧
        (Machine.mk s (.run task) fs).step.store.source? m = some r' ∧ r'.status = t.status := by
    intro s' root goal hsame hadvance htask hstep
    have htrail' : (EvaluationWalk.start s' root).2.trail = (m, t) :: ({} : EvaluationWalk).trail := by
      rw [hstep, hadvance, trail_apply] at htrail
      exact htrail.trans (congrArg ((m, t) :: ·) htask)
    obtain ⟨r, t', hp, hr, ha, heq⟩ := EvaluationWalk.enters_of_arrive htrail'
    obtain ⟨rfl, rfl⟩ := Prod.mk.inj hp
    obtain ⟨q, hq, hs⟩ := hsame r hr
    obtain ⟨r', hr', hs'⟩ := hmark (w := {}) hr
    refine ⟨q, r', hq, hs ▸ r.lt_of_arrival ha, ?_, hs'⟩
    rw [hstep, hadvance, EvaluationWalk.start, heq]
    exact hr'
  have hquiet : (Task.advance s task).2.tours ≠ [] := fun hnil ↦ by
    have hnext : (Machine.mk s (.run task) fs).step.trail = [] := by
      cases task <;> exact Next.trail_of_tours fs hnil
    exact absurd (hnext.symm.trans htrail) (by simp)
  cases task with
  | evaluation goal w =>
    have hw : (w.advance s).2.trail = (m, t) :: w.trail := by
      have := htrail
      rwa [show (Machine.mk s (.run (.evaluation goal w)) fs).step =
        apply fs ((w.advance s).2.next (w.advance s).1 goal) from rfl, trail_apply] at this
    obtain ⟨w', r, t₀, t', -, -, -, hp, hr, ha, heq⟩ := EvaluationWalk.enters_of_advance hw
    obtain rfl : t = t' := congrArg Prod.snd hp
    obtain ⟨r', hr', hs'⟩ := hmark (w := w') hr
    refine ⟨r, r', hr, r.lt_of_arrival ha, ?_, hs'⟩
    change (apply fs ((w.advance s).2.next (w.advance s).1 goal)).store.source? m = _
    rw [heq]
    exact hr'
  | force d =>
    rcases hd : s.source? d with _ | q
    · refine absurd ?_ hquiet
      simp only [Task.advance, Store.forceModule, Store.force, hd]
      rfl
    rcases Store.force_cases hd with ⟨c, s', heq, ha⟩ | ⟨heq, -⟩
    · refine absurd ?_ hquiet
      simp only [Task.advance, Store.forceModule, heq]
      rfl
    · have hadvance : Task.advance s (.force d) = (EvaluationWalk.start s d).2.next
          (EvaluationWalk.start s d).1 (.force d) := by
        simp only [Task.advance, Store.forceModule, heq]
      exact hstart (fun r hr ↦ ⟨r, hr, rfl⟩) hadvance rfl rfl
  | evaluate d =>
    have hadvance : Task.advance s (.evaluate d) = s.evaluate d := rfl
    revert hadvance
    simp only [Store.evaluate]
    split
    · intro h
      exact absurd (by rw [h]; rfl) hquiet
    · generalize s.evaluationRoot d = root
      split
      · intro h
        exact absurd (by rw [h]; rfl) hquiet
      · exact fun h ↦ hstart (fun r hr ↦ Store.status_newCapability hr) h rfl rfl
  | free ms =>
    refine absurd ?_ hquiet
    rcases ms with _ | ⟨d, rest⟩
    · rfl
    · simp only [Task.advance]
      split <;> rfl
  | job j =>
    refine absurd ?_ hquiet
    obtain ⟨reaction, c⟩ := j
    cases reaction <;> rcases c with e | ⟨⟩ <;> rfl
  | link d => exact absurd (Task.link_binds s d).still.tours hquiet
  | linking w => exact absurd (LinkWalk.advance_binds s w).still.tours hquiet
  | _ => exact absurd (Task.advance_quiet s rfl).2.1.tours hquiet

end Machine

end EcmaModules
