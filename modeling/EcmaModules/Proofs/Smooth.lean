import EcmaModules.Proofs.Calls
import EcmaModules.Proofs.Courses
import EcmaModules.Proofs.Treading

/-!
# Runs in which nothing goes wrong

A graph is loaded, and then evaluated, by any number of calls. No body fails, at once or later, and
nothing is read from the deferred namespace of a module with source text, so that all walks are those
of calls.

Whatever such a run does it does by moves of the smooth kind. No walk fails, since there is no error
that it could come across. It never comes back to a module that it is at, and it finds a module for
every request. And while it is under way nothing is being linked below it.
-/

namespace EcmaModules

open EvaluationWalk (await leave back push detach concludeExecuted concludeSearched)

/-! ## Walks that cannot fail -/

/-- No module has failed. -/
def Store.Errorless (s : Store) : Prop := ∀ x, s.evaluationError? x = none

theorem Store.Treads.errorless {s s' : Store} (h : s.Treads s') (hs : s.Errorless) :
    s'.Errorless := by
  intro x
  rw [← hs x]
  have hx := h x
  unfold evaluationError?
  revert hx
  cases s.source? x <;> cases s'.source? x <;> rintro ⟨⟩
  · rfl
  · next hr => exact hr.evaluationError

namespace EvaluationWalk

variable {s : Store} {e : ErrorId} {stack : List ModuleId}

theorem back_ne_failed (h : s.Errorless) (w : EvaluationWalk) (d : ModuleId) :
    (back s w d).2 ≠ .failed e stack := by
  unfold back leave
  dsimp only
  rw [h (s.cycleRoot d)]
  split
  · exact nofun
  · split
    · exact nofun
    · next heq =>
      split at heq
      · split at heq
        · cases heq
        · split at heq <;> cases heq
      · cases heq

theorem concludeExecuted_ne_failed (h : s.Errorless) (w : EvaluationWalk) (m : ModuleId) :
    (concludeExecuted s w m).2 ≠ .failed e stack := by
  unfold concludeExecuted
  split
  · exact back_ne_failed ((Store.Treads.popExecuted s m w.stack).errorless h) _ m
  · exact back_ne_failed h w m

theorem concludeSearched_ne_failed (h : s.Errorless) (w : EvaluationWalk) (m : ModuleId) :
    (concludeSearched s w m).2 ≠ .failed e stack := by
  have hhold : (s.holdSearched m).Errorless := by
    refine (Store.Treads.modifySource s m fun r ↦ ?_).errorless h
    split <;> exact ⟨rfl, rfl, rfl, rfl, rfl⟩
  rw [concludeSearched_eq]
  split
  · exact back_ne_failed ((Store.Treads.popSearched _ m w.stack).errorless hhold) _ m
  · exact back_ne_failed hhold w m

theorem execute_ne_failed (h : s.Errorless) (w : EvaluationWalk) (m : ModuleId) :
    (execute s w m).2 ≠ .failed e stack := by
  unfold execute
  split
  · exact nofun
  · split
    · refine concludeExecuted_ne_failed ((Store.Treads.modifySource s m fun r ↦ ?_).errorless h) w m
      exact ⟨rfl, rfl, rfl, rfl, rfl⟩
    · split <;> exact nofun

theorem arrive_ne_failed (h : s.Errorless) (w : EvaluationWalk) (m : ModuleId) (t : Traversal) :
    (arrive s w m t).2 ≠ .failed e stack := by
  unfold arrive
  split
  · simp
  · next r hr =>
    split
    · next e' ha =>
      have hnone := h m
      rw [Store.evaluationError?, hr] at hnone
      exact absurd (hnone.symm.trans (SourceText.error_of_fail ha)) (by simp)
    · refine back_ne_failed ?_ w m
      split
      · exact (Store.Treads.detach s w m).errorless h
      · exact h
    · simp

/-- A walk does not fail if no module has. -/
theorem advance_ne_failed (h : s.Errorless) (w : EvaluationWalk) :
    (w.advance s).2 ≠ .failed e stack := by
  unfold advance
  split
  · exact nofun
  · exact execute_ne_failed h _ _
  · exact concludeSearched_ne_failed h _ _
  · dsimp only
    split
    · exact arrive_ne_failed h _ _ _
    · exact nofun

end EvaluationWalk

/-! ## The runs -/

/-- The frame waits for a module to be executed. -/
def Frame.isExecution : Frame → Bool
  | .executed _ _ _ _ | .passed _ _ | .freed _ _ _ | .syntheticSteps _ | .syntheticPromise => true
  | _ => false

/-- Modules are loaded before any is evaluated, and evaluation starts in graphs without circles. What
is executed does not fail, and nothing is read that would have to be evaluated first. -/
structure Machine.Smooth (M : Machine) : Prop where
  loads : ∀ t, M.control = .run t → t.isLoad = true → M.store.Untouched
  acyclic : ∀ m, M.control = .run (.evaluate m) → M.store.Acyclic
  forces : ∀ m, M.control ≠ .run (.force m)
  executed : ∀ r f fs, M.control = .give r → M.frames = f :: fs → f.isExecution = true →
    r.toCompletion = .ok ()
  jobs : ∀ m e, M.control ≠ .run (.job ⟨.completeModule m, .error e⟩)

namespace Machine

variable {M : Machine} {H : List Event} {s : Store} {t : Task} {fs : List Frame} {f : Frame}
  {r : Result}

/-- No step of a walk fails. -/
theorem Smooth.flawless (h : M.Smooth) (hs : M.store.Errorless) : M.Flawless := by
  obtain ⟨s, control, fs⟩ := M
  refine ⟨hs, fun e stack hstep ↦ ?_, fun m c e hmem ↦ ?_, h.jobs⟩
  · unfold walkStep? at hstep
    split at hstep
    next goal w hc =>
      exact EvaluationWalk.advance_ne_failed hs w (Option.some.inj hstep)
    next r goal m c w fs' hc hf =>
      have hok := h.executed r _ fs' hc hf rfl
      rw [hok] at hstep
      exact EvaluationWalk.concludeExecuted_ne_failed hs w m (Option.some.inj hstep)
    next r goal w fs' hc hf =>
      have hok := h.executed r _ fs' hc hf rfl
      rw [hok] at hstep
      exact nomatch hstep
    next => exact nomatch hstep
  · unfold ended at hmem
    split at hmem
    next r goal x c' w fs' hc hf =>
      have heq := List.mem_singleton.1 hmem
      simp [h.executed r _ fs' hc hf rfl] at heq
    next r x c' rest fs' hc hf =>
      have heq := List.mem_singleton.1 hmem
      simp [h.executed r _ fs' hc hf rfl] at heq
    next => exact absurd hmem List.not_mem_nil

/-! ### Steps -/

/-- No walk is at a module that it comes to in the next step. -/
theorem not_walked_of_comesTo {d : ModuleId} {q : SourceText} (hv : Valid (M.scene H))
    (h : (M.scene H).Straight) (hforces : ∀ m, M.control ≠ .run (.force m))
    (heval : ∀ m, M.control = .run (.evaluate m) → M.frames = []) (hd : M.comesTo d)
    (hq : M.store.source? d = some q) : q.status.isWalked = false := by
  obtain ⟨s, control, fs⟩ := M
  unfold comesTo at hd
  split at hd
  · next goal w hc =>
    obtain rfl : control = _ := hc
    obtain ⟨m, t, r, rs, rest, hf, hi⟩ := hd
    have hmove : Move .smooth ((Machine.mk s (.run (.evaluation goal w)) fs).scene H) _ :=
      .request hf hi
    exact (hmove.straight hv h).not_walked (hmove.valid hv).sound rfl rfl hq
  · next m hc =>
    obtain rfl : control = _ := hc
    obtain rfl : fs = [] := heval m rfl
    rw [← Bool.not_eq_true]
    intro hw
    obtain ⟨τ, hτ, -⟩ := (hv.sound.lawful d _ (Store.outline_eq_some hq)).stacked.2 (by simpa using hw)
    exact absurd hτ List.not_mem_nil
  · next m hc => exact absurd hc (hforces m)
  · exact hd.elim

/-- Such steps are made of moves of the smooth kind. -/
theorem Smooth.grants (h : M.Smooth) (hv : Valid (M.scene H)) (hfit : M.Fit H)
    (hs : (M.scene H).Straight)
    (heval : ∀ m, M.control = .run (.evaluate m) → M.frames = []) : M.Grants .smooth M.step := by
  have hflawless := h.flawless hs.errorless
  refine ⟨⟨fun x hx hst ↦ ?_, .inl trivial, .inl trivial⟩, ?_,
    keepsLinking hfit h.forces heval hs.goals, .inr fun d hd ↦ ?_, .inr h.forces,
    .inr fun m hm ↦ absurd hm (h.forces m), .inr fun goal w hc ↦ ?_, .inr hflawless, h.acyclic⟩
  · obtain ⟨r, hr, hsearching⟩ := Store.source?_of_status? hst
    have hnot := not_walked_of_comesTo hv hs h.forces heval hx hr
    rw [hsearching] at hnot
    exact nomatch hnot
  · by_cases hload : ∃ t, M.control = .run t ∧ t.isLoad = true
    · obtain ⟨t, hc, hl⟩ := hload
      exact .inl (h.loads t hc hl)
    · refine .inr fun t hc ↦ ?_
      rw [← Bool.not_eq_true]
      exact fun hl ↦ hload ⟨t, hc, hl⟩
  · rcases hstep : M.walkStep? with _ | step
    · simp [lost, hstep] at hd
    · cases step with
      | failed e stack => exact absurd hstep (hflawless.walks e stack)
      | _ => simp [lost, hstep] at hd
  · obtain ⟨s, control, fs⟩ := M
    obtain rfl : control = _ := hc
    intro f r rest rs hf hrs
    refine hs.graph.loaded f.module r (hs.course.requests f (hf ▸ List.mem_cons_self) ?_)
    rw [hrs]
    exact List.mem_cons_self

end Machine

/-! ### Whole runs -/

theorem Store.Fresh.straight {s : Store} (h : s.Fresh) :
    ((State.idle s).scene []).Straight := by
  have hentered : s.Untouched := fun x r hr ↦ by
    rcases (h.source x r hr).1 with hs | hs | hs <;> rw [hs] <;> rfl
  refine ⟨fun hstarted ↦ ?_, fun x ↦ ?_, fun x r hr y hy ↦ ?_, fun x r hr hw ↦ ?_, fun x ↦ ?_,
    Nat.zero_le _, fun hT ↦ absurd rfl hT, List.forall_mem_nil _, List.forall_mem_nil _⟩
  · exact absurd hentered (hstarted.resolve_left (not_not_intro rfl))
  · rcases hx : s.source? x with _ | r
    · simp [State.scene, Store.cycleRoot, hx]
    · simp [State.scene, Store.cycleRoot, hx, (h.source x r hx).2.2.1]
  · rw [(h.source x r hr).2.2.2.2.2.1] at hy
    exact absurd hy List.not_mem_nil
  · have hnot := hentered x r hr
    rw [Status.isEntered_of_isWalked hw] at hnot
    contradiction
  · rcases hx : s.source? x with _ | r
    · simp [State.scene, Store.evaluationError?, hx]
    · simp [State.scene, Store.evaluationError?, hx, (h.source x r hx).2.1]

theorem Moves.straight {S S' : Scene} (hmoves : Moves .smooth S S') (hv : Valid S)
    (h : S.Straight) : S'.Straight := by
  induction hmoves with
  | refl => exact h
  | tail hmoves hmove ih => exact hmove.straight (Moves.valid hmoves hv) ih

/-- Such runs are made of moves of the smooth kind, and their walks are straight. -/
theorem Run.smooth {s₀ : Store} {st : State} {H : List Event} (hs : s₀.Fresh)
    (h : Run (fun M _ ↦ M.Smooth) s₀ st H) :
    Run (Machine.Grants .smooth) s₀ st H ∧ (st.scene H).Straight := by
  have hstraight : ∀ {st H}, Run (Machine.Grants .smooth) s₀ st H → (st.scene H).Straight :=
    fun h ↦ (h.moves (fun _ _ ↦ id) hs.valid).1.straight hs.valid hs.straight
  suffices hrun : Run (Machine.Grants .smooth) s₀ st H from ⟨hrun, hstraight hrun⟩
  induction h with
  | start => exact .start
  | call a _ ha ih => exact .call a ih ha
  | step _ he hP ih =>
    have hfit := (ih.moves (fun _ _ ↦ id) hs.valid).2 _ _ rfl
    exact .step ih he (hP.grants (ih.valid hs fun _ _ ↦ id) hfit (hstraight ih) he)
  | consult _ hq hs ih => exact .consult ih hq hs
  | answer as _ hq ih => exact .answer as ih hq
  | finish _ hr ih => exact .finish ih hr

end EcmaModules
