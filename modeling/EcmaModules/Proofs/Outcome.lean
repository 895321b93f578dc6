import EcmaModules.Proofs.Execution
import EcmaModules.Proofs.Final

/-!
# Outcomes are final

Once a module with source text has been evaluated, it stays so, and the error that it ended with, or
that there is none, never changes.

That does not hold of every run. A walk that fails marks whatever is left on its stack, and a module
there may have been evaluated in the meantime, by a walk that a body had started by reading from it.
And a module that is evaluated while it is being linked is given another status by linking. What is
proved is about the runs in which neither happens. Runs in which no walk executes a module that is
still being searched are among them (`Run.sparing`).
-/

namespace EcmaModules

/-! ## Steps of the machine -/

namespace Machine

/-- A walk that fails leaves no module on its stack that has been evaluated, and the status of a
module that is being linked is changed by linking only. -/
structure Sparing (M M' : Machine) : Prop where
  spares : ∀ m ∈ M.lost, M.store.status? m ≠ some .evaluated
  linking : M.links ∨ ∀ m, M.store.status? m = some .linking → M'.store.status? m = some .linking

end Machine

/-! ### Linking -/

theorem Task.linkTours_advance (s : Store) {t : Task} (hl : ∀ m, t ≠ .link m)
    (hl' : ∀ w, t ≠ .linking w) : (t.advance s).2.linkTours = [] := by
  cases ht : t.isWalk with
  | false => exact (Task.advance_quiet s ht).2.1.linkTours
  | true =>
    cases t with
    | force m =>
      simp only [Task.advance, Store.forceModule]
      split
      · rfl
      · rfl
      · exact EvaluationStep.linkTours_next _ _ _
    | evaluate m =>
      simp only [Task.advance, Store.evaluate]
      split
      · rfl
      · split
        · rfl
        · exact EvaluationStep.linkTours_next _ _ _
    | evaluation goal w => exact EvaluationStep.linkTours_next _ _ _
    | free ms =>
      rcases ms with _ | ⟨m, rest⟩
      · rfl
      · simp only [Task.advance]
        split <;> rfl
    | job j =>
      obtain ⟨reaction, c⟩ := j
      cases reaction <;> rcases c with e | ⟨⟩ <;> rfl
    | link m => exact absurd rfl (hl m)
    | linking w => exact absurd rfl (hl' w)
    | _ => contradiction

theorem Frame.linkTours_resume (s : Store) (r : Result) {f : Frame} (hf : ∀ m w, f ≠ .setUp m w) :
    (f.resume s r).2.linkTours = [] := by
  cases h : f.isWalk with
  | false => exact (Frame.resume_quiet s r h).2.1.linkTours
  | true =>
    cases f with
    | executed goal m capability w => exact EvaluationStep.linkTours_next _ _ _
    | passed goal w => exact EvaluationStep.linkTours_next _ _ _
    | freed m capability rest => rfl
    | setUp m w => exact absurd rfl (hf m w)
    | _ => exact nomatch h

/-- What holds of the walks that link goes on to hold, also when modules are evaluated meanwhile. -/
theorem Machine.step_linkage {M : Machine} (h : Linkage M.store M.linkTours)
    (hl : M.links ∨ M.store.KeepsLinking M.step.store M.linkTours) :
    Linkage M.step.store M.step.linkTours := by
  rcases hnext : M.next? with _ | x
  · rwa [step_of_next?_eq_none hnext]
  rw [step_of_next? hnext] at hl ⊢
  rw [store_apply] at hl ⊢
  rw [linkTours_apply]
  obtain ⟨s, control, fs⟩ := M
  rcases control with t | r
  · obtain rfl : x = t.advance s := advance_of_next? hnext
    by_cases hlink : ∃ m, t = .link m
    · obtain ⟨m, rfl⟩ := hlink
      exact (Task.link_inside (L := fs.flatMap Frame.linkTours) h m).2.2.2
    by_cases hlinking : ∃ w, t = .linking w
    · obtain ⟨w, rfl⟩ := hlinking
      exact (LinkWalk.advance_inside (L := fs.flatMap Frame.linkTours) h).2
    rw [not_exists] at hlink hlinking
    rw [Task.linkTours_advance s hlink hlinking]
    have htail : Linkage s (fs.flatMap Frame.linkTours) := by
      cases t with
      | linking w => exact absurd rfl (hlinking w)
      | _ => exact h
    refine htail.keep fun τ hτ ↦ hl.resolve_left ?_ τ (List.mem_append_right _ hτ)
    rintro (⟨w, hw⟩ | ⟨_, _, _, _, hr, -⟩)
    · exact hlinking w (Control.run.inj hw)
    · exact nomatch hr
  · rcases fs with _ | ⟨f, fs⟩
    · exact nomatch hnext
    obtain rfl : x = f.resume s r := (Option.some.inj hnext).symm
    by_cases hsetUp : ∃ m w, f = .setUp m w
    · obtain ⟨m, w, rfl⟩ := hsetUp
      exact (Frame.setUp_inside (L := fs.flatMap Frame.linkTours) h r).2.2.2
    simp only [not_exists] at hsetUp
    rw [Frame.linkTours_resume s r hsetUp]
    have htail : Linkage s (fs.flatMap Frame.linkTours) := by
      cases f with
      | setUp m w => exact absurd rfl (hsetUp m w)
      | _ => exact h
    refine htail.keep fun τ hτ ↦ hl.resolve_left ?_ τ (List.mem_append_right f.linkTours hτ)
    rintro (⟨w, hw⟩ | ⟨_, m, w, _, -, hf⟩)
    · exact nomatch hw
    · exact hsetUp m w (List.cons.inj hf).1

/-! ### Evaluation -/

/-- What has been evaluated stays as it is in every step, unless it is lost. -/
theorem Machine.step_final {M : Machine} (h : Linkage M.store M.linkTours)
    (hlost : ∀ m ∈ M.lost, M.store.status? m ≠ some .evaluated) : Final M.store M.step.store := by
  rcases hnext : M.next? with _ | x
  · rw [step_of_next?_eq_none hnext]
    exact .refl _
  rw [step_of_next? hnext, store_apply]
  obtain ⟨s, control, fs⟩ := M
  rcases control with t | r
  · obtain rfl : x = t.advance s := advance_of_next? hnext
    cases ht : t.isWalk with
    | false => exact .of_outline (Task.advance_quiet s ht).1.outline
    | true =>
      by_cases hlink : ∃ m, t = .link m
      · obtain ⟨m, rfl⟩ := hlink
        exact .of_outline (Task.link_inside (L := fs.flatMap Frame.linkTours) h m).1.outline
      by_cases hlinking : ∃ w, t = .linking w
      · obtain ⟨w, rfl⟩ := hlinking
        exact .of_outline (LinkWalk.advance_inside (L := fs.flatMap Frame.linkTours) h).1.outline
      refine .task s ht (not_exists.1 hlinking) (not_exists.1 hlink) ?_
      rintro goal w rfl e stack hstep
      have heq : (Machine.mk s (.run (.evaluation goal w)) fs).lost = stack :=
        lost_of_failed (congrArg some hstep)
      rwa [heq] at hlost
  · rcases fs with _ | ⟨f, fs⟩
    · exact nomatch hnext
    obtain rfl : x = f.resume s r := (Option.some.inj hnext).symm
    cases hf : f.isWalk with
    | false => exact .of_outline (Frame.resume_quiet s r hf).1.outline
    | true =>
      cases f with
      | executed goal m capability w =>
        refine (Final.executed s w m capability r.toCompletion).next goal fun e stack hstep ↦ ?_
        have heq : (Machine.mk s (.give r) (.executed goal m capability w :: fs)).lost = stack :=
          lost_of_failed (congrArg some hstep)
        rwa [heq] at hlost
      | passed goal w =>
        have hfinal : Final s (w.passed s r.toCompletion).1 := by
          unfold EvaluationWalk.passed
          split <;> exact .refl s
        refine hfinal.next goal fun e stack hstep ↦ ?_
        have heq : (Machine.mk s (.give r) (.passed goal w :: fs)).lost = stack :=
          lost_of_failed (congrArg some hstep)
        rwa [heq] at hlost
      | freed m capability rest => exact .finishFree s m capability _
      | setUp m w =>
        exact .of_outline (Frame.setUp_inside (L := fs.flatMap Frame.linkTours) h r).1.outline
      | _ => exact nomatch hf

/-! ## Runs -/

/-- What holds of the walks that link. -/
def State.Linked : State → Prop
  | .idle _ => True
  | .busy _ M => Linkage M.store M.linkTours

theorem Linkage.nil (s : Store) : Linkage s [] := ⟨List.nodup_nil, nofun, nofun⟩

theorem Act.begin_linked {s : Store} {a : Act} {st : State} (h : a.begin s = some st) :
    st.Linked := by
  cases a with
  | namespaceOf m phase =>
    obtain rfl := Option.some.inj h
    trivial
  | settle label c =>
    obtain ⟨p, -, rfl⟩ := Option.map_eq_some_iff.1 h
    trivial
  | job =>
    simp only [begin] at h
    split at h
    · contradiction
    · obtain rfl := Option.some.inj h
      exact .nil _
  | _ =>
    obtain rfl := Option.some.inj h
    exact .nil _

theorem Act.begin_final {s : Store} {a : Act} {st : State} (h : a.begin s = some st) :
    Final s st.store := by
  cases a with
  | namespaceOf m phase =>
    obtain rfl := Option.some.inj h
    exact .of_outline (s.namespaceOf_apart m phase).outline
  | settle label c =>
    obtain ⟨p, -, rfl⟩ := Option.map_eq_some_iff.1 h
    exact .of_modules (s.modules_settle p c)
  | job =>
    simp only [begin] at h
    split at h
    · contradiction
    · obtain rfl := Option.some.inj h
      exact .of_modules rfl
  | _ =>
    obtain rfl := Option.some.inj h
    exact .refl s

variable {s₀ : Store} {x y : State × List Event}

theorem Advance.linked {P : Machine → Machine → Prop}
    (hP : ∀ M M', P M M' → M.links ∨ M.store.KeepsLinking M'.store M.linkTours)
    (hxy : Advance P x y) (h : x.1.Linked) : y.1.Linked := by
  cases hxy with
  | call a ha => exact Act.begin_linked ha
  | step _ hstep => exact Machine.step_linkage h (hP _ _ hstep)
  | consult _ hs => exact Linkage.keep h fun _ _ m _ hm ↦ (hs.aside.steady.status m).trans hm
  | @answer a M H q as hq =>
    have hlinks : (M.answer as).linkTours = M.linkTours ∧ (M.answer as).store = M.store := by
      obtain ⟨s, control, fs⟩ := M
      unfold Machine.question? at hq
      split at hq
      · next hc =>
        obtain rfl : control = _ := hc
        exact ⟨rfl, rfl⟩
      · exact nomatch hq
    change Linkage _ _
    rw [hlinks.1, hlinks.2]
    exact h
  | finish _ => trivial

theorem Advance.final (hxy : Advance Machine.Sparing x y) (h : x.1.Linked) :
    Final x.1.store y.1.store := by
  cases hxy with
  | call a ha => exact Act.begin_final ha
  | step _ hstep => exact Machine.step_final h hstep.spares
  | consult _ hs => exact .of_outline hs.aside.outline
  | @answer a M H q as hq =>
    refine .of_modules ?_
    change (M.answer as).store.modules = M.store.modules
    unfold Machine.answer
    split <;> rfl
  | finish _ => exact .refl _

theorem Run.linked {P : Machine → Machine → Prop} {st : State} {H : List Event}
    (hP : ∀ M M', P M M' → M.links ∨ M.store.KeepsLinking M'.store M.linkTours)
    (h : Run P s₀ st H) : st.Linked := by
  have hlinked : ∀ {y : State × List Event}, Onward P (.idle s₀, []) y → y.1.Linked := by
    intro y hy
    induction hy with
    | refl => trivial
    | tail _ hxy ih => exact hxy.linked hP ih
  exact hlinked h.onward_start

/-- Whatever has been evaluated stays as it is for the rest of a run. -/
theorem Onward.final {x y : State × List Event} (h : Run Machine.Sparing s₀ x.1 x.2)
    (h' : Onward Machine.Sparing x y) : Final x.1.store y.1.store := by
  have hlinking : ∀ M M', Machine.Sparing M M' →
      M.links ∨ M.store.KeepsLinking M'.store M.linkTours :=
    fun _ _ hP ↦ hP.linking.imp id fun h _ _ x _ ↦ h x
  induction h' with
  | refl => exact .refl _
  | tail hy hxy ih => exact ih.trans (hxy.final ((h.onward hy).linked hlinking))

/-- The outcome of a module is final: once it has been evaluated, it stays so for the rest of the
run, and so does the error it ended with, or that there is none. -/
theorem outcome_final {st st' : State} {H H' : List Event} {m : ModuleId} {r : SourceText}
    (h : Run Machine.Sparing s₀ st H) (h' : Onward Machine.Sparing (st, H) (st', H'))
    (hm : st.store.source? m = some r) (hs : r.status = .evaluated) :
    ∃ r', st'.store.source? m = some r' ∧ r'.status = .evaluated ∧
      r'.evaluationError = r.evaluationError :=
  Onward.final h h' m r hm hs

/-! ### Orderly runs -/

namespace EvaluationWalk

variable {s : Store} {w : EvaluationWalk} {m : ModuleId} {e : ErrorId} {stack : List ModuleId}

theorem popExecuted_subset (s : Store) (root : ModuleId) (stack : List ModuleId) :
    (popExecuted s root stack).2 ⊆ stack := by
  induction stack generalizing s with
  | nil => exact List.Subset.refl _
  | cons m stack ih =>
    rw [popExecuted]
    split
    · exact List.subset_cons_self m stack
    · exact List.subset_cons_of_subset m (ih _)

theorem popSearched_subset (s : Store) (root : ModuleId) (stack : List ModuleId) :
    (popSearched s root stack).2 ⊆ stack := by
  induction stack generalizing s with
  | nil => exact List.Subset.refl _
  | cons m stack ih =>
    rw [popSearched]
    split
    · exact List.subset_cons_self m stack
    · exact List.subset_cons_of_subset m (ih _)

theorem stack_of_back {d : ModuleId} (h : (back s w d).2 = .failed e stack) :
    stack ⊆ w.stack := by
  unfold back at h
  split at h
  · exact nomatch h
  · split at h
    · exact nomatch h
    · rw [(EvaluationStep.failed.inj h).2]
      exact List.Subset.refl _

theorem stack_of_concludeExecuted (h : (concludeExecuted s w m).2 = .failed e stack) :
    stack ⊆ w.stack := by
  unfold concludeExecuted at h
  split at h
  · refine fun x hx ↦ popExecuted_subset s m w.stack ?_
    exact (List.dropWhile_suffix _).subset (stack_of_back h hx)
  · exact stack_of_back h

theorem stack_of_concludeSearched (h : (concludeSearched s w m).2 = .failed e stack) :
    stack ⊆ w.stack := by
  rw [concludeSearched_eq] at h
  split at h
  · exact fun x hx ↦ popSearched_subset _ m w.stack (stack_of_back h hx)
  · exact stack_of_back h

theorem stack_of_arrive {t : Traversal} (h : (arrive s w m t).2 = .failed e stack) :
    stack ⊆ w.stack := by
  unfold arrive at h
  split at h
  · exact nomatch h
  · split at h
    · rw [(EvaluationStep.failed.inj h).2]
      exact List.Subset.refl _
    · exact stack_of_back h
    · exact nomatch h

theorem stack_of_execute (h : (execute s w m).2 = .failed e stack) : stack ⊆ w.stack := by
  unfold execute at h
  split at h
  · exact nomatch h
  · split at h
    · exact stack_of_concludeExecuted h
    · split at h <;> exact nomatch h

theorem stack_of_executed {capability : Option PromiseId} {c : Completion}
    (h : (w.executed s m capability c).2 = .failed e stack) : stack ⊆ w.stack := by
  unfold executed at h
  split at h
  · exact stack_of_concludeExecuted h
  · exact stack_of_concludeExecuted h
  · rw [(EvaluationStep.failed.inj h).2]
    exact List.Subset.refl _

theorem stack_of_passed {c : Completion} (h : (w.passed s c).2 = .failed e stack) :
    stack ⊆ w.stack := by
  unfold passed at h
  split at h
  · exact nomatch h
  · rw [(EvaluationStep.failed.inj h).2]
    exact List.Subset.refl _

theorem stack_of_advance (h : (w.advance s).2 = .failed e stack) : stack ⊆ w.stack := by
  unfold advance at h
  split at h
  · exact nomatch h
  · exact (stack_of_execute h :)
  · exact (stack_of_concludeSearched h :)
  · dsimp only at h
    split at h
    · exact (stack_of_arrive h :)
    · exact nomatch h

end EvaluationWalk

/-- What a walk that fails leaves on its stack was there before. -/
theorem Machine.mem_stack_of_mem_lost {M : Machine} {m : ModuleId} (h : m ∈ M.lost) :
    ∃ τ ∈ M.tours, m ∈ τ.walk.stack := by
  obtain ⟨s, control, fs⟩ := M
  unfold lost at h
  split at h
  next e stack hstep =>
    unfold walkStep? at hstep
    split at hstep
    next goal w hc =>
      obtain rfl : control = _ := hc
      exact ⟨_, List.mem_cons_self, EvaluationWalk.stack_of_advance (Option.some.inj hstep) h⟩
    next r goal x capability w fs' hc hf =>
      obtain rfl : control = _ := hc
      obtain rfl : fs = _ := hf
      exact ⟨_, List.mem_cons_self, EvaluationWalk.stack_of_executed (Option.some.inj hstep) h⟩
    next r goal w fs' hc hf =>
      obtain rfl : control = _ := hc
      obtain rfl : fs = _ := hf
      exact ⟨_, List.mem_cons_self, EvaluationWalk.stack_of_passed (Option.some.inj hstep) h⟩
    next => exact nomatch hstep
  next => exact absurd h List.not_mem_nil

/-- In orderly runs, whatever is on the stack of a walk is still being walked. So no module that has
been evaluated is lost. -/
theorem Machine.Orderly.sparing {M M' : Machine} {H : List Event} (h : M.Orderly M')
    (hv : Valid (M.scene H)) : M.Sparing M' := by
  refine ⟨fun m hm hst ↦ ?_, h.linking⟩
  obtain ⟨τ, hτ, hmem⟩ := Machine.mem_stack_of_mem_lost hm
  obtain ⟨r, hr, hs⟩ := Store.source?_of_status? hst
  have hwalked := (hv.sound.lawful m _ (Store.outline_eq_some hr)).stacked.1 ⟨τ, hτ, hmem⟩
  simp [hs, Status.outline, Status.isWalked] at hwalked

theorem Onward.sparing {x y : State × List Event} (hs : s₀.Fresh)
    (h : Run Machine.Orderly s₀ x.1 x.2) (h' : Onward Machine.Orderly x y) :
    Onward Machine.Sparing x y := by
  induction h' with
  | refl => exact .refl
  | tail hy hxy ih =>
    refine ih.tail ?_
    cases hxy with
    | call a ha => exact .call a ha
    | step heval hstep =>
      have hv := (h.onward hy).valid hs fun _ _ ↦ Machine.Orderly.grants
      exact .step heval (hstep.sparing hv)
    | consult hq hs => exact .consult hq hs
    | answer as hq => exact .answer as hq
    | finish hr => exact .finish hr

theorem Run.sparing {st : State} {H : List Event} (hs : s₀.Fresh)
    (h : Run Machine.Orderly s₀ st H) : Run Machine.Sparing s₀ st H :=
  Run.onward (x := (.idle s₀, [])) (y := (st, H)) .start (Onward.sparing hs .start h.onward_start)

/-! ### Graphs for which it holds, and does not -/

/-- Whether a step is sparing can be checked. -/
def Machine.checkSparing (M M' : Machine) : Bool :=
  M.lost.all (fun m ↦ M.store.status? m != some .evaluated) &&
    (List.range M.store.modules.size).all fun i ↦
      M.isLinking || M.store.status? ⟨i⟩ != some .linking || M'.store.status? ⟨i⟩ == some .linking

theorem Machine.sparing_of_check {M M' : Machine} (h : M.checkSparing M' = true) :
    M.Sparing M' := by
  rw [checkSparing, Bool.and_eq_true] at h
  refine ⟨fun m hm ↦ ?_, ?_⟩
  · simpa using List.all_eq_true.1 h.1 m hm
  · by_cases hl : M.isLinking = true
    · exact .inl (links_of_isLinking hl)
    · refine .inr fun ⟨i⟩ hst ↦ ?_
      have hlt : i < M.store.modules.size := by
        refine Store.index_lt_of_source (m := ⟨i⟩) ?_
        rw [Store.status?] at hst
        exact Option.isSome_of_mem (Option.map_eq_some_iff.1 hst).choose_spec.1
      have := List.all_eq_true.1 h.2 i (List.mem_range.2 hlt)
      simpa [hl, hst] using this

/-- A deferred module that fails when it is read, and one that imports it. -/
def brokenGraph : Store where
  modules := #[.scripted false [("broken", .defer, 1)] [],
    .scripted false [] [.throw .error "broken"],
    .scripted false [("broken", .evaluation, 1)] []]

/-- The graph when the module has been read. -/
def brokenRead : Store × List Event :=
  (brokenGraph.play Machine.checkSparing 100
    [.evaluate ⟨0⟩, .namespaceOf ⟨1⟩ .defer, .read ⟨0⟩ "x"] []).get (by decide +kernel)

/-- The graph when the module has been imported and read once more. -/
def brokenReadAgain : Store × List Event :=
  (brokenRead.1.play Machine.checkSparing 100 [.evaluate ⟨2⟩, .read ⟨0⟩ "x"] brokenRead.2).get
    (by decide +kernel)

theorem outcome_final_brokenGraph :
    Run Machine.Sparing brokenGraph (.idle brokenRead.1) brokenRead.2 ∧
      Onward Machine.Sparing (.idle brokenRead.1, brokenRead.2)
        (.idle brokenReadAgain.1, brokenReadAgain.2) ∧
      brokenRead.1.status? ⟨1⟩ = some .evaluated ∧
      brokenRead.1.evaluationError? ⟨1⟩ = some ⟨0⟩ ∧
      ∃ r, brokenReadAgain.1.source? ⟨1⟩ = some r ∧ r.status = .evaluated ∧
        r.evaluationError = some ⟨0⟩ := by
  have hrun : Run Machine.Sparing brokenGraph (.idle brokenRead.1) brokenRead.2 :=
    Run.ofPlay Machine.checkSparing brokenGraph 100 _ (fun _ _ ↦ Machine.sparing_of_check) _
  have honward : Onward Machine.Sparing (.idle brokenRead.1, brokenRead.2)
      (.idle brokenReadAgain.1, brokenReadAgain.2) :=
    Onward.ofPlay Machine.checkSparing brokenRead 100 _ (fun _ _ ↦ Machine.sparing_of_check) _
  have hstatus : brokenRead.1.status? ⟨1⟩ = some .evaluated := by decide +kernel
  have herror : brokenRead.1.evaluationError? ⟨1⟩ = some ⟨0⟩ := by decide +kernel
  obtain ⟨r, hr, hs⟩ := Store.source?_of_status? hstatus
  have he : r.evaluationError = some ⟨0⟩ := by simpa [Store.evaluationError?, hr] using herror
  obtain ⟨r', hr', hs', he'⟩ := outcome_final hrun honward hr hs
  exact ⟨hrun, honward, hstatus, herror, r', hr', hs', he'.trans he⟩

/-- The deferred module imports the one that reads from it and fails afterwards. -/
def reenteredGraph : Store where
  modules := #[.scripted false [("dep", .defer, 1)]
      [.exposeModule "dep" .defer, .readExposed "x", .throw .error "late"],
    .scripted false [("main", .evaluation, 0)] []]
  stage := { modules := [("dep", ⟨1⟩)] }

/-- The call that evaluates the graph, when the deferred module has been read. -/
def reenteredRead : Machine × List Event :=
  ((Machine.start reenteredGraph (.evaluate ⟨0⟩)).playSteps (fun _ _ ↦ true) 15 []).get
    (by decide +kernel)

/-- The call that evaluates the graph, when the module that has read has failed. -/
def reenteredFailed : Machine × List Event :=
  (reenteredRead.1.playSteps (fun _ _ ↦ true) 3 reenteredRead.2).get (by decide +kernel)

/-- The deferred module has been evaluated without an error, and has one afterwards. -/
theorem reenteredGraph_outcome_changes :
    reenteredGraph.Fresh ∧
      Run (fun _ _ ↦ True) reenteredGraph (.busy (.evaluate ⟨0⟩) reenteredRead.1) reenteredRead.2 ∧
      Onward (fun _ _ ↦ True) (.busy (.evaluate ⟨0⟩) reenteredRead.1, reenteredRead.2)
        (.busy (.evaluate ⟨0⟩) reenteredFailed.1, reenteredFailed.2) ∧
      reenteredRead.1.store.status? ⟨1⟩ = some .evaluated ∧
      reenteredRead.1.store.evaluationError? ⟨1⟩ = none ∧
      reenteredFailed.1.store.status? ⟨1⟩ = some .evaluated ∧
      reenteredFailed.1.store.evaluationError? ⟨1⟩ = some ⟨0⟩ := by
  have hstart : Run (fun _ _ ↦ True) reenteredGraph
      (.busy (.evaluate ⟨0⟩) (.start reenteredGraph (.evaluate ⟨0⟩))) [] :=
    .call (.evaluate ⟨0⟩) .start rfl
  have hread : Onward (fun _ _ ↦ True)
      (.busy (.evaluate ⟨0⟩) (.start reenteredGraph (.evaluate ⟨0⟩)), [])
      (.busy (.evaluate ⟨0⟩) reenteredRead.1, reenteredRead.2) :=
    Onward.ofPlaySteps (fun _ _ ↦ true) _ 15 (_, []) (fun _ _ _ ↦ trivial) _
  have hfailed : Onward (fun _ _ ↦ True) (.busy (.evaluate ⟨0⟩) reenteredRead.1, reenteredRead.2)
      (.busy (.evaluate ⟨0⟩) reenteredFailed.1, reenteredFailed.2) :=
    Onward.ofPlaySteps (fun _ _ ↦ true) _ 3 reenteredRead (fun _ _ _ ↦ trivial) _
  refine ⟨Store.fresh_of_scripted (l := [(false, [("dep", .defer, 1)],
    [.exposeModule "dep" .defer, .readExposed "x", .throw .error "late"]),
    (false, [("main", .evaluation, 0)], [])]) rfl rfl rfl, hstart.onward hread, hfailed, ?_⟩
  decide +kernel

end EcmaModules
