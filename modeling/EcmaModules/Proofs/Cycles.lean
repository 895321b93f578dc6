import EcmaModules.Proofs.Answering

/-!
# One promise for a circle

Modules that request each other in a circle share the promise of their evaluation: once they settle
without an error, and evaluating one of them has given a promise, evaluating any of them gives the
same one for the rest of the run.

That does not hold of every run. A walk that comes to a module that has been evaluated, when the root
of its component is not on the stack, has the module stand for itself from then on: the module then
forgets the promise that is kept at the root, and gets another one when it is evaluated. And a body
may have a module evaluated by reading from it while the circle that the module is part of is being
walked; that cuts the circle in two. What is proved is about the runs in which neither happens, in
graphs in which all requests are for evaluation.
-/

namespace EcmaModules

/-! ## Runs -/

/-- No module that has been evaluated comes to stand for itself, no walk starts while another one is
under way, walks come to nothing that was not loaded, and the status of a module that is being linked
is changed by linking only. -/
structure Machine.Steadfast (M M' : Machine) : Prop where
  roots : ∀ m, M.store.status? m = some .evaluated → M'.store.cycleRoot m = M.store.cycleRoot m
  nests : ∀ m, M.control = .run (.force m) → M.tours = []
  loaded : ∀ goal w, M.control = .run (.evaluation goal w) → w.Loaded M.store
  linking : M.links ∨ ∀ m, M.store.status? m = some .linking → M'.store.status? m = some .linking

/-- Everything may happen, but that modules come to stand for themselves, that walks start while
others are under way, and that they pass over requests. -/
def Mode.steadfast : Mode :=
  ⟨fun _ ↦ True, fun _ ↦ True, True, True, False, True, False, True, False⟩

/-- Nothing is searched when all requests are for evaluation. -/
theorem Machine.Steadfast.grants {M M' : Machine} {H : List Event} (h : M.Steadfast M')
    (he : (M.scene H).Eager) : M.Grants .steadfast M' := by
  refine ⟨⟨fun x _ hx ↦ ?_, .inl trivial, .inr h.roots⟩, .inl trivial,
    h.linking.imp id fun h _ _ x _ ↦ h x, .inl trivial, .inl trivial, .inr h.nests, .inr h.loaded,
    .inl trivial, fun _ _ ↦ trivial⟩
  obtain ⟨r, hr, hs⟩ := Store.source?_of_status? hx
  have := he.status x r hr
  simp [hs, Status.isSearched] at this

/-- In the beginning nothing has been done that could be wrong. -/
theorem Store.Fresh.whole {s : Store} (h : s.Fresh) (he : s.EvaluationOnly) :
    ((State.idle s).scene []).Whole := by
  have hstatus : ∀ x r, s.source? x = some r → r.status.isSettling = false ∧
      r.status.isSearched = false := fun x r hr ↦ by
    rcases (h.source x r hr).1 with hs | hs | hs <;> rw [hs] <;> exact ⟨rfl, rfl⟩
  have hroot : ∀ x, s.root? x = none := fun x ↦ by
    rcases hr : s.source? x with _ | r
    · simp [Store.root?, hr]
    · rw [Store.root?_eq hr]
      exact (h.source x r hr).2.2.1
  have hcapability : ∀ x, s.capability? x = none := fun x ↦ by
    rcases hr : s.source? x with _ | r
    · simp [Store.capability?, hr]
    · simp [Store.capability?, hr, (h.source x r hr).2.2.2.2.1]
  refine ⟨h.valid, ⟨he, fun x r hr ↦ (hstatus x r hr).2, List.forall_mem_nil _⟩, fun x r hr hs ↦ ?_,
    ⟨⟨fun x r hr hsome ↦ ?_, fun x hx ↦ ?_⟩, Nat.zero_le _, List.forall_mem_nil _⟩,
    ⟨fun x c hx ↦ ?_, fun x y hx ↦ ?_⟩,
    List.forall_mem_nil _, fun x hx ↦ ?_⟩
  · exact absurd (hs.symm.trans (hstatus x r hr).1) (by simp)
  · rw [(h.source x r hr).2.2.1] at hsome
    contradiction
  · exact absurd ((hroot x).symm ▸ hx) (by simp)
  · exact absurd ((hroot x).symm.trans hx) (by simp)
  · exact absurd ((hroot x).symm ▸ hx) (by simp)
  · exact absurd ((hcapability x).symm ▸ hx) (by simp)

/-- What a state leads to at once. -/
theorem Advance.whole {x y : State × List Event} (h : (x.1.scene x.2).Whole)
    (hfit : ∀ a M, x.1 = .busy a M → M.Fit x.2) (hxy : Advance Machine.Steadfast x y) :
    ((y.1.scene y.2).Whole ∧ x.1.store.Evolves y.1.store) ∧
      ∀ a M, y.1 = .busy a M → M.Fit y.2 := by
  obtain ⟨st, H⟩ := x
  have hgrants : ∀ a M, st = .busy a M → M.Steadfast M.step → M.Grants .steadfast M.step := by
    rintro a M rfl hstep
    exact hstep.grants h.eager
  obtain ⟨hmoves, hfit'⟩ := hxy.moves hgrants h.valid hfit
  have hwhole := hmoves.whole ⟨not_false, not_false, not_false⟩ h
  rw [State.store_scene, State.store_scene] at hwhole
  exact ⟨hwhole, hfit'⟩

/-! ## What a call gives -/

namespace Store

/-- Evaluating the module starts there, or at the root of its component. -/
def Leads (s : Store) (m root : ModuleId) : Prop :=
  root = m ∨ ∃ r, s.source? m = some r ∧ r.status.isSettling = true ∧ r.cycleRoot = some root

/-- The module has failed, or is settled and its root has the promise. -/
def Answered (s : Store) (m : ModuleId) (p : PromiseId) : Prop :=
  ∀ r, s.source? m = some r → r.hasFailed ∨
    r.status.isSettling = true ∧ ∃ c, r.cycleRoot = some c ∧ s.capability? c = some p

variable {s s' : Store} {m root : ModuleId} {p : PromiseId}

theorem Leads.evolves (h : s.Leads m root) (hs : s.Evolves s') : s'.Leads m root := by
  refine h.imp id fun ⟨r, hr, hsettling, hroot⟩ ↦ ?_
  obtain ⟨r', hr', hevolves⟩ := hs.after hr
  obtain ⟨hsettling', heq⟩ := hevolves.settling hsettling
  exact ⟨r', hr', hsettling', heq.trans hroot⟩

theorem Answered.evolves (h : s.Answered m p) (hs : s.Evolves s') : s'.Answered m p := by
  intro r' hr'
  obtain ⟨r, hr, hevolves⟩ := hs.before hr'
  refine (h r hr).imp (fun hf ↦ (hevolves.hasFailed hf).1) fun ⟨hsettling, c, hc, hp⟩ ↦ ?_
  obtain ⟨hsettling', heq⟩ := hevolves.settling hsettling
  exact ⟨hsettling', c, heq.trans hc, hs.capability? hp⟩

theorem Leads.answered (h : s.Leads m root) (hroot : s.Speaks root)
    (hp : s.capability? root = some p) : s.Answered m p := by
  intro r hr
  rcases h with rfl | ⟨q, hq, hs, hc⟩
  · obtain ⟨q, hq, hspeaks⟩ := hroot
    obtain rfl := Option.some.inj (hr.symm.trans hq)
    exact hspeaks.imp id fun ⟨hs, hc⟩ ↦ ⟨hs, _, hc, hp⟩
  · obtain rfl := Option.some.inj (hr.symm.trans hq)
    exact .inr ⟨hs, _, hc, hp⟩

theorem leads_evaluationRoot (hm : (s.source? m).isSome) : s.Leads m (s.evaluationRoot m) := by
  obtain ⟨r, hr⟩ := Option.isSome_iff_exists.1 hm
  have hstatus : (s.status? m).any (·.isSettling) = r.status.isSettling := by
    simp [status?, hr]
  unfold evaluationRoot
  rw [hstatus]
  cases hsettling : r.status.isSettling with
  | false => exact .inl rfl
  | true =>
    rw [if_pos rfl, cycleRoot, hr, Option.bind_some]
    rcases hroot : r.cycleRoot with _ | c
    · exact .inl rfl
    · exact .inr ⟨r, hr, hsettling, hroot⟩

theorem capability?_of_source (h : ∀ x, s'.source? x = s.source? x) (x : ModuleId) :
    s'.capability? x = s.capability? x := by
  rw [capability?, h x, capability?]

end Store

namespace EvaluationGoal

/-- A frame waits for a walk with the goal. -/
def Awaited (goal : EvaluationGoal) (f : Frame) : Prop :=
  (∃ m c w, f = .executed goal m c w) ∨ ∃ w, f = .passed goal w

end EvaluationGoal

namespace Machine

/-- At the bottom of the machine is a walk with the goal. -/
def Heads (M : Machine) (goal : EvaluationGoal) : Prop :=
  (∃ w, M.control = .run (.evaluation goal w) ∧ M.frames = []) ∨
    ∃ f, M.frames.getLast? = some f ∧ goal.Awaited f

/-- The call is over with a promise. -/
def Gives (M : Machine) (p : PromiseId) : Prop := M.control = .give (.promise p) ∧ M.frames = []

variable {M : Machine} {s : Store} {root m : ModuleId} {p : PromiseId} {fs : List Frame}

theorem heads_next (s : Store) (root : ModuleId) (p : PromiseId) (step : EvaluationStep) :
    (apply [] (step.next s (.promise root p))).Heads (.promise root p) ∨
      (apply [] (step.next s (.promise root p))).Gives p := by
  cases step with
  | done => exact .inr ⟨rfl, rfl⟩
  | failed e stack => exact .inr ⟨rfl, rfl⟩
  | go w => exact .inl (.inl ⟨w, rfl, rfl⟩)
  | synthetic m w => exact .inl (.inr ⟨_, rfl, .inr ⟨w, rfl⟩⟩)
  | execute m c w => exact .inl (.inr ⟨_, rfl, .inl ⟨m, c, w, rfl⟩⟩)

/-- Something comes on top of what is at the bottom. -/
theorem heads_apply {goal : EvaluationGoal} {f : Frame} (x : Store × Next)
    (h : fs.getLast? = some f) (hf : goal.Awaited f) : (apply fs x).Heads goal := by
  obtain ⟨s, n⟩ := x
  cases n with
  | goto t => exact .inr ⟨f, h, hf⟩
  | give r => exact .inr ⟨f, h, hf⟩
  | call t g =>
    refine .inr ⟨f, ?_, hf⟩
    rcases fs with _ | ⟨f', fs⟩
    · exact nomatch h
    · change (g :: f' :: fs).getLast? = some f
      rw [List.getLast?_cons_cons, h]

/-- The walk at the bottom stays there until the call is over. -/
theorem heads_step (h : M.Heads (.promise root p)) :
    M.step.Heads (.promise root p) ∨ M.step.Gives p := by
  obtain ⟨s, control, fs⟩ := M
  rcases h with ⟨w, hc, hfs⟩ | ⟨f, hlast, hf⟩
  · obtain rfl : control = _ := hc
    obtain rfl : fs = [] := hfs
    exact heads_next _ root p _
  · replace hlast : fs.getLast? = some f := hlast
    rcases control with t | r
    · cases t with
      | ask q => exact .inl (.inr ⟨f, hlast, hf⟩)
      | _ => exact .inl (heads_apply _ hlast hf)
    · rcases fs with _ | ⟨g, _ | ⟨f', fs⟩⟩
      · exact nomatch hlast
      · obtain rfl : g = f := Option.some.inj hlast
        rcases hf with ⟨m, c, w, rfl⟩ | ⟨w, rfl⟩ <;> exact heads_next _ root p _
      · rw [List.getLast?_cons_cons] at hlast
        exact .inl (heads_apply _ hlast hf)

/-- The walk at the bottom is one of the walks that are under way. -/
theorem Heads.tour {goal : EvaluationGoal} (h : M.Heads goal) : ∃ τ ∈ M.tours, τ.goal = goal := by
  obtain ⟨s, control, fs⟩ := M
  rcases h with ⟨w, hc, hfs⟩ | ⟨f, hlast, hf⟩
  · obtain rfl : control = _ := hc
    exact ⟨_, List.mem_cons_self, rfl⟩
  · have hmem : ∀ τ ∈ f.tours, τ ∈ (Machine.mk s control fs).tours := fun τ hτ ↦
      List.mem_append_right _ (List.mem_flatMap.2 ⟨f, List.mem_of_getLast? hlast, hτ⟩)
    rcases hf with ⟨m, c, w, rfl⟩ | ⟨w, rfl⟩
    · exact ⟨_, hmem _ List.mem_cons_self, rfl⟩
    · exact ⟨_, hmem _ List.mem_cons_self, rfl⟩

/-- How far the machine is with evaluating a module that was called for: it has not begun, there is
nothing to be evaluated, a walk is at the bottom, or the call is over. -/
def Answers (M : Machine) (m : ModuleId) : Prop :=
  (M.control = .run (.evaluate m) ∧ M.frames = []) ∨ M.store.source? m = none ∨
    (∃ root p, M.Heads (.promise root p) ∧ M.store.Leads m root) ∨
    ∃ p, M.Gives p ∧ M.store.Answered m p

/-- When a call is over no walk is under way, so whatever has a promise has failed or stands for its
component. -/
theorem Gives.speaks {q : PromiseId} {H : List Event} (h : M.Gives q) (hwhole : (M.scene H).Whole)
    (hp : M.store.capability? root = some p) : M.store.Speaks root := by
  refine (hwhole.minded root (Option.isSome_of_mem hp)).resolve_right ?_
  rintro ⟨τ, hτ, -⟩
  obtain ⟨s, control, fs⟩ := M
  obtain ⟨hc, hfs⟩ := h
  obtain rfl : control = _ := hc
  obtain rfl : fs = [] := hfs
  exact absurd hτ List.not_mem_nil

/-- A walk that ends as soon as it starts has failed, and its promise is where it belongs. -/
theorem capability?_of_start {s : Store} (hs : s.capability? root = some p)
    (h : (apply [] ((EvaluationWalk.start s root).2.next (EvaluationWalk.start s root).1
      (.promise root p))).Gives p) :
    (apply [] ((EvaluationWalk.start s root).2.next (EvaluationWalk.start s root).1
      (.promise root p))).store.capability? root = some p := by
  unfold EvaluationWalk.start EvaluationWalk.arrive at h ⊢
  split at h
  · exact nomatch h.1
  · next hr =>
    simp only at h ⊢
    split at h
    · next e ha =>
      have hsource := (EvaluationGoal.promise root p).source?_fail s List.nodup_nil e
      have hsame := Store.capability?_of_source (s := s) (fun x ↦ (hsource x).trans
        (if_neg List.not_mem_nil)) root
      exact hsame.trans hs
    · exact nomatch h.1
    · exact nomatch h.1

/-- Every step gets on with the call. -/
theorem answers_step {H H' : List Event} (h : M.Answers m) (hwhole : (M.scene H).Whole)
    (hwhole' : (M.step.scene H').Whole) (hevolves : M.store.Evolves M.step.store) :
    M.step.Answers m := by
  have hgives : ∀ {root p}, M.store.Leads m root → M.step.store.capability? root = some p →
      M.step.Gives p → M.step.Answers m := fun hleads hp hover ↦
    .inr (.inr (.inr ⟨_, hover, (hleads.evolves hevolves).answered (hover.speaks hwhole' hp) hp⟩))
  rcases h with ⟨hc, hfs⟩ | hnone | ⟨root, p, hheads, hleads⟩ | ⟨p, hover, hanswered⟩
  · obtain ⟨s, control, fs⟩ := M
    obtain rfl : control = _ := hc
    obtain rfl : fs = [] := hfs
    rcases hm : s.source? m with _ | r
    · have hstep : (Machine.mk s (.run (.evaluate m)) []).step =
          apply [] (s, .call (.synthetic m) .syntheticPromise) := by
        simp [step, Task.advance, Store.evaluate, hm]
      refine .inr (.inl ?_)
      rw [hstep]
      exact hm
    have hleads : s.Leads m (s.evaluationRoot m) :=
      Store.leads_evaluationRoot (Option.isSome_of_mem hm)
    rcases hp : s.capability? (s.evaluationRoot m) with _ | p
    · -- the walk starts
      have hstep : (Machine.mk s (.run (.evaluate m)) []).step =
          apply [] ((EvaluationWalk.start (s.newCapability (s.evaluationRoot m)).2
            (s.evaluationRoot m)).2.next (EvaluationWalk.start
              (s.newCapability (s.evaluationRoot m)).2 (s.evaluationRoot m)).1
                (.promise (s.evaluationRoot m) (s.newCapability (s.evaluationRoot m)).1)) := by
        simp [step, Task.advance, Store.evaluate, hm, hp]
      rw [hstep] at hgives hevolves ⊢
      rcases heads_next _ _ _ _ with hheads | hover
      · exact .inr (.inr (.inl ⟨_, _, hheads, hleads.evolves hevolves⟩))
      · refine hgives hleads (capability?_of_start ?_ hover) hover
        have hsource : ∃ r, s.source? (s.evaluationRoot m) = some r := by
          rcases Store.speaks_evaluationRoot hwhole.valid.sound hwhole.composed.complete
            hwhole.shared hwhole.represented (Option.isSome_of_mem hm) with ⟨r, hr, -⟩ | ⟨r, hr, -⟩ <;>
              exact ⟨r, hr⟩
        obtain ⟨r, hr⟩ := hsource
        rw [Store.capability?_newCapability, if_pos rfl, hr]
        rfl
    · have hstep : (Machine.mk s (.run (.evaluate m)) []).step =
          ⟨s, .give (.promise p), []⟩ := by
        simp [step, Task.advance, Store.evaluate, hm, hp, apply]
      refine hgives hleads (p := p) ?_ ?_ <;> rw [hstep]
      · exact hp
      · exact ⟨rfl, rfl⟩
  · refine .inr (.inl ?_)
    exact hevolves.none hnone
  · rcases heads_step hheads with hheads' | hover
    · exact .inr (.inr (.inl ⟨root, p, hheads', hleads.evolves hevolves⟩))
    · obtain ⟨τ, hτ, hgoal⟩ := hheads.tour
      exact hgives hleads (hevolves.capability? (hwhole.promised τ hτ root p hgoal)) hover
  · obtain ⟨s, control, fs⟩ := M
    obtain ⟨hc, hfs⟩ := hover
    obtain rfl : control = _ := hc
    obtain rfl : fs = [] := hfs
    exact .inr (.inr (.inr ⟨p, ⟨rfl, rfl⟩, hanswered⟩))

/-- A step does not end a call. -/
theorem not_done_mem_events {a : Act} {r : Result} (M : Machine) : .done a r ∉ M.events := by
  have hbegan : ∀ n : Next, .done a r ∉ n.began := fun n h ↦ by
    unfold Next.began at h
    split at h <;> simp at h
  have hended : .done a r ∉ M.ended := fun h ↦ by
    unfold Machine.ended at h
    split at h <;> simp at h
  unfold events
  split
  · next n _ =>
    intro h
    exact (List.mem_append.1 h).elim (hbegan n) hended
  · exact List.not_mem_nil

end Machine

/-! ### Whole runs -/

/-- What holds in the course of a run. -/
structure Coherent (x : State × List Event) : Prop where
  whole : (x.1.scene x.2).Whole
  fit : ∀ a M, x.1 = .busy a M → M.Fit x.2
  answers : ∀ m M, x.1 = .busy (.evaluate m) M → M.Answers m
  answered : ∀ m p, .done (.evaluate m) (.promise p) ∈ x.2 → x.1.store.Answered m p

variable {s₀ : Store} {x y : State × List Event}

theorem Store.Fresh.coherent (hs : s₀.Fresh) (he : s₀.EvaluationOnly) : Coherent (.idle s₀, []) :=
  ⟨hs.whole he, fun _ _ h ↦ absurd h State.idle_ne_busy, fun _ _ h ↦ absurd h State.idle_ne_busy,
    fun _ _ h ↦ absurd h List.not_mem_nil⟩

/-- Answers stand while modules evolve. -/
theorem Machine.Answers.evolves {M M' : Machine} {m : ModuleId} (h : M.Answers m)
    (hs : M.store.Evolves M'.store) (hc : M'.control = M.control) (hfs : M'.frames = M.frames) :
    M'.Answers m := by
  unfold Answers Heads Gives at h ⊢
  rw [hc, hfs]
  refine h.imp id (Or.imp (fun hnone ↦ hs.none hnone) (Or.imp ?_ ?_))
  · rintro ⟨root, p, hheads, hleads⟩
    exact ⟨root, p, hheads, hleads.evolves hs⟩
  · rintro ⟨p, hgives, hanswered⟩
    exact ⟨p, hgives, hanswered.evolves hs⟩

/-- All of this stays, and modules evolve. -/
theorem Advance.coherent (hxy : Advance Machine.Steadfast x y) (h : Coherent x) :
    Coherent y ∧ x.1.store.Evolves y.1.store := by
  obtain ⟨⟨hwhole, hevolves⟩, hfit⟩ := hxy.whole h.whole h.fit
  have hold : ∀ m p, .done (.evaluate m) (.promise p) ∈ x.2 → y.1.store.Answered m p :=
    fun m p hm ↦ (h.answered m p hm).evolves hevolves
  refine ⟨⟨hwhole, hfit, ?_, ?_⟩, hevolves⟩
  · cases hxy with
    | call a ha =>
      rintro m M rfl
      cases a with
      | namespaceOf m' phase => cases ha
      | settle label c =>
        obtain ⟨p, -, hst⟩ := Option.map_eq_some_iff.1 ha
        contradiction
      | job =>
        simp only [Act.begin] at ha
        split at ha
        · contradiction
        · cases ha
      | evaluate m' =>
        cases ha
        exact .inl ⟨rfl, rfl⟩
      | _ => cases ha
    | step heval hstep =>
      rintro m M' hM
      cases hM
      exact Machine.answers_step (h.answers _ _ rfl) h.whole hwhole hevolves
    | consult hq hs =>
      rintro m M' hM
      cases hM
      exact (h.answers _ _ rfl).evolves hevolves rfl rfl
    | @answer a M H q as hq =>
      rintro m M' hM
      cases hM
      have hc := Machine.control_of_question? hq
      -- what is at the bottom has not come up yet
      rcases h.answers _ _ rfl with ⟨hc', -⟩ | hnone | ⟨root, p, hheads, hleads⟩ | ⟨p, hgives, -⟩
      · exact absurd (hc.symm.trans hc') (by simp)
      · exact .inr (.inl (hevolves.none hnone))
      · refine .inr (.inr (.inl ⟨root, p, ?_, hleads.evolves hevolves⟩))
        rcases hheads with ⟨w, hc', -⟩ | hbelow
        · exact absurd (hc.symm.trans hc') (by simp)
        · refine .inr ?_
          unfold Machine.answer
          rw [hc]
          exact hbelow
      · exact absurd (hc.symm.trans hgives.1) (by simp)
    | finish hr => simp
  · cases hxy with
    | call a ha => exact hold
    | step heval hstep =>
      intro m p hm
      exact hold m p ((List.mem_append.1 hm).resolve_left (Machine.not_done_mem_events _))
    | consult hq hs => exact hold
    | answer as hq => exact hold
    | @finish a M H r hr =>
      intro m p hm
      rcases List.mem_cons.1 hm with hm | hm
      · cases hm
        obtain ⟨hc, hfs⟩ := Machine.end_of_result? hr
        rcases h.answers _ _ rfl with ⟨hc', -⟩ | hnone | ⟨_, _, hheads, -⟩ | ⟨q, hgives, hanswered⟩
        · exact absurd (hc.symm.trans hc') (by simp)
        · exact fun r hr ↦ absurd (hnone.symm.trans hr) (by simp)
        · rcases hheads with ⟨w, hc', -⟩ | ⟨f, hf, -⟩
          · exact absurd (hc.symm.trans hc') (by simp)
          · rw [hfs] at hf
            contradiction
        · obtain rfl : p = q := Result.promise.inj (Control.give.inj (hc.symm.trans hgives.1))
          exact hanswered
      · exact hold m p hm

/-- What holds in the course of a run of this kind. -/
theorem Run.coherent {st : State} {H : List Event} (hs : s₀.Fresh) (he : s₀.EvaluationOnly)
    (h : Run Machine.Steadfast s₀ st H) : Coherent (st, H) := by
  have hall : ∀ {y : State × List Event}, Onward Machine.Steadfast (.idle s₀, []) y →
      Coherent y := fun hy ↦ by
    induction hy with
    | refl => exact hs.coherent he
    | tail _ hxy ih => exact (hxy.coherent ih).1
  exact hall h.onward_start

/-- Modules evolve for the rest of the run. -/
theorem Onward.evolves (h : Coherent x) (hxy : Onward Machine.Steadfast x y) :
    x.1.store.Evolves y.1.store := by
  have hall : Coherent y ∧ x.1.store.Evolves y.1.store := by
    induction hxy with
    | refl => exact ⟨h, .refl _⟩
    | tail _ hyz ih =>
      obtain ⟨hz, hevolves⟩ := hyz.coherent ih.1
      exact ⟨hz, ih.2.trans hevolves⟩
  exact hall.2

/-! ## Circles -/

namespace Store

/-- Each of the modules requests the other one, directly or not. -/
def Circle (s : Store) (x y : ModuleId) : Prop := s.Reaches x y ∧ s.Reaches y x

/-- The module waits, or has been evaluated, and has no error. -/
def WellSettled (s : Store) (x : ModuleId) : Prop :=
  ∃ r, s.source? x = some r ∧ (r.status = .evaluatingAsync ∨ r.status = .evaluated) ∧
    r.evaluationError = none

/-- Evaluating a module that is settled gives the promise that is kept at its root. -/
theorem evaluate_of_root {s : Store} {x c : ModuleId} {r : SourceText} {p : PromiseId}
    (hx : s.source? x = some r) (hs : r.status.isSettling = true) (hc : r.cycleRoot = some c)
    (hp : s.capability? c = some p) : s.evaluate x = (s, .give (.promise p)) := by
  have hroot : s.evaluationRoot x = c := by
    simp [evaluationRoot, status?, cycleRoot, hx, hs, hc]
  simp [evaluate, hx, hroot, hp]

end Store

/-- The modules of a circle share one promise: once all of them wait or have been evaluated, without
an error, and evaluating one of them has given a promise, evaluating any of them gives the same one
for the rest of the run. -/
theorem circle_shares_promise {st st' : State} {H H' : List Event} {m n x : ModuleId}
    {p : PromiseId} (hs : s₀.Fresh) (he : s₀.EvaluationOnly)
    (h : Run Machine.Steadfast s₀ st H) (h' : Onward Machine.Steadfast (st, H) (st', H'))
    (hm : ∀ y, st.store.Circle m y → st.store.WellSettled y) (hn : st.store.Circle m n)
    (hdone : .done (.evaluate n) (.promise p) ∈ H) (hx : st.store.Circle m x) :
    st'.store.evaluate x = (st'.store, .give (.promise p)) := by
  have hcoherent := h.coherent hs he
  have hshares : st.store.Shared := by
    have := hcoherent.whole.shared
    rwa [State.store_scene] at this
  -- the root of the module that was evaluated has the promise
  obtain ⟨r, hr, -, herror⟩ := hm n hn
  obtain ⟨-, c, hc, hp⟩ := (hcoherent.answered n p hdone r hr).resolve_left fun hf ↦ by
    have := hf.2
    rw [herror] at this
    exact nomatch this
  -- it is the root of the other one as well
  obtain ⟨q, hq, hstatus, -⟩ := hm x hx
  have hroot : st.store.root? n = some c := (Store.root?_eq hr).trans hc
  have hshared : st.store.root? x = some c :=
    (hshares.shared n x (Option.isSome_of_mem hroot) (hn.2.trans hx.1) (hx.2.trans hn.1)).trans
      hroot
  have hqc : q.cycleRoot = some c := (Store.root?_eq hq).symm.trans hshared
  have hqs : q.status.isSettling = true := by
    rcases hstatus with hs | hs <;> rw [hs] <;> rfl
  -- and stays so
  have hevolves := h'.evolves hcoherent
  obtain ⟨q', hq', hq''⟩ := hevolves.after hq
  obtain ⟨hqs', heq⟩ := hq''.settling hqs
  exact Store.evaluate_of_root hq' hqs' (heq.trans hqc) (hevolves.capability? hp)

/-! ### Graphs for which it holds, and does not -/

/-- Whether a step is steadfast can be checked. -/
def Machine.checkSteadfast (M M' : Machine) : Bool :=
  ((List.range M.store.modules.size).all fun i ↦
    (M.store.status? ⟨i⟩ != some .evaluated || M'.store.cycleRoot ⟨i⟩ == M.store.cycleRoot ⟨i⟩) &&
      (M.isLinking || M.store.status? ⟨i⟩ != some .linking ||
        M'.store.status? ⟨i⟩ == some .linking)) &&
    match M.control with
    | .run (.force _) => M.tours.isEmpty
    | .run (.evaluation _ w) =>
      match w.frames with
      | ⟨m, _, r :: _⟩ :: _ => (M.store.imported? m r).isSome
      | _ => true
    | _ => true

theorem Machine.steadfast_of_check {M M' : Machine} (h : M.checkSteadfast M' = true) :
    M.Steadfast M' := by
  rw [checkSteadfast, Bool.and_eq_true] at h
  obtain ⟨hall, hcontrol⟩ := h
  have hmodule : ∀ m st, M.store.status? m = some st →
      (M.store.status? m != some .evaluated || M'.store.cycleRoot m == M.store.cycleRoot m) = true ∧
        (M.isLinking || M.store.status? m != some .linking ||
          M'.store.status? m == some .linking) = true := fun ⟨i⟩ st hst ↦ by
    have hlt : i < M.store.modules.size := by
      refine Store.index_lt_of_source (m := ⟨i⟩) ?_
      rw [Store.status?] at hst
      exact Option.isSome_of_mem (Option.map_eq_some_iff.1 hst).choose_spec.1
    simpa only [Bool.and_eq_true] using List.all_eq_true.1 hall i (List.mem_range.2 hlt)
  refine ⟨fun m hm ↦ ?_, fun m hm ↦ ?_, fun goal w hw f r rest rs hf hr ↦ ?_, ?_⟩
  · simpa [hm] using (hmodule m _ hm).1
  · simpa [hm] using hcontrol
  · obtain ⟨x, t, _⟩ := f
    obtain rfl := hr
    simpa [hw, hf] using hcontrol
  · by_cases hl : M.isLinking = true
    · exact .inl (links_of_isLinking hl)
    · exact .inr fun m hm ↦ by simpa [hl, hm] using (hmodule m _ hm).2

/-- A call on the module gave the promise. -/
def Event.gives (m : ModuleId) (p : PromiseId) : Event → Bool
  | .done (.evaluate n) (.promise q) => n == m && q == p
  | _ => false

theorem Event.mem_of_gives {m : ModuleId} {p : PromiseId} {H : List Event}
    (h : H.any (Event.gives m p) = true) : .done (.evaluate m) (.promise p) ∈ H := by
  obtain ⟨e, he, hgives⟩ := List.any_eq_true.1 h
  unfold gives at hgives
  split at hgives
  · simp only [Bool.and_eq_true, beq_iff_eq] at hgives
    obtain ⟨rfl, rfl⟩ := hgives
    exact he
  · exact nomatch hgives

namespace Store

/-- The modules of the list request nothing but each other. -/
def closed (s : Store) (l : List ModuleId) : Bool :=
  l.all fun x ↦ (s.entries x).requests.all fun q ↦ (s.imported? x q).all (l.contains ·)

theorem mem_of_reaches {s : Store} {l : List ModuleId} (h : s.closed l = true) {x y : ModuleId}
    (hx : x ∈ l) (hxy : s.Reaches x y) : y ∈ l := by
  induction hxy with
  | refl => exact hx
  | tail _ hstep ih =>
    obtain ⟨q, hq, hi⟩ := hstep
    simpa [hi] using List.all_eq_true.1 (List.all_eq_true.1 h _ ih) q hq

theorem wellSettled_of_eq {s : Store} {x : ModuleId} (hs : s.status? x = some .evaluated)
    (he : s.evaluationError? x = none) : s.WellSettled x := by
  obtain ⟨r, hr, hst⟩ := source?_of_status? hs
  exact ⟨r, hr, .inr hst, by simpa [evaluationError?, hr] using he⟩

end Store

/-- Two modules that import each other, and one that imports the first of them. -/
def circleGraph : Store where
  modules := #[.scripted false [("member", .evaluation, 1)] [],
    .scripted false [("root", .evaluation, 0)] [],
    .scripted false [("root", .evaluation, 0)] []]

/-- The graph when the circle has been evaluated. -/
def circleOnce : Store × List Event :=
  (circleGraph.play Machine.checkSteadfast 100 [.evaluate ⟨0⟩] []).get (by decide +kernel)

/-- The graph when the other module has been evaluated. -/
def circleUsed : Store × List Event :=
  (circleOnce.1.play Machine.checkSteadfast 100 [.evaluate ⟨2⟩] circleOnce.2).get
    (by decide +kernel)

theorem circle_shares_promise_circleGraph :
    circleGraph.Fresh ∧ circleGraph.EvaluationOnly ∧
      Run Machine.Steadfast circleGraph (.idle circleOnce.1) circleOnce.2 ∧
      Onward Machine.Steadfast (.idle circleOnce.1, circleOnce.2)
        (.idle circleUsed.1, circleUsed.2) ∧
      (∀ y, circleOnce.1.Circle ⟨0⟩ y → circleOnce.1.WellSettled y) ∧
      circleOnce.1.Circle ⟨0⟩ ⟨0⟩ ∧ circleOnce.1.Circle ⟨0⟩ ⟨1⟩ ∧
      .done (.evaluate ⟨0⟩) (.promise ⟨0⟩) ∈ circleOnce.2 ∧
      circleUsed.1.evaluate ⟨1⟩ = (circleUsed.1, .give (.promise ⟨0⟩)) := by
  have hfresh : circleGraph.Fresh := Store.fresh_of_scripted
    (l := [(false, [("member", .evaluation, 1)], []), (false, [("root", .evaluation, 0)], []),
      (false, [("root", .evaluation, 0)], [])]) rfl rfl rfl
  have honly : circleGraph.EvaluationOnly := Store.evaluationOnly_of_all (by decide +kernel)
  have hrun : Run Machine.Steadfast circleGraph (.idle circleOnce.1) circleOnce.2 :=
    Run.ofPlay Machine.checkSteadfast circleGraph 100 _ (fun _ _ ↦ Machine.steadfast_of_check) _
  have honward : Onward Machine.Steadfast (.idle circleOnce.1, circleOnce.2)
      (.idle circleUsed.1, circleUsed.2) :=
    Onward.ofPlay Machine.checkSteadfast circleOnce 100 _ (fun _ _ ↦ Machine.steadfast_of_check) _
  have hclosed : circleOnce.1.closed [⟨0⟩, ⟨1⟩] = true := by decide +kernel
  have hsettled : ∀ y, circleOnce.1.Circle ⟨0⟩ y → circleOnce.1.WellSettled y := fun y hy ↦ by
    have hmem := Store.mem_of_reaches hclosed List.mem_cons_self hy.1
    simp only [List.mem_cons, List.not_mem_nil, or_false] at hmem
    rcases hmem with rfl | rfl
    · exact Store.wellSettled_of_eq (by decide +kernel) (by decide +kernel)
    · exact Store.wellSettled_of_eq (by decide +kernel) (by decide +kernel)
  have hcircle : circleOnce.1.Circle ⟨0⟩ ⟨1⟩ :=
    ⟨.single ⟨{ specifier := "member" }, by decide +kernel, by decide +kernel⟩,
      .single ⟨{ specifier := "root" }, by decide +kernel, by decide +kernel⟩⟩
  have hdone : .done (.evaluate ⟨0⟩) (.promise ⟨0⟩) ∈ circleOnce.2 :=
    Event.mem_of_gives (by decide +kernel)
  have hshares : ∀ x y : Store × List Event,
      Run Machine.Steadfast circleGraph (.idle x.1) x.2 →
      Onward Machine.Steadfast (.idle x.1, x.2) (.idle y.1, y.2) →
      (∀ z, x.1.Circle ⟨0⟩ z → x.1.WellSettled z) →
      .done (.evaluate ⟨0⟩) (.promise ⟨0⟩) ∈ x.2 → x.1.Circle ⟨0⟩ ⟨1⟩ →
      y.1.evaluate ⟨1⟩ = (y.1, .give (.promise ⟨0⟩)) :=
    fun x y h h' hsettled hdone hx ↦
      circle_shares_promise hfresh honly h h' hsettled ⟨.refl, .refl⟩ hdone hx
  exact ⟨hfresh, honly, hrun, honward, hsettled, ⟨.refl, .refl⟩, hcircle, hdone,
    hshares circleOnce circleUsed hrun honward hsettled hdone hcircle⟩

/-- Two modules that import each other, and one that imports the second of them. -/
def detachedGraph : Store where
  modules := #[.scripted false [("member", .evaluation, 1)] [],
    .scripted false [("root", .evaluation, 0)] [],
    .scripted false [("member", .evaluation, 1)] []]

/-- The graph when the circle has been evaluated. -/
def detachedOnce : Store × List Event :=
  (detachedGraph.play (fun _ _ ↦ true) 100 [.evaluate ⟨0⟩, .evaluate ⟨1⟩] []).get
    (by decide +kernel)

/-- The graph when the other module has been evaluated, and the second one of the circle again. -/
def detachedAgain : Store × List Event :=
  (detachedOnce.1.play (fun _ _ ↦ true) 100 [.evaluate ⟨2⟩, .evaluate ⟨1⟩] detachedOnce.2).get
    (by decide +kernel)

/-- The second module of the circle has shared the promise of the first, and gets one of its own
after it has been imported from outside of the circle. -/
theorem detachedGraph_promise_changes :
    detachedGraph.Fresh ∧ detachedGraph.EvaluationOnly ∧
      Run (fun _ _ ↦ True) detachedGraph (.idle detachedOnce.1) detachedOnce.2 ∧
      Onward (fun _ _ ↦ True) (.idle detachedOnce.1, detachedOnce.2)
        (.idle detachedAgain.1, detachedAgain.2) ∧
      (∀ y, detachedOnce.1.Circle ⟨0⟩ y → detachedOnce.1.WellSettled y) ∧
      detachedOnce.1.Circle ⟨0⟩ ⟨1⟩ ∧
      .done (.evaluate ⟨1⟩) (.promise ⟨0⟩) ∈ detachedOnce.2 ∧
      ∃ q, q ≠ ⟨0⟩ ∧ .done (.evaluate ⟨1⟩) (.promise q) ∈ detachedAgain.2 := by
  have hclosed : detachedOnce.1.closed [⟨0⟩, ⟨1⟩] = true := by decide +kernel
  refine ⟨Store.fresh_of_scripted
      (l := [(false, [("member", .evaluation, 1)], []), (false, [("root", .evaluation, 0)], []),
        (false, [("member", .evaluation, 1)], [])]) rfl rfl rfl,
    Store.evaluationOnly_of_all (by decide +kernel),
    Run.ofPlay (fun _ _ ↦ true) detachedGraph 100 _ (fun _ _ _ ↦ trivial) _,
    Onward.ofPlay (fun _ _ ↦ true) detachedOnce 100 _ (fun _ _ _ ↦ trivial) _, fun y hy ↦ ?_,
    ⟨.single ⟨{ specifier := "member" }, by decide +kernel, by decide +kernel⟩,
      .single ⟨{ specifier := "root" }, by decide +kernel, by decide +kernel⟩⟩,
    Event.mem_of_gives (by decide +kernel), ⟨2⟩, by decide, Event.mem_of_gives (by decide +kernel)⟩
  have hmem := Store.mem_of_reaches hclosed List.mem_cons_self hy.1
  simp only [List.mem_cons, List.not_mem_nil, or_false] at hmem
  rcases hmem with rfl | rfl
  · exact Store.wellSettled_of_eq (by decide +kernel) (by decide +kernel)
  · exact Store.wellSettled_of_eq (by decide +kernel) (by decide +kernel)

end EcmaModules
