import EcmaModules.Proofs.Play
import EcmaModules.Proofs.Simulation

/-!
# Bodies are executed once

A body is called at most once, and a module with source text that has been evaluated without an
error has had its body run to the end.

Neither holds of every run. A walk that searches a module may come to it once more by an import that
needs it executed, while the search of it is not over yet; the module then is on the stack of the walk
twice. And linking may be interrupted by the evaluation of a module that is being linked. What is
proved is about the runs in which neither happens, and there are runs for which both claims fail.
-/

namespace EcmaModules

/-- No walk executes a module that is still being searched, and the status of a module that is being
linked is changed by linking only. -/
structure Machine.Orderly (M M' : Machine) : Prop where
  searched : ∀ m, M.store.status? m = some .asyncSubgraphsSearching →
    M'.store.status? m ≠ some .evaluating
  linking : M.links ∨ ∀ m, M.store.status? m = some .linking → M'.store.status? m = some .linking

/-- Everything may happen. -/
def Mode.free : Mode :=
  ⟨fun _ ↦ True, fun _ ↦ True, True, True, True, True, True, True, True⟩

theorem Machine.Orderly.grants {M M' : Machine} (h : M.Orderly M') : M.Grants .free M' :=
  ⟨⟨fun x _ ↦ h.searched x, .inl trivial, .inl trivial⟩, .inl trivial,
    h.linking.imp id fun h _ _ x _ ↦ h x, .inl trivial, .inl trivial, .inl trivial, .inl trivial,
    .inl trivial, fun _ _ ↦ trivial⟩

/-! ## In the beginning -/

theorem Store.Fresh.outline {s : Store} (h : s.Fresh) {m : ModuleId} {r : SourceText}
    (hm : s.outline m = some r) : r.status = .linked ∧ r.evaluationError = none ∧
      r.asyncState = .none ∧ r.asyncParents = [] ∧ r.pendingAsync = 0 := by
  obtain ⟨q, hq, rfl⟩ := Store.source?_of_outline hm
  obtain ⟨hs, he, -, ha, -, hp, h0⟩ := h.source m q hq
  refine ⟨?_, he, ha, hp, h0⟩
  rcases hs with hs | hs | hs <;> simp [hs, Status.outline]

/-- The invariant holds in the beginning. -/
theorem Store.Fresh.valid {s : Store} (h : s.Fresh) : Valid ((State.idle s).scene []) := by
  have hnone : ∀ {p : PromiseId}, s.promise? p = none := fun {p} ↦ by
    simp [Store.promise?, h.promises]
  refine ⟨⟨List.nodup_nil, List.forall_mem_nil _, List.forall_mem_nil _, List.forall_mem_nil _,
    List.forall_mem_nil _, List.forall_mem_nil _, List.forall_mem_nil _, List.nodup_nil, List.forall_mem_nil _,
    List.nodup_nil, by rintro _ _ ⟨⟩, fun x r hr ↦ ?_, fun x r hr _ ↦ ?_⟩,
    ⟨by rintro _ _ ⟨⟩, fun m p hm ↦ ?_,
    fun m c hm ↦ ?_, by rintro _ _ ⟨⟩⟩, by rintro _ _ _ ⟨⟩, fun m r hr hs ↦ ?_, by rintro _ _ _ ⟨⟩⟩
  · obtain ⟨hs, he, ha, hp, h0⟩ := h.outline hr
    refine Sound.lawful_nil ⟨fun _ ↦ by simp [hs], fun h ↦ by simp [ha] at h, fun h ↦ by simp [hs] at h,
      fun h ↦ ?_, fun h ↦ by simp [hs] at h, fun _ ↦ he, fun h ↦ ?_, by simp [hp]⟩ (by simp [hs, Status.isWalked])
    · obtain ⟨c, hc⟩ := h
      contradiction
    · contradiction
  · obtain ⟨hs, -, -, -, h0⟩ := h.outline hr
    refine ⟨[], fun d hd ↦ ?_, Nat.zero_le _⟩
    obtain ⟨q, hq, -, hmem, -⟩ := hd
    rw [(h.outline hq).2.2.2.1] at hmem
    exact absurd hmem List.not_mem_nil
  · simp [Store.reactions, State.scene, hnone] at hm
  · simp [State.scene, h.jobs] at hm
  · simp [(h.outline hr).1] at hs

@[simp] theorem State.store_scene (st : State) (H : List Event) : (st.scene H).store = st.store := by
  cases st <;> rfl

@[simp] theorem State.events_scene (st : State) (H : List Event) : (st.scene H).events = H := by
  cases st <;> rfl

/-- The invariant holds in every run. -/
theorem Run.valid {P : Machine → Machine → Prop} {mode : Mode} {s₀ : Store} {st : State}
    {H : List Event} (hs : s₀.Fresh) (hP : ∀ M M', P M M' → M.Grants mode M')
    (h : Run P s₀ st H) : Valid (st.scene H) :=
  (h.moves hP hs.valid).1.valid hs.valid

/-! ## Once -/

/-- The body of each module is called at most once. -/
theorem bodies_begin_once {s₀ : Store} {st : State} {H : List Event} (hs : s₀.Fresh)
    (h : Run Machine.Orderly s₀ st H) : (begun H).Nodup := by
  simpa using (h.valid hs fun _ _ ↦ Machine.Orderly.grants).sound.onceBegun

/-! ### Graphs for which it holds, and does not -/

/-- The step goes on with linking. -/
def Machine.isLinking (M : Machine) : Bool :=
  match M.control, M.frames with
  | .run (.linking _), _ => true
  | .give _, .setUp _ _ :: _ => true
  | _, _ => false

/-- Whether a step is orderly can be checked. -/
def Machine.checkOrderly (M M' : Machine) : Bool :=
  (List.range M.store.modules.size).all fun i ↦
    (M.store.status? ⟨i⟩ != some .asyncSubgraphsSearching ||
      M'.store.status? ⟨i⟩ != some .evaluating) &&
    (M.isLinking || M.store.status? ⟨i⟩ != some .linking || M'.store.status? ⟨i⟩ == some .linking)

theorem Machine.links_of_isLinking {M : Machine} (h : M.isLinking = true) : M.links := by
  obtain ⟨s, control, fs⟩ := M
  unfold isLinking at h
  split at h
  · next w hc => exact .inl ⟨w, hc⟩
  · next r m w fs' hc hf => exact .inr ⟨r, m, w, fs', hc, hf⟩
  · exact nomatch h

theorem Machine.orderly_of_check {M M' : Machine} (h : M.checkOrderly M' = true) :
    M.Orderly M' := by
  have hall : ∀ m st, M.store.status? m = some st →
      (st ≠ .asyncSubgraphsSearching ∨ M'.store.status? m ≠ some .evaluating) ∧
        (M.isLinking = true ∨ st ≠ .linking ∨ M'.store.status? m = some .linking) := by
    rintro ⟨i⟩ st hst
    have hlt : i < M.store.modules.size := by
      refine Store.index_lt_of_source (m := ⟨i⟩) ?_
      rw [Store.status?] at hst
      exact Option.isSome_of_mem (Option.map_eq_some_iff.1 hst).choose_spec.1
    have := List.all_eq_true.1 h i (List.mem_range.2 hlt)
    simpa [hst, or_assoc] using this
  refine ⟨fun m hm ↦ ?_, ?_⟩
  · exact ((hall m _ hm).1).resolve_left (not_not_intro rfl)
  · by_cases hl : M.isLinking = true
    · exact .inl (links_of_isLinking hl)
    · exact .inr fun m hm ↦ (((hall m _ hm).2).resolve_left hl).resolve_left (not_not_intro rfl)

/-- A deferred module that requests one that awaits. -/
def deferredGraph : Store where
  modules := #[.linked false [("dep", .defer, 1)], .linked false [("tla", .evaluation, 2)],
    .linked true []]

theorem deferredGraph_fresh : deferredGraph.Fresh :=
  Store.fresh_of_linked
    (l := [(false, [("dep", .defer, 1)]), (false, [("tla", .evaluation, 2)]), (true, [])]) rfl rfl rfl

/-- The deferred module is executed when it is read, after what it requests. -/
def deferredCalls : List Act :=
  [.evaluate ⟨0⟩, .job, .namespaceOf ⟨1⟩ .defer, .read ⟨0⟩ "x"]

theorem bodies_begin_once_deferredGraph :
    deferredGraph.Fresh ∧ ∃ st H, Run Machine.Orderly deferredGraph st H ∧
      begun H = [⟨1⟩, ⟨0⟩, ⟨2⟩] ∧ (begun H).Nodup := by
  have hrun := Run.ofPlay Machine.checkOrderly deferredGraph 100 deferredCalls
    (fun _ _ ↦ Machine.orderly_of_check) (by decide +kernel)
  exact ⟨deferredGraph_fresh, _, _, hrun, by decide +kernel,
    bodies_begin_once deferredGraph_fresh hrun⟩

/-- The deferred module is searched again by way of the module that awaits, which imports it. -/
def tangledGraph : Store where
  modules := #[.linked false [("dep", .defer, 1)], .linked false [("tla", .evaluation, 2)],
    .linked true [("dep", .evaluation, 1), ("main", .defer, 0)]]

theorem tangledGraph_begins_twice :
    tangledGraph.Fresh ∧ ∃ st H, Run (fun _ _ ↦ True) tangledGraph st H ∧
      begun H = [⟨0⟩, ⟨1⟩, ⟨2⟩, ⟨1⟩] ∧ ¬(begun H).Nodup := by
  refine ⟨Store.fresh_of_linked (l := [(false, [("dep", .defer, 1)]),
    (false, [("tla", .evaluation, 2)]), (true, [("dep", .evaluation, 1), ("main", .defer, 0)])])
    rfl rfl rfl, ?_⟩
  have hrun := Run.ofPlay (fun _ _ ↦ true) tangledGraph 200 [.evaluate ⟨0⟩, .job]
    (fun _ _ _ ↦ trivial) (by decide +kernel)
  exact ⟨_, _, hrun, by decide +kernel, by decide +kernel⟩

/-! ## To the end -/

/-- The body that is called after a step of a walk. -/
def EvaluationStep.executes : EvaluationStep → List Event
  | .execute m capability _ => [.began m capability]
  | _ => []

theorem EvaluationStep.began_next (s : Store) (goal : EvaluationGoal) (step : EvaluationStep) :
    (step.next s goal).2.began = step.executes := by
  cases step <;> cases goal <;> rfl

namespace EvaluationWalk

theorem executes_back (s : Store) (w : EvaluationWalk) (d : ModuleId) :
    (back s w d).2.executes = [] := by
  unfold back
  split
  · rfl
  · split <;> rfl

theorem executes_concludeExecuted (s : Store) (w : EvaluationWalk) (m : ModuleId) :
    (concludeExecuted s w m).2.executes = [] := by
  unfold concludeExecuted
  split
  · exact executes_back _ _ _
  · exact executes_back _ _ _

theorem executes_concludeSearched (s : Store) (w : EvaluationWalk) (m : ModuleId) :
    (concludeSearched s w m).2.executes = [] := by
  rw [concludeSearched_eq]
  split
  · exact executes_back _ _ _
  · exact executes_back _ _ _

theorem executes_arrive (s : Store) (w : EvaluationWalk) (m : ModuleId) (t : Traversal) :
    (arrive s w m t).2.executes = [] := by
  unfold arrive
  split
  · rfl
  · split
    · rfl
    · exact executes_back _ _ _
    · rfl

theorem executes_executed (s : Store) (w : EvaluationWalk) (m : ModuleId)
    (capability : Option PromiseId) (c : Completion) :
    (executed s w m capability c).2.executes = [] := by
  unfold executed
  split
  · exact executes_concludeExecuted _ _ _
  · exact executes_concludeExecuted _ _ _
  · rfl

/-- A walk executes the module on top of its path only. -/
theorem mem_executes_advance {s : Store} {w : EvaluationWalk} {m : ModuleId}
    {c : Option PromiseId} (h : .began m c ∈ (w.advance s).2.executes) :
    ∃ rest, w.frames = ⟨m, .executing, []⟩ :: rest := by
  obtain ⟨frames, stack, index⟩ := w
  rcases frames with _ | ⟨⟨x, t, requests⟩, rest⟩
  · contradiction
  rcases requests with _ | ⟨r, requests⟩
  · cases t with
    | executing =>
      have h : .began m c ∈ (execute s ⟨rest, stack, index⟩ x).2.executes := h
      refine ⟨rest, ?_⟩
      unfold execute at h
      split at h
      · contradiction
      · split at h
        · rw [executes_concludeExecuted] at h
          contradiction
        · split at h <;> obtain ⟨rfl, -⟩ := Event.began.inj (List.mem_singleton.1 h) <;> rfl
    | searching =>
      have h : .began m c ∈ (concludeSearched s ⟨rest, stack, index⟩ x).2.executes := h
      rw [executes_concludeSearched] at h
      contradiction
  · exfalso
    cases t <;> simp only [advance] at h <;> split at h
    all_goals first | (rw [executes_arrive] at h; contradiction) | contradiction

end EvaluationWalk

/-- No body is called when an evaluation starts. -/
theorem EvaluationWalk.began_start (s : Store) (m : ModuleId) (goal : EvaluationGoal) :
    ((EvaluationWalk.start s m).2.next (EvaluationWalk.start s m).1 goal).2.began = [] := by
  rw [EvaluationStep.began_next]
  exact executes_arrive _ _ _ _

theorem Store.began_evaluate (s : Store) (m : ModuleId) : (s.evaluate m).2.began = [] := by
  unfold Store.evaluate
  split
  · rfl
  · dsimp only
    split
    · rfl
    · exact EvaluationWalk.began_start _ _ _

theorem Store.began_forceModule (s : Store) (m : ModuleId) : (s.forceModule m).2.began = [] := by
  unfold Store.forceModule
  split
  · rfl
  · rfl
  · exact EvaluationWalk.began_start _ _ _

theorem Job.began_run (s : Store) (j : Job) : (j.run s).2.began = [] := by
  obtain ⟨reaction, c⟩ := j
  cases reaction <;> rcases c with e | ⟨⟩ <;> rfl

/-- A body is called by a walk that has gone through the requests of the module, or when the module
has been set free. -/
theorem Task.mem_began {s : Store} {t : Task} {m : ModuleId} {c : Option PromiseId}
    (h : .began m c ∈ (t.advance s).2.began) :
    (∃ goal w rest, t = .evaluation goal w ∧ w.frames = ⟨m, .executing, []⟩ :: rest) ∨
    ∃ rest r, t = .free (m :: rest) ∧ s.source? m = some r ∧ r.status ≠ .evaluated ∧
      c.isSome = r.entries.awaits := by
  cases ht : t.isWalk with
  | false =>
    rw [(Task.advance_quiet s ht).2.1.began] at h
    contradiction
  | true =>
    cases t with
    | force x =>
      rw [show Task.advance s (.force x) = s.forceModule x from rfl, s.began_forceModule] at h
      contradiction
    | evaluate x =>
      rw [show Task.advance s (.evaluate x) = s.evaluate x from rfl, s.began_evaluate] at h
      contradiction
    | evaluation goal w =>
      rw [show Task.advance s (.evaluation goal w) = (w.advance s).2.next (w.advance s).1 goal from
        rfl, EvaluationStep.began_next] at h
      obtain ⟨rest, hf⟩ := EvaluationWalk.mem_executes_advance h
      exact .inl ⟨goal, w, rest, rfl, hf⟩
    | free ms =>
      rcases ms with _ | ⟨x, rest⟩
      · contradiction
      simp only [Task.advance, Store.continueFree] at h
      rcases hx : s.source? x with _ | r
      · simp [hx, Next.began] at h
      simp only [hx] at h
      by_cases hs : r.status = .evaluated
      · simp [hs, Next.began] at h
      rw [if_neg hs] at h
      cases hw : r.entries.awaits with
      | true =>
        simp only [hw, if_true] at h
        obtain ⟨rfl, rfl⟩ := Event.began.inj (List.mem_singleton.1 h)
        exact .inr ⟨rest, r, rfl, hx, hs, hw.symm⟩
      | false =>
        simp only [hw, Bool.false_eq_true, if_false] at h
        by_cases hs' : r.status = .asyncSubgraphsSearchingAsync
        · rw [if_pos hs'] at h
          contradiction
        · rw [if_neg hs'] at h
          obtain ⟨rfl, rfl⟩ := Event.began.inj (List.mem_singleton.1 h)
          exact .inr ⟨rest, r, rfl, hx, hs, by rw [hw]; rfl⟩
    | job j =>
      rw [show Task.advance s (.job j) = j.run s from rfl, j.began_run] at h
      contradiction
    | link x =>
      simp only [Task.advance] at h
      split at h <;> contradiction
    | linking w =>
      rw [show Task.advance s (.linking w) = (w.advance s).2.next (w.advance s).1 from rfl,
        (LinkStep.next_still _ _).1.began] at h
      contradiction
    | _ => contradiction

theorem Frame.began_resume (s : Store) (r : Result) (f : Frame) : (f.resume s r).2.began = [] := by
  cases hf : f.isWalk with
  | false => exact (Frame.resume_quiet s r hf).2.1.began
  | true =>
    cases f with
    | executed goal m capability w =>
      exact (EvaluationStep.began_next _ _ _).trans (EvaluationWalk.executes_executed _ _ _ _ _)
    | passed goal w =>
      refine (EvaluationStep.began_next _ _ _).trans ?_
      split <;> rfl
    | freed m capability rest => rfl
    | setUp m w =>
      simp only [Frame.resume]
      split
      · rfl
      · exact (LinkStep.next_still _ _).1.began
    | _ => contradiction

/-- Where the body of a module is called. -/
theorem Machine.mem_began {M : Machine} {m : ModuleId} {c : Option PromiseId}
    (h : .began m c ∈ M.events) :
    (∃ goal w rest, M.control = .run (.evaluation goal w) ∧
      w.frames = ⟨m, .executing, []⟩ :: rest) ∨
    ∃ rest r, M.control = .run (.free (m :: rest)) ∧ M.store.source? m = some r ∧
      r.status ≠ .evaluated ∧ c.isSome = r.entries.awaits := by
  obtain ⟨s, control, fs⟩ := M
  unfold events at h
  rcases hnext : (Machine.mk s control fs).next? with _ | ⟨s', n⟩
  · rw [hnext] at h
    contradiction
  simp only [hnext, List.mem_append] at h
  have hmem : .began m c ∈ n.began := h.resolve_right fun h ↦ by
    unfold ended at h
    split at h <;> simp at h
  rcases control with t | r
  · have hx : t.advance s = (s', n) := by
      cases t <;> simp_all [next?]
    rw [← show (t.advance s).2 = n by rw [hx]] at hmem
    refine (Task.mem_began hmem).imp ?_ ?_
    · rintro ⟨goal, w, rest, rfl, hf⟩
      exact ⟨goal, w, rest, rfl, hf⟩
    · rintro ⟨rest, r, rfl, hr⟩
      exact ⟨rest, r, rfl, hr⟩
  · rcases fs with _ | ⟨f, fs⟩
    · contradiction
    · have hx : f.resume s r = (s', n) := Option.some.inj hnext
      have hn := Frame.began_resume s r f
      rw [hx] at hn
      rw [hn] at hmem
      contradiction

/-- A module with source text that has been evaluated without an error has had its body executed to
the end. So a module that awaits is executed only while it is being evaluated, and evaluation never
goes on with a module that has been evaluated without an error. -/
theorem evaluated_bodies_ended {s₀ : Store} {st : State} {H : List Event} (hs : s₀.Fresh)
    (h : Run Machine.Orderly s₀ st H) :
    (∀ m r, st.store.source? m = some r → r.status = .evaluated → r.evaluationError = none →
      if r.entries.awaits then ∃ p, .began m (some p) ∈ H ∧ st.store.promise? p = some .fulfilled
      else .ended m none (.ok ()) ∈ H) ∧
    ∀ a M, st = .busy a M →
      (∀ m p, .began m (some p) ∈ M.events →
        M.store.status? m = some .evaluating ∨ M.store.status? m = some .evaluatingAsync) ∧
      ∀ m, M.control = .run (.job ⟨.completeModule m, .ok ()⟩) →
        M.store.status? m = some .evaluated → (M.store.evaluationError? m).isSome := by
  have hv := h.valid hs fun _ _ ↦ Machine.Orderly.grants
  refine ⟨fun m r hr hst he ↦ ?_, ?_⟩
  · have ho : (st.scene H).store.outline m = some r.outline := by
      rw [State.store_scene]
      exact Store.outline_eq_some hr
    split
    · next hw =>
      obtain ⟨p, hb, hp, -⟩ := hv.fulfilled m _ ho (by simp [hst]) he hw
      exact ⟨p, by simpa using hb, by simpa using hp⟩
    · next hw =>
      rw [Bool.not_eq_true] at hw
      obtain ⟨c, hc⟩ := (hv.sound.lawful m _ ho).evaluated (by simp [hst]) he hw
      obtain rfl := hv.sound.began_none (hv.called m c _ hc) ho hw
      simpa using hc
  · rintro a ⟨s, control, fs⟩ rfl
    refine ⟨fun m p hb ↦ ?_, fun m hM hst ↦ ?_⟩
    · rcases Machine.mem_began hb with ⟨goal, w, rest, hM, hf⟩ | ⟨rest, r, hM, hr, hst, hw⟩
      · obtain rfl : control = .run (.evaluation goal w) := hM
        have hsound : Sound s.outline (⟨goal, .here, w⟩ :: fs.flatMap Frame.tours) _ _ _ _ := hv.sound
        obtain ⟨r, hr, hst, -⟩ := hsound.lawful_top hf
        exact .inl (by simp [Store.status?, hr, hst, Traversal.status])
      · obtain rfl : control = .run (.free (m :: rest)) := hM
        have hfit := (h.moves (fun _ _ ↦ Machine.Orderly.grants) hs.valid).2 _ _ rfl
        obtain rfl : fs = [] := hfit.current.base rfl
        have hsound : Sound s.outline [] (m :: rest) [] [] H := by
          simpa [State.scene, Machine.scene_run, Task.tours, Task.queue] using hv.sound
        obtain ⟨hhead, -, U⟩ := hsound.head hr hst
        refine .inr ?_
        rcases hhead with ⟨hs', -⟩ | ⟨hs', -⟩
        · simp [Store.status?, hr, hs']
        · have := (U.awaits (by simpa using hw.symm)).1
          simp [hs'] at this
    · obtain rfl : control = .run (.job ⟨.completeModule m, .ok ()⟩) := hM
      obtain ⟨p, hb, -⟩ := hv.ledger.job m (.ok ()) (List.mem_append_left _ List.mem_cons_self)
      obtain ⟨q, hq, hw⟩ := hv.sound.began m _ hb
      obtain ⟨r, hr, rfl⟩ := Store.source?_of_outline hq
      by_contra hnot
      have hr : s.source? m = some r := hr
      have hst' : r.status = .evaluated := by simpa [Store.status?, hr] using hst
      have he : r.evaluationError = none := by
        simpa [Store.evaluationError?, hr] using hnot
      obtain ⟨p', -, -, ht⟩ := hv.fulfilled m _ hq (by simp [hst']) he hw.symm
      simp [Store.tokens, State.scene, Machine.scene_run, Task.hand, Reaction.completes] at ht

/-! ### Graphs for which it holds, and does not -/

theorem evaluated_bodies_ended_deferredGraph :
    deferredGraph.Fresh ∧ ∃ st H, Run Machine.Orderly deferredGraph st H ∧
      (∀ m ∈ [⟨0⟩, ⟨1⟩, ⟨2⟩], st.store.status? m = some .evaluated) ∧
      ∀ m r, st.store.source? m = some r → r.status = .evaluated → r.evaluationError = none →
        if r.entries.awaits then
          ∃ p, .began m (some p) ∈ H ∧ st.store.promise? p = some .fulfilled
        else .ended m none (.ok ()) ∈ H := by
  have hrun := Run.ofPlay Machine.checkOrderly deferredGraph 100 deferredCalls
    (fun _ _ ↦ Machine.orderly_of_check) (by decide +kernel)
  exact ⟨deferredGraph_fresh, _, _, hrun, by decide +kernel,
    (evaluated_bodies_ended deferredGraph_fresh hrun).1⟩

/-- The last module awaits, and is on the stack of a walk when the search that led to it ends. -/
def strandedGraph : Store where
  modules := #[.linked false [("late", .defer, 4), ("start", .evaluation, 2)],
    .linked false [("search", .defer, 0)], .linked false [("inner", .defer, 1)],
    .linked true [], .linked true [("tla", .evaluation, 3), ("inner", .evaluation, 1)]]

theorem strandedGraph_evaluated_unexecuted :
    strandedGraph.Fresh ∧ ∃ st H, Run (fun _ _ ↦ True) strandedGraph st H ∧
      st.store.status? ⟨4⟩ = some .evaluated ∧ st.store.evaluationError? ⟨4⟩ = none ∧
      (st.store.entries ⟨4⟩).awaits = true ∧ ¬∃ c, .began ⟨4⟩ c ∈ H := by
  refine ⟨Store.fresh_of_linked (l := [(false, [("late", .defer, 4), ("start", .evaluation, 2)]),
    (false, [("search", .defer, 0)]), (false, [("inner", .defer, 1)]), (true, []),
    (true, [("tla", .evaluation, 3), ("inner", .evaluation, 1)])]) rfl rfl rfl, ?_⟩
  have hrun := Run.ofPlay (fun _ _ ↦ true) strandedGraph 400 [.evaluate ⟨2⟩]
    (fun _ _ _ ↦ trivial) (by decide +kernel)
  refine ⟨_, _, hrun, by decide +kernel, by decide +kernel, by decide +kernel, ?_⟩
  rw [← Sound.mem_begun]
  decide +kernel

end EcmaModules
