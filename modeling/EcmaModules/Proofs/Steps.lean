import EcmaModules.Proofs.Freeing

/-!
# Steps of the machine

Every step of the machine is a few moves in a row.

That needs to know how tasks and frames lie on top of each other. What belongs at the bottom is
there; what loads has only such frames below it as load, too; and a frame that waits for a body knows
what the history tells of its call.
-/

namespace EcmaModules

/-! ## Frames -/

/-- The task is part of loading. -/
def Task.isLoad : Task → Bool
  | .load _ _ | .loading _ | .ask _ | .answers _ => true
  | _ => false

/-- The frame is part of loading. -/
def Frame.isLoad : Frame → Bool
  | .loadPromise _ | .asked _ | .moreAnswers _ => true
  | _ => false

/-- The call of a body that the frame waits for. -/
def Frame.calls : Frame → List (ModuleId × Option PromiseId)
  | .executed _ m capability _ | .freed m capability _ => [(m, capability)]
  | _ => []

/-- What comes next is part of loading. -/
def Next.isLoad : Next → Bool
  | .goto t => t.isLoad
  | .call t f => t.isLoad || f.isLoad
  | .give _ => false

/-- How frames lie on top of each other. -/
structure Piled (fs : List Frame) (H : List Event) : Prop where
  base : ∀ above f below, fs = above ++ f :: below → f.isBase = true → below = []
  load : ∀ above f below, fs = above ++ f :: below → f.isLoad = true → ∀ g ∈ below, g.isLoad = true
  called : ∀ f ∈ fs, ∀ x ∈ f.calls, .began x.1 x.2 ∈ H

/-- What comes next fits on top of the frames. -/
structure Next.Fits (n : Next) (fs : List Frame) (H : List Event) : Prop where
  base : n.isBase = true → fs = []
  load : n.isLoad = true → ∀ g ∈ fs, g.isLoad = true
  call : ∀ t f, n = .call t f →
    t.isBase = false ∧ (t.isLoad = true → f.isLoad = true) ∧ ∀ x ∈ f.calls, .began x.1 x.2 ∈ H

/-- How the task and the frames of a machine lie on top of each other, and what holds of the walks
that link. -/
structure Machine.Fit (M : Machine) (H : List Event) : Prop where
  piled : Piled M.frames H
  current : M.current.Fits M.frames H
  linkage : Linkage M.store M.linkTours

theorem Piled.tail {f : Frame} {fs : List Frame} {H : List Event} (h : Piled (f :: fs) H) :
    Piled fs H := by
  refine ⟨fun above g below hfs ↦ h.base (f :: above) g below (by rw [hfs]; rfl),
    fun above g below hfs ↦ h.load (f :: above) g below (by rw [hfs]; rfl), fun g hg ↦ ?_⟩
  exact h.called g (List.mem_cons_of_mem _ hg)

theorem Piled.mono {fs : List Frame} {H H' : List Event} (h : Piled fs H) (hH : H ⊆ H') :
    Piled fs H' := ⟨h.base, h.load, fun f hf x hx ↦ hH (h.called f hf x hx)⟩

theorem Next.Fits.give (r : Result) (fs : List Frame) (H : List Event) :
    (Next.give r).Fits fs H :=
  ⟨(fun h ↦ nomatch h), (fun h ↦ nomatch h), fun _ _ h ↦ nomatch h⟩

namespace Machine

variable {s : Store} {n : Next} {fs : List Frame} {H : List Event}

theorem frames_apply : (apply fs (s, n)).frames = match n with
    | .call _ f => f :: fs
    | _ => fs := by
  cases n <;> rfl

/-- The machine after a step whose result fits on top of the frames. -/
theorem Fit.apply {x : Store × Next} (hfs : Piled fs H) (hn : x.2.Fits fs H)
    (hl : Linkage x.1 (x.2.linkTours ++ fs.flatMap Frame.linkTours)) :
    (Machine.apply fs x).Fit H := by
  obtain ⟨s, n⟩ := x
  refine ⟨?_, ?_, ?_⟩
  · cases n with
    | goto t => exact hfs
    | give r => exact hfs
    | call t f =>
      obtain ⟨ht, hload, hcalls⟩ := hn.call t f rfl
      refine ⟨fun above g below h hg ↦ ?_, fun above g below h hg ↦ ?_, ?_⟩
      · rcases above with _ | ⟨a, above⟩
        · obtain ⟨rfl, rfl⟩ := List.cons.inj h
          exact hn.base (by simp [Next.isBase, hg])
        · exact hfs.base above g below (List.cons.inj h).2 hg
      · rcases above with _ | ⟨a, above⟩
        · obtain ⟨rfl, rfl⟩ := List.cons.inj h
          exact hn.load (by simp [Next.isLoad, hg])
        · exact hfs.load above g below (List.cons.inj h).2 hg
      · exact List.forall_mem_cons.2 ⟨hcalls, hfs.called⟩
  · cases n with
    | goto t => exact ⟨hn.base, hn.load, fun _ _ h ↦ by cases h⟩
    | give r => exact .give r fs H
    | call t f =>
      obtain ⟨ht, hload, -⟩ := hn.call t f rfl
      refine ⟨fun h ↦ ?_, fun h ↦ ?_, fun _ _ h ↦ by cases h⟩
      · exact absurd (ht.symm.trans h) Bool.false_ne_true
      · refine List.forall_mem_cons.2 ⟨hload h, hn.load ?_⟩
        simp [Next.isLoad, show t.isLoad = true from h]
  · rwa [store_apply, linkTours_apply]

/-- The scene after a step. -/
theorem scene_apply : (Machine.apply fs (s, n)).scene H =
    ⟨s, n.tours ++ fs.flatMap Frame.tours, n.queue ++ fs.flatMap Frame.queue,
      n.lone ++ fs.flatMap Frame.lone, [], n.hand, H⟩ := by
  unfold scene
  rw [store_apply, tours_apply, queue_apply, lone_apply]
  cases n <;> rfl

end Machine

/-! ## Steps that are nothing to evaluation -/

theorem Next.Still.call {n : Next} (h : n.Still) {t : Task} {f : Frame} (hc : n = .call t f) :
    t.isBase = false ∧ f.calls = [] := by
  subst hc
  have hbase := h.isBase
  have htours := h.tours
  simp only [Next.isBase, Bool.or_eq_false_iff] at hbase
  simp only [Next.tours, List.append_eq_nil_iff] at htours
  refine ⟨hbase.1, ?_⟩
  cases f <;> simp_all [Frame.calls, Frame.tours, Frame.isBase]

theorem Next.Still.fits_of_load {n : Next} (h : n.Still) {fs : List Frame} (H : List Event)
    (hfs : n.isLoad = true → ∀ g ∈ fs, g.isLoad = true)
    (hcall : ∀ t f, n = .call t f → t.isLoad = true → f.isLoad = true) : n.Fits fs H := by
  refine ⟨fun hb ↦ absurd (h.isBase.symm.trans hb) Bool.false_ne_true, hfs, fun t f hc ↦ ?_⟩
  obtain ⟨hbase, hcalls⟩ := h.call hc
  exact ⟨hbase, hcall t f hc, by rw [hcalls]; exact fun _ hx ↦ absurd hx List.not_mem_nil⟩

theorem Next.Still.fits {n : Next} (h : n.Still) (hn : n.isLoad = false) (fs : List Frame)
    (H : List Event) : n.Fits fs H := by
  refine h.fits_of_load H (fun hl ↦ absurd (hn.symm.trans hl) Bool.false_ne_true) fun t f hc hl ↦ ?_
  subst hc
  simp [Next.isLoad, hl] at hn

/-- The scene does not change by such a step, but for the store. -/
theorem Next.Still.scene {x : Store × Next} (h : x.2.Still) (fs : List Frame) (H : List Event) :
    (Machine.apply fs x).scene H = ⟨x.1, fs.flatMap Frame.tours, fs.flatMap Frame.queue,
      fs.flatMap Frame.lone, [], [], H⟩ := by
  obtain ⟨s, n⟩ := x
  rw [Machine.scene_apply, h.tours, h.queue, h.lone, h.hand]
  rfl

/-! ## Walks -/

namespace EvaluationStep

variable (s : Store) (goal : EvaluationGoal) (step : EvaluationStep) (fs : List Frame)
  (H : List Event)

/-- The scene after a step of a walk. -/
theorem scene_next : (Machine.apply fs (step.next s goal)).scene ((step.next s goal).2.began ++ H) =
    step.lands s goal (fs.flatMap Frame.tours) (fs.flatMap Frame.queue) (fs.flatMap Frame.lone)
      H := by
  cases step with
  | done => cases goal <;> exact Machine.scene_apply
  | failed e stack => cases goal <;> exact Machine.scene_apply
  | go w => exact Machine.scene_apply
  | synthetic m w => exact Machine.scene_apply
  | execute m capability w => cases capability <;> exact Machine.scene_apply

theorem linkTours_next : (step.next s goal).2.linkTours = [] := by
  cases step <;> cases goal <;> rfl

/-- A walk that is at the bottom stays there. -/
theorem fits_next (hbase : (∃ root p, goal = .promise root p) → fs = []) :
    (step.next s goal).2.Fits fs ((step.next s goal).2.began ++ H) := by
  have hgoal : ∀ {root p}, goal = .promise root p → fs = [] := fun h ↦ hbase ⟨_, _, h⟩
  cases step with
  | done => cases goal <;> exact .give _ _ _
  | failed e stack => cases goal <;> exact .give _ _ _
  | go w =>
    refine ⟨fun h ↦ ?_, nofun, fun _ _ h ↦ nomatch h⟩
    cases goal <;> first | exact hgoal rfl | cases h
  | synthetic m w =>
    refine ⟨fun h ↦ ?_, nofun, fun t f h ↦ ?_⟩
    · cases goal <;> first | exact hgoal rfl | cases h
    · cases h
      exact ⟨rfl, nofun, nofun⟩
  | execute m capability w =>
    refine ⟨fun h ↦ ?_, nofun, fun t f h ↦ ?_⟩
    · cases goal <;> first | exact hgoal rfl | cases h
    · cases h
      refine ⟨rfl, nofun, fun x hx ↦ ?_⟩
      obtain rfl := List.mem_singleton.1 hx
      exact List.mem_cons_self

end EvaluationStep

/-! ## Linking -/

section

variable {s : Store} {L : List LinkTour} {w : LinkWalk} {m : ModuleId}

theorem LinkWalk.unlink_inside (h : Linkage s (w.tour :: L)) {stack : List ModuleId}
    (hstack : stack = w.stack) : Inside s (s.unlink stack) ∧ Linkage (s.unlink stack) L := by
  subst hstack
  refine ⟨Store.foldl_setStatus_inside rfl _ _ fun x hx r hr ↦
    Store.outline_of_linking (h.linking _ List.mem_cons_self x hx) r hr,
    h.tail.nodup, h.tail.path, fun t ht x hx ↦ ?_⟩
  refine (Store.status?_foldl_setStatus (fun hx' ↦ ?_) s).trans (h.tail.linking t ht x hx)
  exact (List.nodup_append.1 h.nodup).2.2 x hx' x (List.mem_flatMap.2 ⟨t, ht, hx⟩) rfl

theorem LinkStep.next_still (s : Store) (step : LinkStep) :
    (step.next s).2.Still ∧ (step.next s).2.isLoad = false := by
  cases step <;> exact ⟨⟨rfl, rfl, rfl, rfl, rfl, rfl⟩, rfl⟩

theorem Store.startLinking_cases (h : Linkage s L) (m : ModuleId) :
    (∃ w s', s.startLinking m = (.ok w, s') ∧ Inside s s' ∧ Linkage s' (w.tour :: L)) ∨
      ∃ e s', s.startLinking m = (.error e, s') ∧ Inside s s' ∧ Linkage s' L := by
  have hthrow : ∀ kind message, Inside s (s.throw kind message).2 ∧
      Linkage (s.throw kind message).2 L := fun kind message ↦
    ⟨(Aside.throw s kind message).inside, h.keep fun _ _ _ _ hx ↦ hx⟩
  unfold startLinking
  split
  · exact .inr ⟨_, _, rfl, hthrow _ _⟩
  · exact .inr ⟨_, _, rfl, hthrow _ _⟩
  · by_cases hm : s.status? m = some .unlinked
    · obtain ⟨s', w', heq, hinside, hl⟩ := LinkWalk.enter_linkage (m := m) h.cons_empty hm
      rw [heq]
      exact .inl ⟨w', s', rfl, hinside, hl⟩
    · have heq : LinkWalk.enter s {} m = (s, none) := by rw [LinkWalk.enter, if_neg hm]
      rw [heq]
      exact .inl ⟨{}, s, rfl, (Aside.refl s).inside, h.cons_empty⟩

/-- A step by which linking starts. -/
theorem Task.link_inside (h : Linkage s L) (m : ModuleId) :
    Inside s (Task.advance s (.link m)).1 ∧ (Task.advance s (.link m)).2.Still ∧
      (Task.advance s (.link m)).2.isLoad = false ∧
      Linkage (Task.advance s (.link m)).1 ((Task.advance s (.link m)).2.linkTours ++ L) := by
  rcases s.startLinking_cases h m with ⟨w, s', heq, hinside, hl⟩ | ⟨e, s', heq, hinside, hl⟩
  · simp only [Task.advance, heq]
    exact ⟨hinside, ⟨rfl, rfl, rfl, rfl, rfl, rfl⟩, rfl, hl⟩
  · simp only [Task.advance, heq]
    exact ⟨hinside, ⟨rfl, rfl, rfl, rfl, rfl, rfl⟩, rfl, hl⟩

/-- A step of a walk that links. -/
theorem LinkWalk.advance_inside (h : Linkage s (w.tour :: L)) :
    Inside s ((w.advance s).2.next (w.advance s).1).1 ∧
      Linkage ((w.advance s).2.next (w.advance s).1).1
        (((w.advance s).2.next (w.advance s).1).2.linkTours ++ L) := by
  obtain ⟨frames, stack, index⟩ := w
  rcases frames with _ | ⟨⟨m, requests⟩, rest⟩
  · exact ⟨(Aside.refl s).inside, h.tail⟩
  rcases requests with _ | ⟨r, requests⟩
  · have hapart := s.initializeEnvironment_furnishing m
    have hinside := hapart.inside_of_furnishing
    simp only [LinkWalk.advance]
    split
    next s' heq =>
      rw [heq] at hapart hinside
      refine ⟨hinside, ?_⟩
      exact Linkage.keep (s := s) h fun _ _ x _ hx ↦ (hapart.level.status x).trans hx
    next e s' heq =>
      rw [heq] at hapart hinside
      have hl := Linkage.keep h fun _ _ x _ hx ↦ (hapart.level.status x).trans hx
      obtain ⟨hunlink, hl'⟩ := LinkWalk.unlink_inside hl rfl
      exact ⟨hinside.trans hunlink, hl'⟩
  · have hgo : Linkage s (LinkWalk.tour ⟨⟨m, requests⟩ :: rest, stack, index⟩ :: L) :=
      h.replace (.refl _) rfl
    simp only [LinkWalk.advance]
    split
    · exact ⟨(Aside.refl s).inside, hgo⟩
    next d hd =>
      by_cases hs : s.status? d = some .unlinked
      · obtain ⟨s', w', heq, hinside, hl⟩ := LinkWalk.enter_linkage hgo hs
        rw [heq]
        exact ⟨hinside, hl⟩
      · have heq : LinkWalk.enter s ⟨⟨m, requests⟩ :: rest, stack, index⟩ d = (s, none) := by
          rw [LinkWalk.enter, if_neg hs]
        rw [heq]
        have hm : s.status? m = some .linking := by
          refine hgo.linking _ List.mem_cons_self m ?_
          exact (hgo.path _ List.mem_cons_self).subset List.mem_cons_self
        exact ⟨LinkWalk.leave_inside hm d, hgo.keep fun _ _ x _ hx ↦ (LinkWalk.status?_leave _ _ _ x).trans hx⟩

/-- A walk that links goes on when the environment of a module has been set up. -/
theorem Frame.setUp_inside (h : Linkage s (w.tourAt m :: L)) (r : Result) :
    Inside s (Frame.resume s r (.setUp m w)).1 ∧ (Frame.resume s r (.setUp m w)).2.Still ∧
      (Frame.resume s r (.setUp m w)).2.isLoad = false ∧
      Linkage (Frame.resume s r (.setUp m w)).1
        ((Frame.resume s r (.setUp m w)).2.linkTours ++ L) := by
  simp only [Frame.resume]
  split
  · obtain ⟨hinside, hl⟩ := LinkWalk.conclude_linkage h
    exact ⟨hinside, ⟨rfl, rfl, rfl, rfl, rfl, rfl⟩, rfl, hl⟩
  next e _ =>
    have hl : Linkage s (w.tour :: L) := h.replace (List.sublist_cons_self _ _) rfl
    obtain ⟨hinside, hl'⟩ := LinkWalk.unlink_inside hl rfl
    exact ⟨hinside, ⟨rfl, rfl, rfl, rfl, rfl, rfl⟩, rfl, hl'⟩

end

/-! ## Loading -/

theorem Body.advance_isLoad (s : Store) (b : Body) : (b.advance s).2.isLoad = false := by
  unfold advance
  split
  · rfl
  · dsimp only
    split <;> rfl

theorem Store.read_isLoad (s : Store) (n : NamespaceId) (name : String) :
    (s.read n name).2.isLoad = false := by
  unfold Store.read
  split <;> rfl

theorem Task.advance_isLoad (s : Store) {t : Task} (ht : t.isWalk = false)
    (hl : t.isLoad = false) : (t.advance s).2.isLoad = false := by
  cases t with
  | body b => exact b.advance_isLoad s
  | read n name => exact s.read_isLoad n name
  | synthetic m =>
    simp only [Task.advance]
    split <;> rfl
  | _ => simp [Task.isWalk, Task.isLoad] at ht hl

/-- Loading goes on in frames that are part of it. -/
theorem Task.advance_load (s : Store) {t : Task} (hl : t.isLoad = true) (t' : Task) (f : Frame)
    (h : (t.advance s).2 = .call t' f) : f.isLoad = true := by
  cases t with
  | load m hostDefined =>
    simp only [Task.advance] at h
    split at h <;> cases h
    rfl
  | loading w =>
    simp only [Task.advance] at h
    generalize (w.advance s).1 = s' at h
    cases hstep : (w.advance s).2 <;> rw [hstep] at h <;> cases h
    rfl
  | ask q => contradiction
  | answers as =>
    rcases as with _ | ⟨a, rest⟩
    · contradiction
    · simp only [Task.advance] at h
      split at h <;> cases h
      rfl
  | _ => contradiction

theorem Frame.resume_isLoad (s : Store) (r : Result) {f : Frame} (hf : f.isWalk = false)
    (hl : f.isLoad = false) : (f.resume s r).2.isLoad = false := by
  cases f with
  | bodyRead b label probe =>
    simp only [Frame.resume]
    split <;> rfl
  | bodyLink b name =>
    simp only [Frame.resume]
    split <;> rfl
  | bodyEvaluate b name =>
    simp only [Frame.resume]
    split <;> rfl
  | readForced n name =>
    simp only [Frame.resume]
    split <;> rfl
  | syntheticSteps m => rfl
  | syntheticPromise => rfl
  | _ => simp [Frame.isWalk, Frame.isLoad] at hf hl

theorem Frame.tours_of_isLoad {f : Frame} (h : f.isLoad = true) : f.tours = [] := by
  cases f <;> first | rfl | cases h

theorem flatMap_tours_of_isLoad {fs : List Frame} (h : ∀ f ∈ fs, f.isLoad = true) :
    fs.flatMap Frame.tours = [] :=
  List.flatMap_eq_nil_iff.2 fun f hf ↦ f.tours_of_isLoad (h f hf)

theorem Task.source?_synthetic (s : Store) (m x : ModuleId) :
    (Task.advance s (.synthetic m)).1.source? x = s.source? x := by
  have heq : (Task.advance s (.synthetic m)).1 = (s.startSynthetic m).2 := by
    simp only [Task.advance]
    split <;> next heq => rw [heq]
  rw [heq]
  unfold Store.startSynthetic
  split
  · rfl
  · split
    · rfl
    · rfl
    · exact Store.source?_modifySynthetic s m _ x

theorem Task.imported_advance (s : Store) {t : Task} (ht : t.isWalk = false)
    (hl : t.isLoad = false) : SameImports s (t.advance s).1 := by
  cases t with
  | synthetic m =>
    intro x r
    simp only [Store.imported?, Task.source?_synthetic]
  | body b => exact (b.advance_apart s).steady.imported
  | read n name => exact (s.read_quiet n name).1.steady.imported
  | _ => simp [Task.isWalk, Task.isLoad] at ht hl

theorem Frame.imported_resume (s : Store) (r : Result) {f : Frame} (hf : f.isWalk = false) :
    SameImports s (f.resume s r).1 := by
  cases f with
  | syntheticSteps m =>
    intro x r
    simp only [Frame.resume, Store.finishSynthetic, Store.imported?, Store.source?_modifySynthetic]
  | _ => exact ((Frame.resume_quiet s r hf).2.2 (by simp)).steady.imported

/-! ## Starting to evaluate -/

/-- What is done before an export of a deferred namespace is read. -/
theorem Store.force_cases {s : Store} {m : ModuleId} {q : SourceText}
    (hm : s.source? m = some q) :
    (∃ c s', s.force m = (.over c, s') ∧ Apart s s') ∨
      (s.force m = (.evaluate, s) ∧ q.status ≠ .evaluated ∧ q.status ≠ .evaluating ∧
        q.status ≠ .evaluatingAsync ∧ s.isReady m = true) := by
  unfold Store.force
  simp only [hm]
  cases hs : q.status with
  | evaluated =>
    rcases q.evaluationError with _ | e
    · exact .inl ⟨_, _, rfl, .refl s⟩
    · exact .inl ⟨_, _, rfl, .refl s⟩
  | evaluating => exact .inl ⟨_, _, rfl, .refl s⟩
  | evaluatingAsync => exact .inl ⟨_, _, rfl, .refl s⟩
  | new => exact .inl ⟨_, _, rfl, .throw s _ _⟩
  | unlinked => exact .inl ⟨_, _, rfl, .throw s _ _⟩
  | linking => exact .inl ⟨_, _, rfl, .throw s _ _⟩
  | _ =>
    cases hr : s.isReady m with
    | false => exact .inl ⟨_, _, rfl, .refl s⟩
    | true => exact .inr ⟨rfl, nofun, nofun, nofun, rfl⟩

theorem Store.status?_newCapability (s : Store) (m x : ModuleId) :
    (s.newCapability m).2.status? x = s.status? x := by
  refine (Store.status?_modifySource_of_status (s := s.newPromise.2) (m := m)
    (f := fun r ↦ { r with capability := some s.newPromise.1 }) ?_ x).trans rfl
  exact fun _ ↦ rfl

end EcmaModules
