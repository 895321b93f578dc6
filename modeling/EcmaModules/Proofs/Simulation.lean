import EcmaModules.Proofs.Steps

/-!
# Runs as moves

The scene of a run goes through moves only, from that of a store in which nothing has been evaluated.
So the invariant of scenes holds in every run.

Two things can go wrong in a run, and are left out: that a walk enters a module that is still being
searched, and that a module which is being linked is given another status meanwhile.
-/

namespace EcmaModules

/-- The step goes on with linking. -/
def Machine.links (M : Machine) : Prop :=
  (∃ w, M.control = .run (.linking w)) ∨
    ∃ r m w fs, M.control = .give r ∧ M.frames = .setUp m w :: fs

/-- A walk comes to the module in the next step. -/
def Machine.comesTo (M : Machine) (d : ModuleId) : Prop :=
  match M.control with
  | .run (.evaluation _ w) => w.ComesTo M.store d
  | .run (.evaluate m) => M.store.evaluationRoot m = d
  | .run (.force m) => m = d
  | _ => False

/-- What the walk on top comes to in the next step. -/
def Machine.walkStep? (M : Machine) : Option EvaluationStep :=
  match M.control, M.frames with
  | .run (.evaluation _ w), _ => some (w.advance M.store).2
  | .give r, .executed _ m capability w :: _ =>
    some (w.executed M.store m capability r.toCompletion).2
  | .give r, .passed _ w :: _ => some (w.passed M.store r.toCompletion).2
  | _, _ => none

/-- The modules that the walk on top leaves on its stack, if it fails in the next step. -/
def Machine.lost (M : Machine) : List ModuleId :=
  match M.walkStep? with
  | some (.failed _ stack) => stack
  | _ => []

theorem Machine.lost_of_failed {M : Machine} {e : ErrorId} {stack : List ModuleId}
    (h : M.walkStep? = some (.failed e stack)) : M.lost = stack := by
  rw [lost, h]

/-- No module has failed, and none does in the next step. -/
structure Machine.Flawless (M : Machine) : Prop where
  errors : ∀ m, M.store.evaluationError? m = none
  walks : ∀ e stack, M.walkStep? ≠ some (.failed e stack)
  bodies : ∀ m c e, .ended m c (.error e) ∉ M.ended
  jobs : ∀ m e, M.control ≠ .run (.job ⟨.completeModule m, .error e⟩)

/-- What a step has to grant. -/
structure Machine.Grants (mode : Mode) (M M' : Machine) : Prop where
  admits : EvaluationWalk.Admits mode M.comesTo M.store M'.store
  loads : mode.loads M.store ∨ ∀ t, M.control = .run t → t.isLoad = false
  linking : M.links ∨ M.store.KeepsLinking M'.store M.linkTours
  closed : mode.opens ∨ M.store.Closed M.lost
  forces : mode.forces ∨ ∀ m, M.control ≠ .run (.force m)
  nests : mode.nests ∨ ∀ m, M.control = .run (.force m) → M.tours = []
  loaded : mode.skips ∨ ∀ goal w, M.control = .run (.evaluation goal w) → w.Loaded M.store
  fails : mode.fails ∨ M.Flawless
  starts : ∀ m, M.control = .run (.evaluate m) → mode.starts M.store

/-- A module that makes a walk fail has failed. -/
theorem SourceText.error_of_fail {r : SourceText} {t : Traversal} {e : ErrorId}
    (h : r.arrival t = .fail e) : r.evaluationError = some e := by
  unfold arrival at h
  rcases he : r.evaluationError with _ | e' <;> rw [he] at h <;> dsimp only at h <;>
    split at h <;> cases h
  all_goals rfl

/-- A walk that fails at once has nothing on its stack, and the module that it starts at has
failed. -/
theorem EvaluationWalk.stack_of_start {s : Store} {m : ModuleId} {e : ErrorId}
    {stack : List ModuleId} (h : (EvaluationWalk.start s m).2 = .failed e stack) :
    stack = [] ∧ s.evaluationError? m = some e := by
  unfold EvaluationWalk.start EvaluationWalk.arrive at h
  split at h
  · exact nomatch h
  · next r hr =>
    split at h
    · next e' ha =>
      obtain ⟨rfl, hstack⟩ := EvaluationStep.failed.inj h
      refine ⟨hstack.symm, ?_⟩
      rw [Store.evaluationError?, hr]
      exact SourceText.error_of_fail ha
    · exact nomatch h
    · exact nomatch h

theorem EvaluationWalk.fenced_start {mode : Mode} {s : Store} {m : ModuleId} (s' : Store)
    (h : mode.fails ∨ s.evaluationError? m = none) :
    (EvaluationWalk.start s m).2.Fenced mode s' := by
  intro e stack hfailed
  obtain ⟨rfl, herror⟩ := EvaluationWalk.stack_of_start hfailed
  have hfails : mode.fails := h.resolve_right fun hnone ↦ nomatch herror.symm.trans hnone
  exact ⟨hfails, .inr fun d hd ↦ absurd hd List.not_mem_nil⟩

namespace Machine

variable {mode : Mode} {s : Store} {t : Task} {fs : List Frame} {f : Frame} {r : Result}
  {H : List Event}

/-- The scene of a machine that is at a task. -/
theorem scene_run : (Machine.mk s (.run t) fs).scene H =
    ⟨s, t.tours ++ fs.flatMap Frame.tours, t.queue ++ fs.flatMap Frame.queue,
      fs.flatMap Frame.lone, [], t.hand, H⟩ := rfl

/-- The scene of a machine that has a result. -/
theorem scene_give : (Machine.mk s (.give r) fs).scene H =
    ⟨s, fs.flatMap Frame.tours, fs.flatMap Frame.queue, fs.flatMap Frame.lone, [], [], H⟩ := rfl

/-- Nothing is under way or waits to be executed above the bottom. -/
theorem Fit.of_isBase (h : (Machine.mk s (.run t) fs).Fit H) (ht : t.isBase = true) : fs = [] :=
  h.current.base ht

/-- A step that is nothing to evaluation. -/
theorem moves_of_still {f : List Frame} {x : Store × Next} (hn : x.2.Still) (ha : Afar s x.1)
    (hi : (f.flatMap Frame.tours = [] ∧ mode.loads s) ∨ SameImports s x.1) :
    Moves mode ⟨s, f.flatMap Frame.tours, f.flatMap Frame.queue, f.flatMap Frame.lone, [], [], H⟩
      ((Machine.apply f x).scene H) := by
  rw [hn.scene]
  exact .single (.aside ha hi)

/-- A task that is nothing to walks. -/
theorem step_quiet (hfit : (Machine.mk s (.run t) fs).Fit H) (ht : t.isWalk = false)
    (hloads : mode.loads s ∨ t.isLoad = false)
    (hlinking : s.KeepsLinking (t.advance s).1 (fs.flatMap Frame.linkTours)) :
    Moves mode ((Machine.mk s (.run t) fs).scene H) ((Machine.apply fs (t.advance s)).scene H) ∧
      (Machine.apply fs (t.advance s)).Fit H := by
  obtain ⟨ha, hq, -⟩ := Task.advance_quiet s ht
  have htours : t.tours = [] ∧ t.queue = [] ∧ t.hand = [] ∧ t.linkTours = [] := by
    cases t <;> simp [Task.isWalk, Task.tours, Task.queue, Task.hand, Task.linkTours] at ht ⊢
  refine ⟨?_, .apply hfit.piled ?_ ?_⟩
  · rw [scene_run, htours.1, htours.2.1, htours.2.2.1]
    refine moves_of_still hq.toStill ha ?_
    cases hl : t.isLoad with
    | true =>
      refine .inl ⟨flatMap_tours_of_isLoad (hfit.current.load hl), ?_⟩
      exact hloads.resolve_right (by simp [hl])
    | false => exact .inr (Task.imported_advance s ht hl)
  · cases hl : t.isLoad with
    | true =>
      exact hq.toStill.fits_of_load H (fun _ ↦ hfit.current.load hl)
        fun t' f hc _ ↦ Task.advance_load s hl t' f hc
    | false => exact hq.toStill.fits (Task.advance_isLoad s ht hl) fs H
  · rw [hq.linkTours]
    have := hfit.linkage
    simp only [linkTours, htours.2.2.2] at this
    exact this.keep hlinking

/-- A frame that is nothing to walks. -/
theorem resume_quiet (hfit : (Machine.mk s (.give r) (f :: fs)).Fit H) (hf : f.isWalk = false)
    (hlinking : s.KeepsLinking (f.resume s r).1 (fs.flatMap Frame.linkTours)) :
    Moves mode ((Machine.mk s (.give r) (f :: fs)).scene H)
        ((Machine.apply fs (f.resume s r)).scene H) ∧
      (Machine.apply fs (f.resume s r)).Fit H := by
  obtain ⟨ha, hq, -⟩ := Frame.resume_quiet s r hf
  have htours : f.tours = [] ∧ f.queue = [] ∧ f.lone = [] ∧ f.linkTours = [] := by
    cases f <;> simp [Frame.isWalk, Frame.tours, Frame.queue, Frame.lone, Frame.linkTours] at hf ⊢
  refine ⟨?_, .apply hfit.piled.tail ?_ ?_⟩
  · rw [scene_give, List.flatMap_cons, List.flatMap_cons, List.flatMap_cons, htours.1, htours.2.1,
      htours.2.2.1]
    exact moves_of_still hq.toStill ha (.inr (Frame.imported_resume s r hf))
  · cases hl : f.isLoad with
    | true =>
      refine hq.toStill.fits_of_load H (fun _ ↦ hfit.piled.load [] f fs rfl hl) fun t' g hc _ ↦ ?_
      cases f <;> first | cases hc | simp [Frame.isLoad] at hl
    | false => exact hq.toStill.fits (Frame.resume_isLoad s r hf hl) fs H
  · rw [hq.linkTours]
    have := hfit.linkage
    simp only [linkTours, List.flatMap_cons, htours.2.2.2] at this
    exact this.keep hlinking

/-- A step that starts to link. -/
theorem step_link {m : ModuleId} (hfit : (Machine.mk s (.run (.link m)) fs).Fit H) :
    Moves mode ((Machine.mk s (.run (.link m)) fs).scene H)
        ((Machine.apply fs (Task.advance s (.link m))).scene H) ∧
      (Machine.apply fs (Task.advance s (.link m))).Fit H := by
  obtain ⟨hi, hn, hl, hlinkage⟩ := Task.link_inside (L := fs.flatMap Frame.linkTours) hfit.linkage m
  exact ⟨moves_of_still hn hi.afar (.inr hi.same.imported),
    .apply hfit.piled (hn.fits hl fs H) hlinkage⟩

/-- A step that goes on with linking. -/
theorem step_linking {w : LinkWalk} (hfit : (Machine.mk s (.run (.linking w)) fs).Fit H) :
    Moves mode ((Machine.mk s (.run (.linking w)) fs).scene H)
        ((Machine.apply fs (Task.advance s (.linking w))).scene H) ∧
      (Machine.apply fs (Task.advance s (.linking w))).Fit H := by
  obtain ⟨hi, hlinkage⟩ := LinkWalk.advance_inside (L := fs.flatMap Frame.linkTours) hfit.linkage
  obtain ⟨hn, hl⟩ := LinkStep.next_still (w.advance s).1 (w.advance s).2
  have heq : Task.advance s (.linking w) = (w.advance s).2.next (w.advance s).1 := rfl
  rw [heq]
  exact ⟨moves_of_still hn hi.afar (.inr hi.same.imported),
    .apply hfit.piled (hn.fits hl fs H) hlinkage⟩

/-- The environment of a module has been set up. -/
theorem resume_setUp {m : ModuleId} {w : LinkWalk}
    (hfit : (Machine.mk s (.give r) (.setUp m w :: fs)).Fit H) :
    Moves mode ((Machine.mk s (.give r) (.setUp m w :: fs)).scene H)
        ((Machine.apply fs (Frame.resume s r (.setUp m w))).scene H) ∧
      (Machine.apply fs (Frame.resume s r (.setUp m w))).Fit H := by
  obtain ⟨hi, hn, hl, hlinkage⟩ :=
    Frame.setUp_inside (L := fs.flatMap Frame.linkTours) hfit.linkage r
  refine ⟨?_, .apply hfit.piled.tail (hn.fits hl fs H) hlinkage⟩
  change Moves mode ⟨s, fs.flatMap Frame.tours, fs.flatMap Frame.queue, fs.flatMap Frame.lone, [],
    [], H⟩ _
  exact moves_of_still hn hi.afar (.inr hi.same.imported)

/-- What a step of a walk leads to. -/
theorem of_lands {S : Scene} {goal : EvaluationGoal} {step : EvaluationStep} {s' : Store}
    (hmoves : Moves mode S (step.lands s' goal (fs.flatMap Frame.tours) (fs.flatMap Frame.queue)
      (fs.flatMap Frame.lone) H))
    (hpiled : Piled fs H) (hbase : (∃ root p, goal = .promise root p) → fs = [])
    (hlinkage : Linkage (step.next s' goal).1 (fs.flatMap Frame.linkTours)) :
    Moves mode S ((Machine.apply fs (step.next s' goal)).scene
        ((step.next s' goal).2.began ++ H)) ∧
      (Machine.apply fs (step.next s' goal)).Fit ((step.next s' goal).2.began ++ H) := by
  rw [EvaluationStep.scene_next]
  refine ⟨hmoves, .apply (hpiled.mono (List.subset_append_right _ _)) ?_ ?_⟩
  · exact EvaluationStep.fits_next s' goal step fs H hbase
  · rwa [EvaluationStep.linkTours_next]

/-- A step of a walk. -/
theorem step_evaluation {goal : EvaluationGoal} {w : EvaluationWalk}
    (hv : Valid ((Machine.mk s (.run (.evaluation goal w)) fs).scene H))
    (hfit : (Machine.mk s (.run (.evaluation goal w)) fs).Fit H)
    (hadmits : EvaluationWalk.Admits mode (w.ComesTo s) s (Task.advance s (.evaluation goal w)).1)
    (hlinking : s.KeepsLinking (Task.advance s (.evaluation goal w)).1
      (fs.flatMap Frame.linkTours))
    (hfence : (w.advance s).2.Fenced mode s) (hloaded : mode.skips ∨ w.Loaded s) :
    Moves mode ((Machine.mk s (.run (.evaluation goal w)) fs).scene H)
        ((Machine.apply fs (Task.advance s (.evaluation goal w))).scene
          ((Task.advance s (.evaluation goal w)).2.began ++ H)) ∧
      (Machine.apply fs (Task.advance s (.evaluation goal w))).Fit
        ((Task.advance s (.evaluation goal w)).2.began ++ H) := by
  have heq : Task.advance s (.evaluation goal w) =
      (w.advance s).2.next (w.advance s).1 goal := rfl
  rw [heq] at hadmits hlinking ⊢
  refine of_lands (EvaluationWalk.advance_lands hv hadmits hfence hloaded) hfit.piled ?_
    (hfit.linkage.keep hlinking)
  rintro ⟨root, p, rfl⟩
  exact hfit.current.base rfl

/-- A forced evaluation starts, if need be. -/
theorem step_force {m : ModuleId} (hv : Valid ((Machine.mk s (.run (.force m)) fs).scene H))
    (hfit : (Machine.mk s (.run (.force m)) fs).Fit H)
    (hadmits : EvaluationWalk.Admits mode (m = ·) s (Task.advance s (.force m)).1)
    (hlinking : s.KeepsLinking (Task.advance s (.force m)).1
      (fs.flatMap Frame.linkTours))
    (hnests : mode.forces ∧ (fs.flatMap Frame.tours = [] ∨ mode.nests))
    (hfails : mode.fails ∨ ∀ x, s.evaluationError? x = none) :
    Moves mode ((Machine.mk s (.run (.force m)) fs).scene H)
        ((Machine.apply fs (Task.advance s (.force m))).scene
          ((Task.advance s (.force m)).2.began ++ H)) ∧
      (Machine.apply fs (Task.advance s (.force m))).Fit
        ((Task.advance s (.force m)).2.began ++ H) := by
  have hstay : ∀ {n : Next}, n.Quiet → n.isLoad = false → ∀ s', Apart s s' →
      Moves mode ((Machine.mk s (.run (.force m)) fs).scene H)
          ((Machine.apply fs (s', n)).scene (n.began ++ H)) ∧
        (Machine.apply fs (s', n)).Fit (n.began ++ H) := by
    intro n hn hl s' ha
    rw [hn.began]
    refine ⟨moves_of_still hn.toStill ha.afar (.inr ha.steady.imported),
      .apply hfit.piled (hn.toStill.fits hl fs H) ?_⟩
    rw [hn.linkTours]
    exact hfit.linkage.keep fun _ _ x _ hx ↦ (ha.steady.status x).trans hx
  have hgive : ∀ c s', Apart s s' → _ := fun c ↦ hstay (n := .give (.completion c)) (.give _) rfl
  rcases hm : s.source? m with _ | q
  · have heq : Task.advance s (.force m) = (s, .goto (.synthetic m)) := by
      simp only [Task.advance, Store.forceModule, Store.force, hm]
    rw [heq]
    exact hstay (n := .goto (.synthetic m)) ⟨⟨rfl, rfl, rfl, rfl, rfl, rfl⟩, rfl⟩ rfl s (.refl s)
  rcases Store.force_cases hm with ⟨c, s', hforce, ha⟩ | ⟨hforce, h1, h2, h3, hready⟩
  · have heq : Task.advance s (.force m) = (s', .give (.completion c)) := by
      simp only [Task.advance, Store.forceModule, hforce]
    rw [heq]
    exact hstay (.give _) rfl s' ha
  · have heq : Task.advance s (.force m) = (EvaluationWalk.start s m).2.next
        (EvaluationWalk.start s m).1 (.force m) := by
      simp only [Task.advance, Store.forceModule, hforce]
    rw [heq] at hadmits hlinking ⊢
    have hmove : Move mode ((Machine.mk s (.run (.force m)) fs).scene H) _ :=
      .force hm h1 h2 h3 hready hnests
    refine of_lands (.head hmove (EvaluationWalk.arrive_lands (hmove.valid hv) hadmits
      (EvaluationWalk.fenced_start s (hfails.imp id fun h ↦ h m)))) hfit.piled ?_
      (hfit.linkage.keep hlinking)
    rintro ⟨root, p, h⟩
    contradiction

/-- An evaluation starts. -/
theorem step_evaluate {m : ModuleId} (hv : Valid ((Machine.mk s (.run (.evaluate m)) []).scene H))
    (hfit : (Machine.mk s (.run (.evaluate m)) []).Fit H)
    (hadmits : EvaluationWalk.Admits mode (s.evaluationRoot m = ·) s
      (Task.advance s (.evaluate m)).1)
    (hfails : mode.fails ∨ ∀ x, s.evaluationError? x = none) (hstarts : mode.starts s) :
    Moves mode ((Machine.mk s (.run (.evaluate m)) []).scene H)
        ((Machine.apply [] (Task.advance s (.evaluate m))).scene
          ((Task.advance s (.evaluate m)).2.began ++ H)) ∧
      (Machine.apply [] (Task.advance s (.evaluate m))).Fit
        ((Task.advance s (.evaluate m)).2.began ++ H) := by
  have hlink : ∀ s', Linkage s' ([] ++ ([] : List Frame).flatMap Frame.linkTours) := fun s' ↦
    ⟨List.nodup_nil, by simp, by simp⟩
  simp only [Task.advance, Store.evaluate] at hadmits ⊢
  rcases hm : s.source? m with _ | q
  · refine ⟨.refl, .apply hfit.piled ⟨by simp, by simp, fun t f h ↦ ?_⟩ (hlink s)⟩
    cases h
    exact ⟨rfl, by rintro ⟨⟩, List.forall_mem_nil _⟩
  simp only [hm] at hadmits ⊢
  rcases hp : s.capability? (s.evaluationRoot m) with _ | p
  · simp only [hp] at hadmits ⊢
    set root := s.evaluationRoot m with hroot
    have hstatus : ∀ x, (s.newCapability root).2.status? x = s.status? x := fun x ↦
      Store.status?_newCapability s root x
    have hmove : Move mode ((Machine.mk s (.run (.evaluate m)) []).scene H) _ :=
      .evaluate (by simp [hm]) hroot.symm hp hstarts
    have hroots : SameRoots s (s.newCapability root).2 := by
      have hpromise : SameRoots s s.newPromise.2 := .of_modules rfl
      exact hpromise.trans (.modifySource _ root fun _ ↦ rfl)
    have herror : (s.newCapability root).2.evaluationError? root = s.evaluationError? root := by
      simp only [Store.evaluationError?, Store.newCapability, Store.source?_modifySource, if_true]
      change ((s.source? root).map _).bind _ = _
      cases s.source? root <;> rfl
    refine of_lands (.head hmove (EvaluationWalk.arrive_lands (hmove.valid hv) ?_
      (EvaluationWalk.fenced_start _ (hfails.imp id fun h ↦ herror.trans (h root))))) hfit.piled
      (fun _ ↦ rfl) (hlink _)
    refine ⟨fun x hroot hx ↦ hadmits.searched x hroot (hstatus x ▸ hx), hadmits.searches, ?_⟩
    refine hadmits.roots.imp id fun h x hx ↦ ?_
    rw [hroots x]
    exact h x (hstatus x ▸ hx)
  · exact ⟨.refl, .apply hfit.piled (.give _ _ _) (hlink s)⟩

/-- The next of the modules that were set free is executed. -/
theorem step_free {ms : List ModuleId} (hfit : (Machine.mk s (.run (.free ms)) fs).Fit H) :
    Moves mode ((Machine.mk s (.run (.free ms)) fs).scene H)
        ((Machine.apply fs (Task.advance s (.free ms))).scene
          ((Task.advance s (.free ms)).2.began ++ H)) ∧
      (Machine.apply fs (Task.advance s (.free ms))).Fit
        ((Task.advance s (.free ms)).2.began ++ H) := by
  obtain rfl : fs = [] := hfit.current.base rfl
  have hlink : ∀ s' L, L = [] → Linkage s' (L ++ ([] : List Frame).flatMap Frame.linkTours) := by
    rintro s' L rfl
    exact ⟨List.nodup_nil, by simp, by simp⟩
  rcases ms with _ | ⟨m, rest⟩
  · exact ⟨.refl, .apply hfit.piled (.give _ _ _) (hlink _ _ rfl)⟩
  have hmove : Move mode ⟨s, [], m :: rest, [], [], [], H⟩
      ((s.continueFree m).1.lands (s.continueFree m).2 m rest H) := continueFree_lands
  rcases heq : s.continueFree m with ⟨step, s'⟩
  rw [heq] at hmove
  rcases step with _ | capability
  · have hadv : Task.advance s (.free (m :: rest)) = (s', .goto (.free rest)) := by
      simp only [Task.advance, heq]
    rw [hadv]
    refine ⟨.single (by simpa [Store.FreeStep.lands, Machine.scene_apply, scene_run, Next.tours,
      Next.queue, Next.lone, Next.hand, Next.began, Task.tours, Task.queue, Task.hand] using hmove),
      .apply hfit.piled ⟨fun _ ↦ rfl, by simp, fun _ _ h ↦ absurd h (by simp)⟩ (hlink _ _ rfl)⟩
  · have hadv : Task.advance s (.free (m :: rest)) =
        (s', .call (s'.execution m capability) (.freed m capability rest)) := by
      simp only [Task.advance, heq]
    rw [hadv]
    have hbegan : (Next.call (s'.execution m capability) (.freed m capability rest)).began =
        [.began m capability] := rfl
    rw [hbegan]
    refine ⟨.single ?_, .apply (hfit.piled.mono (List.subset_append_right _ _))
      ⟨fun _ ↦ rfl, by simp, fun t f h ↦ ?_⟩ (hlink _ _ rfl)⟩
    · simpa [Store.FreeStep.lands, Machine.scene_apply, scene_run, Next.tours, Next.queue, Next.lone,
        Next.hand, Frame.tours, Frame.queue, Store.execution, Task.tours, Task.queue, Task.hand]
        using hmove
    · cases h
      refine ⟨rfl, by rintro ⟨⟩, fun x hx ↦ ?_⟩
      obtain rfl := List.mem_singleton.1 hx
      exact List.mem_cons_self

/-- A job is run. -/
theorem step_job {j : Job} (hv : Valid ((Machine.mk s (.run (.job j)) fs).scene H))
    (hfit : (Machine.mk s (.run (.job j)) fs).Fit H)
    (hfails : mode.fails ∨ ∀ m e, j ≠ ⟨.completeModule m, .error e⟩) :
    Moves mode ((Machine.mk s (.run (.job j)) fs).scene H)
        ((Machine.apply fs (Task.advance s (.job j))).scene
          ((Task.advance s (.job j)).2.began ++ H)) ∧
      (Machine.apply fs (Task.advance s (.job j))).Fit
        ((Task.advance s (.job j)).2.began ++ H) := by
  obtain rfl : fs = [] := hfit.current.base rfl
  have hlink : ∀ s' L, L = [] → Linkage s' (L ++ ([] : List Frame).flatMap Frame.linkTours) := by
    rintro s' L rfl
    exact ⟨List.nodup_nil, nofun, nofun⟩
  by_cases hj : ∀ m, j.reaction ≠ .completeModule m
  · obtain ⟨ha, hn⟩ := Job.run_quiet s hj
    have heq : Task.advance s (.job j) = j.run s := rfl
    rw [heq, hn.began]
    have hmoves : Moves mode ⟨s, [], [], [], [], [], H⟩ ((Machine.apply [] (j.run s)).scene H) :=
      moves_of_still (f := []) hn.toStill ha.afar (.inr ha.steady.imported)
    refine ⟨.head (.drop hj) hmoves, .apply hfit.piled (hn.toStill.fits_of_load H nofun ?_) ?_⟩
    · intro t f hc _
      obtain ⟨reaction, c⟩ := j
      cases reaction <;> rcases c with e | ⟨⟩ <;> cases hc
    · rw [hn.linkTours]
      exact hlink _ _ rfl
  · simp only [ne_eq, not_forall, not_not] at hj
    obtain ⟨reaction, c⟩ := j
    obtain ⟨m, rfl⟩ := hj
    rcases c with e | ⟨⟩
    · have hfails : mode.fails := hfails.resolve_right fun h ↦ h m e rfl
      exact ⟨.single (.reject hfails), .apply hfit.piled (.give _ _ _) (hlink _ _ rfl)⟩
    · have hmoves := fulfillModule_lands mode hv
      refine ⟨?_, .apply hfit.piled ⟨fun _ ↦ rfl, nofun, fun _ _ h ↦ nomatch h⟩ (hlink _ _ rfl)⟩
      simpa [Task.advance, Job.run, Machine.scene_apply, scene_run, Next.tours, Next.queue, Next.lone, Next.hand,
        Next.began, Task.tours, Task.queue, Task.hand] using hmoves

/-- A walk goes on when a module has been executed. -/
theorem resume_executed {goal : EvaluationGoal} {m : ModuleId} {capability : Option PromiseId}
    {w : EvaluationWalk}
    (hv : Valid ((Machine.mk s (.give r) (.executed goal m capability w :: fs)).scene H))
    (hfit : (Machine.mk s (.give r) (.executed goal m capability w :: fs)).Fit H)
    (hlinking : s.KeepsLinking (Frame.resume s r (.executed goal m capability w)).1
      (fs.flatMap Frame.linkTours))
    (hfence : (w.executed s m capability r.toCompletion).2.Fenced mode s) :
    Moves mode ((Machine.mk s (.give r) (.executed goal m capability w :: fs)).scene H)
        ((Machine.apply fs (Frame.resume s r (.executed goal m capability w))).scene
          ((Frame.resume s r (.executed goal m capability w)).2.began ++
            .ended m capability r.toCompletion :: H)) ∧
      (Machine.apply fs (Frame.resume s r (.executed goal m capability w))).Fit
        ((Frame.resume s r (.executed goal m capability w)).2.began ++
          .ended m capability r.toCompletion :: H) := by
  have heq : Frame.resume s r (.executed goal m capability w) =
      (w.executed s m capability r.toCompletion).2.next
        (w.executed s m capability r.toCompletion).1 goal := rfl
  rw [heq] at hlinking ⊢
  have hb : .began m capability ∈ H :=
    hfit.piled.called _ List.mem_cons_self (m, capability) (List.mem_singleton.2 rfl)
  refine of_lands (EvaluationWalk.executed_lands hv hb hfence)
    (hfit.piled.tail.mono (List.subset_cons_self _ _)) ?_ (hfit.linkage.keep hlinking)
  rintro ⟨root, p, rfl⟩
  exact hfit.piled.base [] _ fs rfl rfl

/-- A walk goes on when a synthetic module has been evaluated. -/
theorem resume_passed {goal : EvaluationGoal} {w : EvaluationWalk}
    (hfit : (Machine.mk s (.give r) (.passed goal w :: fs)).Fit H)
    (hlinking : s.KeepsLinking (Frame.resume s r (.passed goal w)).1
      (fs.flatMap Frame.linkTours))
    (hfence : (w.passed s r.toCompletion).2.Fenced mode s) :
    Moves mode ((Machine.mk s (.give r) (.passed goal w :: fs)).scene H)
        ((Machine.apply fs (Frame.resume s r (.passed goal w))).scene
          ((Frame.resume s r (.passed goal w)).2.began ++ H)) ∧
      (Machine.apply fs (Frame.resume s r (.passed goal w))).Fit
        ((Frame.resume s r (.passed goal w)).2.began ++ H) := by
  have heq : Frame.resume s r (.passed goal w) =
      (w.passed s r.toCompletion).2.next (w.passed s r.toCompletion).1 goal := rfl
  rw [heq] at hlinking ⊢
  refine of_lands ?_ hfit.piled.tail ?_ (hfit.linkage.keep hlinking)
  · unfold EvaluationWalk.passed at hfence ⊢
    split at hfence
    · exact .refl
    · obtain ⟨hfails, hclosed⟩ := hfence _ w.stack rfl
      exact .single (.fail _ hclosed .here hfails)
  · rintro ⟨root, p, rfl⟩
    exact hfit.piled.base [] _ fs rfl rfl

/-- A module that was set free has been executed. -/
theorem resume_freed {m : ModuleId} {capability : Option PromiseId} {rest : List ModuleId}
    (hfit : (Machine.mk s (.give r) (.freed m capability rest :: fs)).Fit H)
    (hfails : mode.fails ∨ ∀ e, r.toCompletion ≠ .error e) :
    Moves mode ((Machine.mk s (.give r) (.freed m capability rest :: fs)).scene H)
        ((Machine.apply fs (Frame.resume s r (.freed m capability rest))).scene
          (.ended m capability r.toCompletion :: H)) ∧
      (Machine.apply fs (Frame.resume s r (.freed m capability rest))).Fit
        (.ended m capability r.toCompletion :: H) := by
  obtain rfl : fs = [] := hfit.piled.base [] _ fs rfl rfl
  have hb : .began m capability ∈ H :=
    hfit.piled.called _ List.mem_cons_self (m, capability) (List.mem_singleton.2 rfl)
  refine ⟨?_, .apply (hfit.piled.tail.mono (List.subset_cons_self _ _))
    ⟨fun _ ↦ rfl, nofun, fun _ _ h ↦ nomatch h⟩ ⟨List.nodup_nil, nofun, nofun⟩⟩
  have hmoves := finishFree_lands mode s rest r.toCompletion hb hfails
  have hscene : (Machine.mk s (.give r) [.freed m capability rest]).scene H =
      ⟨s, [], rest, (Frame.freed m capability rest).lone, [], [], H⟩ := by
    simp [scene_give, Frame.tours, Frame.queue, Frame.lone]
  rw [hscene]
  simpa [Frame.resume, Machine.scene_apply, Next.tours, Next.queue, Next.lone, Next.hand,
    Task.tours, Task.queue, Task.hand, Frame.lone] using hmoves

/-- Every step of the machine is a few moves in a row. -/
theorem step_moves {M : Machine} (hv : Valid (M.scene H)) (hfit : M.Fit H)
    (heval : ∀ m, M.control = .run (.evaluate m) → M.frames = []) (hP : M.Grants mode M.step) :
    Moves mode (M.scene H) (M.step.scene (M.events ++ H)) ∧ M.step.Fit (M.events ++ H) := by
  rcases hnext : M.next? with _ | x
  · rw [step_of_next?_eq_none hnext]
    simp only [events, hnext, List.nil_append]
    exact ⟨.refl, hfit⟩
  have hstep : M.step = apply M.rest x := step_of_next? hnext
  have hevents : M.events = x.2.began ++ M.ended := by simp only [events, hnext]
  rw [hevents]
  rw [hstep] at hP ⊢
  have hlinking : ¬M.links → M.store.KeepsLinking x.1 M.linkTours := fun hl ↦ by
    have := hP.linking.resolve_left hl
    rwa [store_apply] at this
  have hadmits : EvaluationWalk.Admits mode M.comesTo M.store x.1 := by
    have := hP.admits
    rwa [store_apply] at this
  have hfence : ∀ step, M.walkStep? = some step → step.Fenced mode M.store := by
    rintro step hstep
    rintro e stack rfl
    refine ⟨hP.fails.resolve_right fun h ↦ h.walks e stack hstep, ?_⟩
    have hclosed := hP.closed
    rwa [lost_of_failed hstep] at hclosed
  have hforces := hP.forces
  have hnests := hP.nests
  have hloaded := hP.loaded
  have hfails := hP.fails
  obtain ⟨s, control, fs⟩ := M
  rcases control with t | r
  · have hended : (Machine.mk s (.run t) fs).ended = [] := rfl
    have hx : x = t.advance s := by
      cases t <;> simp_all [next?]
    subst hx
    rw [hended, List.append_nil]
    have hloads : mode.loads s ∨ t.isLoad = false := hP.loads.imp id fun h ↦ h t rfl
    have hbelow : (∀ w, t ≠ .linking w) →
        s.KeepsLinking (t.advance s).1 (fs.flatMap Frame.linkTours) := by
      refine fun h τ hτ ↦ hlinking ?_ τ (List.mem_append_right _ hτ)
      rintro (⟨w, hw⟩ | ⟨r, m, w, fs', hr, -⟩)
      · cases hw
        exact h w rfl
      · contradiction
    cases ht : t.isWalk with
    | false =>
      have hbegan : (t.advance s).2.began = [] := (Task.advance_quiet s ht).2.1.began
      rw [hbegan]
      exact step_quiet hfit ht hloads (hbelow fun w hw ↦ by simp [hw, Task.isWalk] at ht)
    | true =>
      cases t with
      | force m =>
        exact step_force hv hfit hadmits (hbelow (by simp))
          ⟨hforces.resolve_right fun h ↦ h m rfl, hnests.symm.imp (fun h ↦ h m rfl) id⟩
          (hfails.imp id Flawless.errors)
      | evaluate m =>
        obtain rfl : fs = [] := heval m rfl
        exact step_evaluate hv hfit hadmits (hfails.imp id Flawless.errors) (hP.starts m rfl)
      | evaluation goal w =>
        exact step_evaluation hv hfit hadmits (hbelow (by simp)) (hfence _ rfl)
          (hloaded.imp id fun h ↦ h goal w rfl)
      | free ms => exact step_free hfit
      | job j =>
        refine step_job hv hfit (hfails.imp id fun h m e hj ↦ h.jobs m e ?_)
        rw [hj]
      | link m =>
        have hbegan : (Task.advance s (.link m)).2.began = [] :=
          (Task.link_inside (L := fs.flatMap Frame.linkTours) hfit.linkage m).2.1.began
        rw [hbegan]
        exact step_link hfit
      | linking w =>
        have hbegan : (Task.advance s (.linking w)).2.began = [] :=
          (LinkStep.next_still (w.advance s).1 (w.advance s).2).1.began
        rw [hbegan]
        exact step_linking hfit
      | _ => contradiction
  · rcases fs with _ | ⟨f, fs⟩
    · contradiction
    have hx : x = f.resume s r := (Option.some.inj hnext).symm
    subst hx
    have hbelow : (∀ m w, f ≠ .setUp m w) →
        s.KeepsLinking (f.resume s r).1 (fs.flatMap Frame.linkTours) := by
      refine fun h τ hτ ↦ hlinking ?_ τ (List.mem_append_right f.linkTours hτ)
      rintro (⟨w, hw⟩ | ⟨r', m, w, fs', -, hf⟩)
      · contradiction
      · exact h m w (List.cons.inj hf).1
    cases hf : f.isWalk with
    | false =>
      have hbegan : (f.resume s r).2.began = [] := (Frame.resume_quiet s r hf).2.1.began
      have hended : (Machine.mk s (.give r) (f :: fs)).ended = [] := by
        cases f <;> first | rfl | contradiction
      rw [hbegan, hended]
      exact resume_quiet hfit hf (hbelow fun m w h ↦ by simp [h, Frame.isWalk] at hf)
    | true =>
      cases f with
      | executed goal m capability w =>
        rw [List.append_assoc]
        exact resume_executed hv hfit (hbelow (by simp)) (hfence _ rfl)
      | passed goal w =>
        rw [List.append_assoc]
        exact resume_passed hfit (hbelow (by simp)) (hfence _ rfl)
      | freed m capability rest =>
        refine resume_freed hfit (hfails.imp id fun h e hr ↦ h.bodies m capability e ?_)
        simp [ended, hr]
      | setUp m w =>
        have hbegan : (Frame.resume s r (.setUp m w)).2.began = [] :=
          (Frame.setUp_inside (L := fs.flatMap Frame.linkTours) hfit.linkage r).2.1.began
        rw [hbegan]
        exact resume_setUp hfit
      | _ => contradiction

end Machine

/-! ## Runs -/

section

variable {mode : Mode} {s : Store} {H : List Event}

/-- The machine fits together when a call begins. -/
theorem Machine.fit_start (s : Store) (t : Task) (H : List Event) (ht : t.linkTours = []) :
    (Machine.start s t).Fit H := by
  refine ⟨⟨fun above f below h ↦ ?_, fun above f below h ↦ ?_, List.forall_mem_nil _⟩,
    ⟨fun _ ↦ rfl, fun _ ↦ (List.forall_mem_nil _), fun _ _ h ↦ by cases h⟩, ?_⟩
  · simp [Machine.start] at h
  · simp [Machine.start] at h
  · have hl : (Machine.start s t).linkTours = [] := by simp [Machine.linkTours, Machine.start, ht]
    rw [hl]
    exact ⟨List.nodup_nil, by simp, by simp⟩

theorem Act.begin_moves (mode : Mode) {a : Act} {st : State} (h : a.begin s = some st) :
    Moves mode ((State.idle s).scene H) (st.scene H) ∧ ∀ b M, st = .busy b M → M.Fit H := by
  have hbusy : ∀ {t : Task}, t.linkTours = [] → t.tours = [] → t.queue = [] → t.hand = [] →
      some (State.busy a (.start s t)) = some st →
      Moves mode ((State.idle s).scene H) (st.scene H) ∧ ∀ b M, st = .busy b M → M.Fit H := by
    rintro t h1 h2 h3 h4 heq
    obtain rfl := Option.some.inj heq
    refine ⟨?_, fun b M hM ↦ ?_⟩
    · have hscene : (State.busy a (.start s t)).scene H = (State.idle s).scene H := by
        simp [State.scene, Machine.start, Machine.scene_run, h2, h3, h4]
      rw [hscene]
    · cases hM
      exact Machine.fit_start s t H h1
  cases a with
  | load m hostDefined => exact hbusy rfl rfl rfl rfl h
  | link m => exact hbusy rfl rfl rfl rfl h
  | evaluate m => exact hbusy rfl rfl rfl rfl h
  | read n name => exact hbusy rfl rfl rfl rfl h
  | answer given => exact hbusy rfl rfl rfl rfl h
  | namespaceOf m phase =>
    obtain rfl := Option.some.inj h
    have ha := s.namespaceOf_apart m phase
    exact ⟨.single (.aside ha.afar (.inr ha.steady.imported)), fun _ _ h ↦ nomatch h⟩
  | settle label c =>
    obtain ⟨p, -, rfl⟩ := Option.map_eq_some_iff.1 h
    have ha : Apart s (s.settle p c) := .settle s p c
    exact ⟨.single (.aside ha.afar (.inr ha.steady.imported)), fun _ _ h ↦ nomatch h⟩
  | job =>
    simp only [Act.begin] at h
    rcases hj : s.jobs with _ | ⟨j, rest⟩
    · simp [hj] at h
    · simp only [hj] at h
      obtain rfl := Option.some.inj h
      refine ⟨.single ?_, fun b M hM ↦ ?_⟩
      · have hscene : (State.busy .job (.start { s with jobs := rest } (.job j))).scene H =
            ⟨{ s with jobs := rest }, [], [], [], [], [j], H⟩ := by
          simp [State.scene, Machine.start, Machine.scene_run, Task.tours, Task.queue, Task.hand]
        rw [hscene]
        exact .take hj
      · cases hM
        exact Machine.fit_start _ _ H rfl

/-- What a state leads to at once, it leads to by moves. -/
theorem Advance.moves {P : Machine → Machine → Prop} {x y : State × List Event}
    (hP : ∀ a M, x.1 = .busy a M → P M M.step → M.Grants mode M.step)
    (hv : Valid (x.1.scene x.2)) (hfit : ∀ a M, x.1 = .busy a M → M.Fit x.2)
    (hxy : Advance P x y) :
    Moves mode (x.1.scene x.2) (y.1.scene y.2) ∧ ∀ a M, y.1 = .busy a M → M.Fit y.2 := by
  cases hxy with
  | call a ha => exact Act.begin_moves mode ha
  | step heval hstep =>
    obtain ⟨hmoves, hfit⟩ := Machine.step_moves hv (hfit _ _ rfl) heval (hP _ _ rfl hstep)
    refine ⟨hmoves, fun b M hM ↦ ?_⟩
    cases hM
    exact hfit
  | consult hq hs =>
    have ha := hs.aside
    refine ⟨.single (.aside ha.afar (.inr ha.steady.imported)), fun b M hM ↦ ?_⟩
    cases hM
    have hfit := hfit _ _ rfl
    exact ⟨hfit.piled, hfit.current, hfit.linkage.keep fun _ _ x _ hx ↦ (ha.steady.status x).trans hx⟩
  | @answer a M H q as hq =>
    obtain ⟨s, control, fs⟩ := M
    obtain rfl : control = _ := Machine.control_of_question? hq
    refine ⟨.refl, fun b M hM ↦ ?_⟩
    cases hM
    have hfit := hfit _ _ rfl
    exact ⟨hfit.piled, ⟨nofun, fun _ ↦ hfit.current.load rfl, fun _ _ h ↦ nomatch h⟩, hfit.linkage⟩
  | @finish a M H r hr =>
    obtain ⟨s, control, fs⟩ := M
    obtain ⟨hc, hf⟩ := Machine.end_of_result? hr
    obtain rfl : control = _ := hc
    obtain rfl : fs = _ := hf
    exact ⟨.single (.note a r), fun _ _ h ↦ nomatch h⟩

/-- Every run is made of moves. -/
theorem Run.moves {P : Machine → Machine → Prop} {s₀ : Store} {st : State}
    (hP : ∀ M M', P M M' → M.Grants mode M') (hv : Valid ((State.idle s₀).scene []))
    (h : Run P s₀ st H) :
    Moves mode ((State.idle s₀).scene []) (st.scene H) ∧ ∀ a M, st = .busy a M → M.Fit H := by
  have hmoves : ∀ {y : State × List Event}, Onward P (.idle s₀, []) y →
      Moves mode ((State.idle s₀).scene []) (y.1.scene y.2) ∧
        ∀ a M, y.1 = .busy a M → M.Fit y.2 := by
    intro y hy
    induction hy with
    | refl => exact ⟨.refl, fun _ _ h ↦ absurd h State.idle_ne_busy⟩
    | tail _ hxy ih =>
      obtain ⟨hmoves, hfit⟩ := hxy.moves (fun _ M _ ↦ hP M M.step) (ih.1.valid hv) ih.2
      exact ⟨ih.1.trans hmoves, hfit⟩
  exact hmoves h.onward_start

end

end EcmaModules
