import EcmaModules.Proofs.Serving

/-!
# Promises of evaluations in runs

Whenever no call is under way, the promise of an evaluation tells how the evaluation ended, and is
pending as long as it has not. The caller has to start with a store in which no promises are waited
for: a promise that somebody else may settle cannot be that of an evaluation.

Walks may get into each other's way as they like. A module that has a promise settles, or a walk for
that promise started at it and is not through with it; so no other walk enters it.
-/

namespace EcmaModules

open EvaluationWalk (back concludeExecuted concludeSearched execute arrive)

/-! ## Walks and synthetic modules -/

namespace EvaluationWalk

variable {s : Store} {w w' : EvaluationWalk} {m d : ModuleId}

theorem back_ne_synthetic : (back s w d).2 ≠ .synthetic m w' := by
  unfold back
  split
  · exact nofun
  · split <;> exact nofun

theorem concludeExecuted_ne_synthetic : (concludeExecuted s w d).2 ≠ .synthetic m w' := by
  unfold concludeExecuted
  split <;> exact back_ne_synthetic

theorem executed_ne_synthetic {capability : Option PromiseId} {c : Completion} :
    (w.executed s d capability c).2 ≠ .synthetic m w' := by
  unfold executed
  split
  · exact concludeExecuted_ne_synthetic
  · exact concludeExecuted_ne_synthetic
  · exact nofun

theorem passed_ne_synthetic {c : Completion} : (w.passed s c).2 ≠ .synthetic m w' := by
  unfold passed
  split <;> exact nofun

/-- A walk that comes to a synthetic module waits for it at the module that it came from. -/
theorem eq_of_arrive_synthetic {t : Traversal} (h : (arrive s w d t).2 = .synthetic m w') :
    w' = w ∧ s.source? d = none := by
  unfold arrive at h
  split at h
  · next hd => exact ⟨(EvaluationStep.synthetic.inj h).2.symm, hd⟩
  · split at h
    · exact nomatch h
    · exact absurd h back_ne_synthetic
    · exact nomatch h

theorem frames_of_synthetic (h : (w.advance s).2 = .synthetic m w') : w'.frames ≠ [] := by
  unfold advance at h
  split at h
  · exact nomatch h
  · exfalso
    unfold execute at h
    split at h
    · exact nomatch h
    · split at h
      · exact concludeExecuted_ne_synthetic h
      · split at h <;> exact nomatch h
  · rw [concludeSearched_eq] at h
    split at h <;> exact absurd h back_ne_synthetic
  · dsimp only at h
    split at h
    · rw [(eq_of_arrive_synthetic h).1]
      exact List.cons_ne_nil _ _
    · exact nomatch h

end EvaluationWalk

/-! ## What walks of a machine rest on -/

section

variable {s s' : Store} {T T' : List Tour} {τ : Tour}

theorem Frame.evaluating_mem_trips {f : Frame} : .evaluating τ ∈ f.trips ↔ τ ∈ f.tours := by
  simp [Frame.trips]

/-- What a walk below started at is not on the stack of the one on top. -/
theorem Store.Carries.below {A : List Trip} {fs : List Frame}
    (h : s.Carries (A ++ fs.flatMap Frame.trips)) (hτ : τ ∈ fs.flatMap Frame.tours) {o : ModuleId}
    (ho : τ.path.getLast? = some o) : s.Origin o ∧ ∀ t ∈ A, o ∉ t.stack := by
  have hmem : .evaluating τ ∈ fs.flatMap Frame.trips := by
    obtain ⟨f, hf, hτ⟩ := List.mem_flatMap.1 hτ
    exact List.mem_flatMap.2 ⟨f, hf, Frame.evaluating_mem_trips.2 hτ⟩
  exact ⟨h.origin (List.mem_append_right _ hmem) ho,
    fun t ht ↦ (List.pairwise_append.1 h.apart).2.2 t ht _ hmem o ho⟩

/-- A module with a promise is on the stack of a walk only if the walk is the one for that
promise. -/
def Store.Alone (s : Store) (T : List Tour) : Prop :=
  ∀ τ ∈ T, ∀ x ∈ τ.walk.stack, (s.capability? x).isSome → ∃ p, τ.goal = .promise x p

theorem Store.Alone.congr (h : s.Alone T) (hs : ∀ x, s'.capability? x = s.capability? x) :
    s'.Alone T := fun τ hτ x hx hsome ↦ h τ hτ x hx (hs x ▸ hsome)

/-- No walk enters a module that has a promise. -/
theorem Store.Enterable.capability? {x : ModuleId} (h : s.Enterable x) (hserves : s.Serves T)
    (horigin : ∀ τ ∈ T, ∀ o, τ.path.getLast? = some o → s.Origin o) : s.capability? x = none := by
  obtain ⟨r, hr, ho⟩ := h
  rcases hp : r.capability with _ | p
  · simp [Store.capability?, hr, hp]
  · rcases hserves.seats x r p hr hp with hs | ⟨τ, hτ, -, hlast⟩
    · cases hst : r.status <;> simp [hst, Status.isOpen, Status.isSettling] at ho hs
    · obtain ⟨q, hq, hs, -⟩ := horigin τ hτ x hlast
      rw [Option.some.inj (hr.symm.trans hq), hs] at ho
      contradiction

/-- A walk goes on. -/
theorem Store.Alone.walk {y : Store × EvaluationStep} {goal : EvaluationGoal} {stack : List ModuleId}
    (hstack : ∀ x ∈ stack, (s.capability? x).isSome → ∃ p, goal = .promise x p)
    (hserves : s.Serves T) (horigin : ∀ τ ∈ T, ∀ o, τ.path.getLast? = some o → s.Origin o)
    (htreads : s.Treads y.1) (hdraws : s.Draws stack y) :
    y.1.Alone (y.2.next y.1 goal).2.tours := by
  intro τ hτ x hx hsome
  rw [EvaluationStep.stack_of_tours hτ] at hx
  rw [htreads.capability?] at hsome
  rw [EvaluationStep.goal_of_tours hτ]
  rcases hdraws x hx with hmem | ⟨hopen, -⟩
  · exact hstack x hmem hsome
  · rw [hopen.capability? hserves horigin] at hsome
    exact nomatch hsome

end

/-! ## The machine -/

namespace Machine

/-- The machine may settle no promise of an evaluation but by evaluation, and those promises tell how
the evaluations ended. -/
structure Serves (M : Machine) : Prop where
  trusts : M.store.Trusts M.store.Unpledged
  lends : M.store.Lends M.store.Unpledged M.targets
  serves : M.store.Serves M.tours
  alone : M.store.Alone M.tours
  rooted : M.store.Rooted
  passing : ∀ goal w, .passed goal w ∈ M.frames → w.frames ≠ []

end Machine

theorem Store.unpledged_congr {s s' : Store} (h : ∀ x, s'.capability? x = s.capability? x) :
    s'.Unpledged = s.Unpledged := by
  simp only [Store.Unpledged, h]

/-- The walk does not wait for a synthetic module before it has come to any other. -/
def Next.Passes (n : Next) : Prop := ∀ t goal w, n = .call t (.passed goal w) → w.frames ≠ []

theorem Next.Still.passes {n : Next} (h : n.Still) : n.Passes := by
  rintro t goal w rfl
  have := h.tours
  simp [Next.tours, Frame.tours] at this

theorem EvaluationStep.passes_next {s : Store} {goal : EvaluationGoal} {step : EvaluationStep}
    (h : ∀ m w, step = .synthetic m w → w.frames ≠ []) : (step.next s goal).2.Passes := by
  intro t goal' w hcall
  cases step with
  | done => cases goal <;> exact nomatch hcall
  | failed e left => cases goal <;> exact nomatch hcall
  | go w => exact nomatch hcall
  | synthetic m w' =>
    obtain ⟨-, hf⟩ := Next.call.inj hcall
    obtain ⟨-, rfl⟩ := Frame.passed.inj hf
    exact h m _ rfl
  | execute m capability w' => exact nomatch (Next.call.inj hcall).2

theorem Store.capability?_of_outline {s s' : Store} (h : s'.outline = s.outline) (x : ModuleId) :
    s'.capability? x = s.capability? x :=
  Store.capability?_of_each
    ((Store.Each.of_outline h).mono fun _ _ hr ↦ (congrArg (·.capability) hr :)) x

theorem EvaluationStep.capability?_next (s : Store) (goal : EvaluationGoal) (step : EvaluationStep)
    (x : ModuleId) : (step.next s goal).1.capability? x = s.capability? x := by
  cases step with
  | done => exact Store.capability?_of_outline (outline_finish s goal) x
  | failed e left =>
    exact (Store.capability?_of_outline (outline_fail s left e goal) x).trans
      (s.capability?_failModules left e x)
  | _ => rfl

namespace Machine

variable {s : Store} {fs : List Frame} {x : Store × Next}

/-- What has to hold of the frames below, whatever becomes of the task on top. -/
structure Backs (s : Store) (fs : List Frame) : Prop where
  trusts : s.Trusts s.Unpledged
  lends : s.Lends s.Unpledged (fs.flatMap Frame.targets)
  alone : s.Alone (fs.flatMap Frame.tours)
  rooted : s.Rooted
  passing : ∀ goal w, .passed goal w ∈ fs → w.frames ≠ []

theorem Serves.run {t : Task} (h : (Machine.mk s (.run t) fs).Serves) :
    Backs s fs ∧ s.Lends s.Unpledged t.targets ∧ s.Serves (t.tours ++ fs.flatMap Frame.tours) ∧
      s.Alone t.tours := by
  obtain ⟨hlends, hbelow⟩ : s.Lends s.Unpledged t.targets ∧
      s.Lends s.Unpledged (fs.flatMap Frame.targets) := List.forall_mem_append.1 h.lends
  obtain ⟨halone, halone'⟩ : s.Alone t.tours ∧ s.Alone (fs.flatMap Frame.tours) :=
    List.forall_mem_append.1 h.alone
  exact ⟨⟨h.trusts, hbelow, halone', h.rooted, h.passing⟩, hlends, h.serves, halone⟩

theorem Serves.give {r : Result} {f : Frame} (h : (Machine.mk s (.give r) (f :: fs)).Serves) :
    Backs s fs ∧ s.Lends s.Unpledged f.targets ∧ s.Serves (f.tours ++ fs.flatMap Frame.tours) ∧
      s.Alone f.tours := by
  obtain ⟨hlends, hbelow⟩ : s.Lends s.Unpledged f.targets ∧
      s.Lends s.Unpledged (fs.flatMap Frame.targets) := List.forall_mem_append.1 h.lends
  obtain ⟨halone, halone'⟩ : s.Alone f.tours ∧ s.Alone (fs.flatMap Frame.tours) :=
    List.forall_mem_append.1 h.alone
  exact ⟨⟨h.trusts, hbelow, halone', h.rooted,
    fun goal w hmem ↦ h.passing goal w (List.mem_cons_of_mem f hmem)⟩, hlends, h.serves, halone⟩

/-- Nothing is below. -/
theorem Backs.nil (htrusts : s.Trusts s.Unpledged) (hrooted : s.Rooted) : Backs s [] :=
  ⟨htrusts, nofun, nofun, hrooted, nofun⟩

/-- The machine after a step. -/
theorem Serves.apply (hb : Backs x.1 fs) (hlends : x.1.Lends x.1.Unpledged x.2.targets)
    (hserves : x.1.Serves (x.2.tours ++ fs.flatMap Frame.tours)) (halone : x.1.Alone x.2.tours)
    (hpasses : x.2.Passes) : (Machine.apply fs x).Serves := by
  obtain ⟨s', n⟩ := x
  refine ⟨?_, ?_, ?_, ?_, ?_, fun goal w hmem ↦ ?_⟩
  · rw [store_apply]
    exact hb.trusts
  · rw [store_apply, targets_apply]
    exact List.forall_mem_append.2 ⟨hlends, hb.lends⟩
  · rwa [store_apply, tours_apply]
  · rw [store_apply, tours_apply]
    exact List.forall_mem_append.2 ⟨halone, hb.alone⟩
  · rw [store_apply]
    exact hb.rooted
  · rw [frames_apply] at hmem
    cases n with
    | call t f =>
      rcases List.mem_cons.1 hmem with rfl | hmem
      · exact hpasses t goal w rfl
      · exact hb.passing goal w hmem
    | goto t => exact hb.passing goal w hmem
    | give r => exact hb.passing goal w hmem

/-- The store changes, and modules keep their promises. -/
theorem Backs.change (h : Backs s fs) (hupholds : s.Upholds s.Unpledged s')
    (hcapability : ∀ y, s'.capability? y = s.capability? y) (hrooted : s'.Rooted) : Backs s' fs := by
  have hsame : s'.Unpledged = s.Unpledged := Store.unpledged_congr hcapability
  exact ⟨hsame ▸ hupholds.trusts, hsame ▸ h.lends.mono hupholds.grows, h.alone.congr hcapability,
    hrooted, h.passing⟩

/-- A step that is nothing to evaluation. -/
theorem Serves.aside (hserves : s.Serves (fs.flatMap Frame.tours)) (hb : Backs s fs)
    (hdeals : s.Deals s.Unpledged x.1) (hlends : x.1.Lends s.Unpledged x.2.targets)
    (houtline : x.1.outline = s.outline) (hstill : x.2.Still) : (Machine.apply fs x).Serves := by
  have hcapability := Store.capability?_of_outline houtline
  have hsame : x.1.Unpledged = s.Unpledged := Store.unpledged_congr hcapability
  refine .apply (hb.change (.of_deals hdeals) hcapability (hb.rooted.of_outline houtline))
    (hsame ▸ hlends) ?_ (by rw [hstill.tours]; exact nofun) hstill.passes
  rw [hstill.tours]
  exact hserves.of_outline houtline (hdeals.keepsPledges hserves.tells)

/-- A step of a walk. -/
theorem Serves.walk {y : Store × EvaluationStep} {goal : EvaluationGoal}
    (hserves : (y.2.next y.1 goal).1.Serves
      ((y.2.next y.1 goal).2.tours ++ fs.flatMap Frame.tours))
    (halone : y.1.Alone (y.2.next y.1 goal).2.tours) (hb : Backs s fs) (hrooted : y.1.Rooted)
    (hdeals : s.Deals s.Unpledged y.1) (hlends : y.1.Lends s.Unpledged y.2.targets)
    (htreads : s.Treads y.1) (hpasses : ∀ m w, y.2 = .synthetic m w → w.frames ≠ []) :
    (Machine.apply fs (y.2.next y.1 goal)).Serves := by
  obtain ⟨hupholds, hlends'⟩ := EvaluationStep.next_upholds hdeals.trusts hlends goal
  have hnext := EvaluationStep.capability?_next y.1 goal y.2
  have hcapability := fun x ↦ (hnext x).trans (htreads.capability? x)
  have hsame : (y.2.next y.1 goal).1.Unpledged = s.Unpledged := Store.unpledged_congr hcapability
  exact .apply (hb.change ((Store.Upholds.of_deals hdeals).trans hupholds) hcapability
    (hrooted.next goal y.2)) (hsame ▸ hlends') hserves (halone.congr hnext)
    (EvaluationStep.passes_next hpasses)

/-- A walk goes on, with nothing but frames below it. -/
theorem Serves.goOn {goal : EvaluationGoal} {st : Stance} {w : EvaluationWalk}
    {y : Store × EvaluationStep} (h : s.Serves (⟨goal, st, w⟩ :: fs.flatMap Frame.tours))
    (halone : s.Alone [⟨goal, st, w⟩]) (hupright : s.Upright)
    (hc : s.Carries ([.evaluating ⟨goal, st, w⟩] ++ fs.flatMap Frame.trips))
    (hbase : (∃ root p, goal = .promise root p) → fs = []) (htreads : s.Treads y.1)
    (hkeeps : s.KeepsPledges y.1) (hcomes : s.Comes w.stack y)
    (hstays : y.2.Stays (Tour.path ⟨goal, st, w⟩))
    (hnil : Tour.path ⟨goal, st, w⟩ = [] → ∀ e left, y.2 ≠ .failed e left)
    (hleft : ∀ e left, y.2 = .failed e left → left ⊆ w.stack) :
    (y.2.next y.1 goal).1.Serves
      ((y.2.next y.1 goal).2.tours ++ fs.flatMap Frame.tours) := by
  have hstack : ∀ x ∈ w.stack, (s.capability? x).isSome → ∃ p, goal = .promise x p :=
    halone _ List.mem_cons_self
  cases goal with
  | promise root p =>
    obtain rfl := hbase ⟨root, p, rfl⟩
    have hbears : s.Bears _ w.stack := hc.bears _ List.mem_cons_self
    rw [List.flatMap_nil, List.append_nil]
    refine h.step_promise rfl hbears htreads hcomes hstays hkeeps hnil hleft (fun x hx hsome ↦ ?_)
      hupright
    obtain ⟨q, hq⟩ := hstack x hx hsome
    exact (EvaluationGoal.promise.inj hq).1.symm
  | force m =>
    have hrest := (Store.Serves.cons_force (τ := ⟨.force m, st, w⟩) fun _ _ ↦ nofun).1 h
    refine hrest.step_force htreads hcomes hkeeps hleft (fun x hx ↦ ?_) (fun τ hτ o ho ↦ ?_) m
    · by_contra hne
      obtain ⟨q, hq⟩ := hstack x hx (Option.isSome_iff_ne_none.2 hne)
      exact nomatch hq
    · obtain ⟨horigin, hout⟩ := hc.below hτ ho
      exact ⟨horigin, hout _ List.mem_cons_self⟩

/-- A module that a walk enters in the next step has no promise. -/
theorem Serves.alone_next {τ : Tour} {y : Store × EvaluationStep}
    (h : s.Serves (τ :: fs.flatMap Frame.tours)) (halone : s.Alone [τ])
    (hc : s.Carries ([.evaluating τ] ++ fs.flatMap Frame.trips)) (htreads : s.Treads y.1)
    (hdraws : s.Draws τ.walk.stack y) : y.1.Alone (y.2.next y.1 τ.goal).2.tours := by
  refine .walk (halone τ List.mem_cons_self) h (fun τ' hτ' o ho ↦ ?_) htreads hdraws
  rcases List.mem_cons.1 hτ' with rfl | hτ'
  · exact hc.origin List.mem_cons_self ho
  · exact (hc.below hτ' ho).1

/-- A forced evaluation starts, if need be. -/
theorem Serves.force {m : ModuleId} (h : (Machine.mk s (.run (.force m)) fs).Serves)
    (hc : s.Carries (fs.flatMap Frame.trips)) :
    (Machine.apply fs (s.forceModule m)).Serves := by
  obtain ⟨hb, -, hserves, -⟩ := h.run
  have hserves : s.Serves (fs.flatMap Frame.tours) := hserves
  rcases hm : s.source? m with _ | q
  · simp only [Store.forceModule, Store.force, hm]
    exact .aside hserves hb (.refl h.trusts) (List.forall_mem_nil _) rfl ⟨rfl, rfl, rfl, rfl, rfl, rfl⟩
  rcases Store.force_cases hm with ⟨c, s', heq, ha⟩ | ⟨heq, -⟩
  · have hforce : (s.forceModule m) = (s', .give (.completion c)) := by
      simp only [Store.forceModule, heq]
    rw [hforce]
    refine .aside hserves hb (.of_duties h.trusts ?_) (List.forall_mem_nil _) ha.outline
      ⟨rfl, rfl, rfl, rfl, rfl, rfl⟩
    have hduties : (s.force m).2.duties = s.duties := by
      unfold Store.force
      split
      · rfl
      · split
        · split <;> rfl
        · rfl
        · rfl
        · rfl
        · rfl
        · rfl
        all_goals split <;> rfl
    rwa [heq] at hduties
  · have hforce : s.forceModule m = (EvaluationWalk.start s m).2.next (EvaluationWalk.start s m).1
        (.force m) := by
      simp only [Store.forceModule, heq]
    have htreads : s.Treads (EvaluationWalk.start s m).1 := .arrive s {} m .executing
    have hduties : (EvaluationWalk.start s m).1.duties = s.duties :=
      EvaluationWalk.duties_arrive s {} m .executing
    have htargets : (EvaluationWalk.start s m).2.targets = [] := EvaluationWalk.targets_arrive
    have horigin : ∀ τ ∈ fs.flatMap Frame.tours, ∀ o, τ.path.getLast? = some o → s.Origin o :=
      fun τ hτ o ho ↦ (Store.Carries.below (A := []) hc hτ ho).1
    have hnone : ∀ x ∈ ([] : List ModuleId), (s.capability? x).isSome →
        ∃ p, EvaluationGoal.force m = .promise x p := by simp
    rw [hforce]
    refine .walk ?_ (.walk hnone hserves horigin htreads (EvaluationWalk.arrive_draws s {} m _)) hb
      (hb.rooted.arrive {} m .executing) (.of_duties h.trusts hduties) (htargets ▸ List.forall_mem_nil _)
      htreads ?_
    · refine hserves.step_force htreads (EvaluationWalk.start_comes s m)
        (hserves.tells.keepsPledges (congrArg Prod.fst hduties)) (fun e left hl ↦ ?_) (by simp)
        (fun τ hτ o ho ↦ ⟨horigin τ hτ o ho, List.not_mem_nil⟩) m
      rw [(EvaluationWalk.stack_of_start hl).1]
      exact List.Subset.refl _
    · intro d w hsynthetic
      rw [(EvaluationWalk.eq_of_arrive_synthetic hsynthetic).2] at hm
      contradiction

/-- An evaluation starts. -/
theorem Serves.evaluate {m : ModuleId} (h : (Machine.mk s (.run (.evaluate m)) []).Serves)
    (hupright : s.Upright) (hc : s.Carries []) : (Machine.apply [] (s.evaluate m)).Serves := by
  have hserves : s.Serves [] := h.serves
  have hb : Backs s [] := .nil h.trusts h.rooted
  rcases hm : s.source? m with _ | q
  · simp only [Store.evaluate, hm]
    exact .aside hserves hb (.refl h.trusts) (List.forall_mem_nil _) rfl ⟨rfl, rfl, rfl, rfl, rfl, rfl⟩
  have hroot := h.rooted.evaluationRoot (m := m) (by simp [hm])
  simp only [Store.evaluate, hm]
  generalize s.evaluationRoot m = root at hroot
  rcases hp : s.capability? root with _ | p
  · dsimp only
    have hexpects := hserves.newCapability hroot
    have htrusts := h.trusts.newCapability hroot
    have hrooted := h.rooted.newCapability root
    obtain ⟨r, hr, -⟩ := Store.capability?_eq_some.1 hexpects.capability
    have hduties : (EvaluationWalk.start (s.newCapability root).2 root).1.duties =
        (s.newCapability root).2.duties := EvaluationWalk.duties_arrive _ {} root .executing
    have htargets : (EvaluationWalk.start (s.newCapability root).2 root).2.targets = [] :=
      EvaluationWalk.targets_arrive
    have hempty : ([] : List Frame).flatMap Frame.tours = [] := rfl
    refine .walk ?_ (fun τ hτ x hx _ ↦ ?_) (.nil htrusts hrooted)
      (hrooted.arrive {} root .executing) (.of_duties htrusts hduties) (htargets ▸ List.forall_mem_nil _)
      (.arrive _ {} root .executing) fun d w hsynthetic ↦ ?_
    · rw [hempty, List.append_nil]
      refine hexpects.start (fun hu ↦ ?_) (hupright.ascend (.newCapability s root))
      have hcalm : s.Calms (fun _ ↦ False) (s.newCapability root).2 := .newCapability s root
      exact Store.Carries.nil_iff.1 hc root (hcalm.underway root hu)
    · rw [EvaluationStep.stack_of_tours hτ] at hx
      rw [EvaluationStep.goal_of_tours hτ]
      obtain rfl := List.mem_singleton.1 (EvaluationWalk.start_stack _ root hx)
      exact ⟨_, rfl⟩
    · rw [(EvaluationWalk.eq_of_arrive_synthetic hsynthetic).2] at hr
      contradiction
  · exact .aside hserves hb (.refl h.trusts) (List.forall_mem_nil _) rfl ⟨rfl, rfl, rfl, rfl, rfl, rfl⟩

/-- A step with what no walk waits for. -/
theorem Serves.free {x : Store × Next} (hb : Backs s []) (hserves : x.1.Serves [])
    (htours : x.2.tours = []) (hupholds : s.Upholds s.Unpledged x.1)
    (hcapability : ∀ y, x.1.capability? y = s.capability? y) (hrooted : x.1.Rooted)
    (hlends : x.1.Lends s.Unpledged x.2.targets) : (Machine.apply [] x).Serves := by
  have hsame : x.1.Unpledged = s.Unpledged := Store.unpledged_congr hcapability
  refine .apply (hb.change hupholds hcapability hrooted) (hsame ▸ hlends) ?_ ?_ ?_
  · rw [htours]
    exact hserves
  · rw [htours]
    exact nofun
  · rintro t goal w hcall
    rw [hcall] at htours
    simp [Next.tours, Frame.tours] at htours

/-- What a machine serves, it serves after a step. -/
theorem Serves.step {M : Machine} (h : M.Serves) (hup : M.Upward) (hacc : M.Accounts)
    (he : ∀ m, M.control = .run (.evaluate m) → M.frames = []) : M.step.Serves := by
  rcases hnext : M.next? with _ | x
  · rwa [step_of_next?_eq_none hnext]
  rw [step_of_next? hnext]
  obtain ⟨s, control, fs⟩ := M
  have hupright : s.Upright := hup.upright
  have hlink := hup.linkage
  rcases control with t | r
  · obtain rfl : x = t.advance s := advance_of_next? hnext
    obtain ⟨hb, hlends, hserves, halone⟩ := h.run
    have hc : s.Carries (t.trips ++ fs.flatMap Frame.trips) := hacc.carries
    have hbase : t.isBase = true → fs = [] := hacc.grounded.current
    have hlinked : ∀ x : Store × Next, Inside s x.1 → x.1.duties = s.duties → x.2.targets = [] →
        x.2.Still → t.tours = [] → (Machine.apply fs x).Serves := by
      intro x hinside hduties htargets hstill htours
      rw [htours] at hserves
      exact .aside hserves hb (.of_duties h.trusts hduties) (htargets ▸ List.forall_mem_nil _)
        hinside.afar.outline hstill
    cases ht : t.isWalk with
    | false =>
      obtain ⟨ha, hq, -⟩ := Task.advance_quiet s ht
      obtain ⟨hdeals, hlends'⟩ := Task.advance_deals h.trusts ht hlends fun _ _ ↦ trivial
      have htours : t.tours = [] := by cases t <;> first | rfl | contradiction
      rw [htours] at hserves
      exact .aside hserves hb hdeals hlends' ha.outline hq.toStill
    | true =>
      cases t with
      | force m => exact h.force hc
      | evaluate m =>
        obtain rfl : fs = [] := he m rfl
        exact h.evaluate hupright hc
      | evaluation goal w =>
        obtain ⟨hdeals, hlends'⟩ := EvaluationWalk.advance_deals h.trusts w
        have hw : s.Bears (w.frames.map (·.module)) w.stack :=
          hc.bears ⟨goal, .here, w⟩ List.mem_cons_self
        refine .walk ?_ (Serves.alone_next hserves halone hc (.advance s w)
          (EvaluationWalk.advance_draws s w)) hb (hb.rooted.advance w) hdeals hlends' (.advance s w)
          fun _ _ ↦ EvaluationWalk.frames_of_synthetic
        refine Serves.goOn hserves halone hupright hc ?_ (.advance s w)
          (hdeals.keepsPledges hserves.tells) (EvaluationWalk.advance_comes hw)
          (EvaluationWalk.advance_stays hw) (fun hnil e left ↦ ?_)
          fun _ _ ↦ EvaluationWalk.stack_of_advance
        · rintro ⟨root, p, rfl⟩
          exact hbase rfl
        · have hframes : w.frames = [] := List.map_eq_nil_iff.1 hnil
          simp [hframes]
      | free ms =>
        obtain rfl := hbase rfl
        rcases ms with _ | ⟨m, rest⟩
        · exact Serves.free hb hserves rfl (.refl h.trusts) (fun _ ↦ rfl) hb.rooted (List.forall_mem_nil _)
        · have hfree := Store.Serves.continueFree hserves h.trusts m
          obtain ⟨hupholds, hlends'⟩ := Store.Upholds.continueFree h.trusts m
          have hcapability := s.capability?_continueFree m
          have hrooted := hb.rooted.continueFree m
          simp only [Task.advance]
          split
          · next heq =>
            rw [heq] at hfree hupholds hcapability hrooted
            exact Serves.free hb hfree rfl hupholds hcapability hrooted (List.forall_mem_nil _)
          · next capability s' heq =>
            rw [heq] at hfree hupholds hcapability hlends' hrooted
            have hlent := hlends' capability rfl
            exact Serves.free hb hfree rfl hupholds hcapability hrooted
              (List.forall_mem_append.2 ⟨hlent, hlent⟩)
      | job j =>
        obtain rfl := hbase rfl
        by_cases hj : ∀ m, j.reaction ≠ .completeModule m
        · obtain ⟨ha, hq⟩ := Job.run_quiet s hj
          obtain ⟨hdeals, hlends'⟩ := Job.run_deals h.trusts hj hlends
          exact .aside hserves hb hdeals hlends' ha.outline hq.toStill
        · simp only [ne_eq, not_forall, not_not] at hj
          obtain ⟨reaction, c⟩ := j
          obtain ⟨m, rfl⟩ := hj
          rcases c with e | ⟨⟩
          · exact Serves.free hb (Store.Serves.rejectModule hserves m e) rfl
              (.rejectFrom h.trusts _ m e) (s.capability?_rejectModule m e)
              (hb.rooted.of_fails (Store.fails_rejectModule s m e)) (List.forall_mem_nil _)
          · exact Serves.free hb (Store.Serves.fulfillModule hserves hupright m) rfl
              (.fulfillModule h.trusts m) (s.capability?_fulfillModule m)
              (hb.rooted.fulfillModule m) (List.forall_mem_nil _)
      | link m =>
        obtain ⟨hinside, hstill, -⟩ := Task.link_inside (L := fs.flatMap Frame.linkTours) hlink m
        obtain ⟨hduties, htargets⟩ := Task.link_duties s m
        exact hlinked _ hinside hduties htargets hstill rfl
      | linking w =>
        obtain ⟨hinside, -⟩ := LinkWalk.advance_inside (L := fs.flatMap Frame.linkTours) hlink
        obtain ⟨hduties, htargets⟩ := LinkStep.next_duties (w.advance s).1 (w.advance s).2
        exact hlinked _ hinside (hduties.trans (w.advance_duties s)) htargets
          (LinkStep.next_still _ _).1 rfl
      | _ => contradiction
  · rcases fs with _ | ⟨f, fs⟩
    · contradiction
    obtain rfl : x = f.resume s r := (Option.some.inj hnext).symm
    obtain ⟨hb, hlends, hserves, halone⟩ := h.give
    have hc : s.Carries (f.trips ++ fs.flatMap Frame.trips) := hacc.carries
    have hbase : f.isBase = true → fs = [] := hacc.grounded.frames [] f fs rfl
    cases hf : f.isWalk with
    | false =>
      obtain ⟨ha, hq, -⟩ := Frame.resume_quiet s r hf
      obtain ⟨hdeals, hlends'⟩ := Frame.resume_deals h.trusts r hf hlends
      have htours : f.tours = [] := by cases f <;> first | rfl | contradiction
      rw [htours] at hserves
      exact .aside hserves hb hdeals hlends' ha.outline hq.toStill
    | true =>
      cases f with
      | executed goal m capability w =>
        obtain ⟨hdeals, htargets⟩ :=
          EvaluationWalk.executed_deals h.trusts w m hlends r.toCompletion
        have hw : s.Bears (m :: w.frames.map (·.module)) w.stack :=
          hc.bears ⟨goal, .running m, w⟩ List.mem_cons_self
        refine .walk ?_ (Serves.alone_next hserves halone hc (.executed s w m capability _)
          (.of_subset (EvaluationWalk.executed_stack s w m capability _))) hb
          (hb.rooted.executed w m capability _) hdeals (htargets ▸ List.forall_mem_nil _)
          (.executed s w m capability _)
          fun _ _ hs ↦ absurd hs EvaluationWalk.executed_ne_synthetic
        exact Serves.goOn hserves halone hupright hc (by rintro ⟨root, p, rfl⟩; exact hbase rfl)
          (.executed s w m capability _) (hdeals.keepsPledges hserves.tells)
          (EvaluationWalk.executed_comes hw capability _)
          (EvaluationWalk.executed_stays hw capability _) (fun hnil ↦ by cases hnil)
          fun _ _ ↦ EvaluationWalk.stack_of_executed
      | passed goal w =>
        obtain ⟨hdeals, htargets⟩ := EvaluationWalk.passed_deals h.trusts w r.toCompletion
        have hw : s.Bears (w.frames.map (·.module)) w.stack :=
          hc.bears ⟨goal, .here, w⟩ List.mem_cons_self
        refine .walk ?_ (Serves.alone_next hserves halone hc (.passed s w _)
          (.of_subset (EvaluationWalk.passed_stack s w _))) hb
          (hb.rooted.passed w _) hdeals (htargets ▸ List.forall_mem_nil _) (.passed s w _)
          fun _ _ hs ↦ absurd hs EvaluationWalk.passed_ne_synthetic
        exact Serves.goOn hserves halone hupright hc (by rintro ⟨root, p, rfl⟩; exact hbase rfl)
          (.passed s w _) (hdeals.keepsPledges hserves.tells) (EvaluationWalk.passed_comes hw _)
          (EvaluationWalk.passed_stays hw _)
          (fun hnil ↦ absurd (List.map_eq_nil_iff.1 hnil) (h.passing goal w List.mem_cons_self))
          fun _ _ ↦ EvaluationWalk.stack_of_passed
      | freed m capability rest =>
        obtain rfl := hbase rfl
        exact Serves.free hb (Store.Serves.finishFree hserves h.trusts hupright m hlends _) rfl
          (.finishFree h.trusts m capability _) (s.capability?_finishFree m capability _)
          (hb.rooted.finishFree m capability _) (List.forall_mem_nil _)
      | setUp m w =>
        obtain ⟨hinside, hstill, -⟩ := Frame.setUp_inside (L := fs.flatMap Frame.linkTours) hlink r
        obtain ⟨hduties, htargets⟩ := Frame.setUp_duties s r m w
        exact .aside hserves hb (.of_duties h.trusts hduties) (htargets ▸ List.forall_mem_nil _)
          hinside.afar.outline hstill
      | _ => contradiction

end Machine

/-! ## Runs -/

/-- Nothing has been evaluated yet, and nobody waits for anything. -/
structure Store.Pristine (s : Store) : Prop extends s.Fresh where
  suspended : s.stage.suspended = []
  loadings : s.loadings = #[]

/-- The promises of evaluations tell how the evaluations ended. -/
def State.Serves : State → Prop
  | .idle s => s.Trusts s.Unpledged ∧ s.Serves [] ∧ s.Rooted
  | .busy _ M => M.Serves

theorem Store.Pristine.serves {s : Store} (h : s.Pristine) : (State.idle s).Serves := by
  have hcapability : ∀ x, s.capability? x = none := fun x ↦ by
    rcases hx : s.source? x with _ | r
    · simp [Store.capability?, hx]
    · simp [Store.capability?, hx, (h.source x r hx).2.2.2.2.1]
  have hpromise : ∀ p, s.promise? p = none := fun p ↦ by simp [Store.promise?, h.promises]
  refine ⟨⟨fun p _ x hx ↦ ?_, fun p hp ↦ ?_⟩, Store.Serves.nil_iff.2 ⟨⟨fun x p hp ↦ ?_,
    fun x y p hp ↦ ?_, fun x r p hr hp ↦ ?_, by simp⟩, fun x r hr hsome ↦ ?_⟩, h.toFresh.rooted⟩
  · exact absurd ((hcapability x).symm.trans hx) (by simp)
  · cases hp with
    | reaction hr _ => simp [Store.reactions, hpromise] at hr
    | job hj _ => simp [h.jobs] at hj
    | suspended hl => simp [h.suspended] at hl
    | loading _ hl _ => simp [Store.loading?, h.loadings] at hl
  · exact absurd ((hcapability x).symm.trans hp) (by simp)
  · exact absurd ((hcapability x).symm.trans hp) (by simp)
  · exact absurd ((hcapability x).symm.trans (Store.capability?_eq_some.2 ⟨r, hr, hp⟩)) (by simp)
  · rw [(h.source x r hr).2.2.2.2.1] at hsome
    contradiction

namespace State.Serves

variable {s s' : Store}

/-- A change of an idle store that is nothing to evaluation. -/
theorem aside (h : (State.idle s).Serves) (hdeals : s.Deals s.Unpledged s')
    (houtline : s'.outline = s.outline) : (State.idle s').Serves := by
  obtain ⟨-, hserves, hrooted⟩ := h
  have hsame : s'.Unpledged = s.Unpledged :=
    Store.unpledged_congr (Store.capability?_of_outline houtline)
  exact ⟨hsame ▸ hdeals.trusts, hserves.of_outline houtline (hdeals.keepsPledges hserves.tells),
    hrooted.of_outline houtline⟩

theorem start (h : (State.idle s).Serves) {t : Task} (ht : t.tours = [])
    (hlends : s.Lends s.Unpledged t.targets) : (Machine.start s t).Serves := by
  have htours : (Machine.start s t).tours = [] := by
    change t.tours ++ [] = []
    rw [ht, List.append_nil]
  refine ⟨h.1, ?_, ?_, ?_, h.2.2, nofun⟩
  · change s.Lends s.Unpledged (t.targets ++ [])
    rwa [List.append_nil]
  · rw [htours]
    exact h.2.1
  · rw [htours]
    exact nofun

end State.Serves

theorem Act.begin_serves {s : Store} {a : Act} {st : State} (h : (State.idle s).Serves)
    (ha : a.begin s = some st) : st.Serves := by
  cases a with
  | namespaceOf m phase =>
    obtain rfl := Option.some.inj ha
    exact h.aside (.of_duties h.1 (s.duties_namespaceOf m phase)) (s.namespaceOf_apart m phase).outline
  | settle label c =>
    obtain ⟨p, hp, rfl⟩ := Option.map_eq_some_iff.1 ha
    obtain ⟨l, hl, rfl, rfl⟩ : ∃ l ∈ s.stage.suspended, l.1 = label ∧ l.2 = p := by
      obtain ⟨before, after, hlist, -⟩ := List.lookup_eq_some_iff.1 hp
      exact ⟨(label, p), by simp [hlist], rfl, rfl⟩
    have hlends : s.Lends s.Unpledged [l.2] :=
      List.forall_mem_singleton.2 (h.1.entrusts _ (.suspended hl))
    exact h.aside (.settle h.1 hlends c) (Store.outline_congr (s.modules_settle _ c))
  | job =>
    simp only [begin] at ha
    split at ha
    · contradiction
    · next j rest hjobs =>
      obtain rfl := Option.some.inj ha
      have hdeals : s.Deals s.Unpledged { s with jobs := rest } :=
        .of_eq h.1 rfl (hjobs ▸ List.subset_cons_self j rest) rfl fun l r' hl ↦ ⟨r', hl, rfl⟩
      refine (h.aside hdeals rfl).start rfl fun p hp ↦ ?_
      exact h.1.entrusts p (.job (hjobs ▸ List.mem_cons_self) hp)
  | _ =>
    obtain rfl := Option.some.inj ha
    exact h.start rfl (List.forall_mem_nil _)

/-- What the machine is about to do does not matter if it is nothing to evaluation. -/
theorem Machine.Serves.control {s s' : Store} {t t' : Task} {fs : List Frame}
    (h : (Machine.mk s (.run t) fs).Serves) (hdeals : s.Deals s.Unpledged s')
    (houtline : s'.outline = s.outline) (ht : t'.targets = t.targets) (htours : t'.tours = t.tours) :
    (Machine.mk s' (.run t') fs).Serves := by
  have hcapability := Store.capability?_of_outline houtline
  have hsame : s'.Unpledged = s.Unpledged := Store.unpledged_congr hcapability
  have hlends : s.Lends s.Unpledged (t.targets ++ fs.flatMap Frame.targets) := h.lends
  have hserves : s.Serves (t.tours ++ fs.flatMap Frame.tours) := h.serves
  have htours' : (Machine.mk s' (.run t') fs).tours = (Machine.mk s (.run t) fs).tours := by
    change t'.tours ++ _ = t.tours ++ _
    rw [htours]
  refine ⟨hsame ▸ hdeals.trusts, ?_, ?_, ?_, h.rooted.of_outline houtline, h.passing⟩
  · change s'.Lends s'.Unpledged (t'.targets ++ fs.flatMap Frame.targets)
    rw [hsame, ht]
    exact hlends.mono hdeals.grows
  · change s'.Serves (t'.tours ++ fs.flatMap Frame.tours)
    rw [htours]
    exact hserves.of_outline houtline (hdeals.keepsPledges hserves.tells)
  · rw [htours']
    exact h.alone.congr hcapability

variable {s₀ : Store} {st : State} {H : List Event}

/-- In every run, the promises of evaluations tell how the evaluations ended. -/
theorem Run.serves (hs : s₀.Pristine) (h : Run Machine.Asserts s₀ st H) : st.Serves := by
  induction h with
  | start => exact hs.serves
  | call a _ ha ih => exact Act.begin_serves ih ha
  | step hrun he _ ih =>
    exact Machine.Serves.step ih (hrun.upward hs.toFresh) (hrun.accounts hs.toFresh.carries) he
  | @consult a M H q s hrun hq hconsults ih =>
    have hc := Machine.control_of_question? hq
    obtain ⟨s, control, fs⟩ := M
    obtain rfl : control = _ := hc
    exact Machine.Serves.control ih (hconsults.deals (Machine.Serves.trusts ih))
      hconsults.aside.outline rfl rfl
  | @answer a M H q as hrun hq ih =>
    have hc := Machine.control_of_question? hq
    obtain ⟨s, control, fs⟩ := M
    obtain rfl : control = _ := hc
    exact Machine.Serves.control ih (.refl (Machine.Serves.trusts ih)) rfl rfl rfl
  | @finish a M H r hrun hr ih =>
    obtain ⟨hc, hf⟩ := Machine.end_of_result? hr
    obtain ⟨s, control, fs⟩ := M
    obtain rfl : control = _ := hc
    obtain rfl : fs = _ := hf
    exact ⟨Machine.Serves.trusts ih, Machine.Serves.serves ih, Machine.Serves.rooted ih⟩

end EcmaModules
