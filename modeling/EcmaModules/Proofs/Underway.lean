import EcmaModules.Proofs.Origins
import EcmaModules.Proofs.Outcome

/-!
# No module is left under way

While a module is being executed or searched it is on the stack of a walk that goes on; so when no
call is under way, there is no such module. The walks of a machine, those that evaluate and those that
link, lie on top of each other, and whichever is on top goes on. What has to be kept is that no
walk touches the origin of a walk below it.

This holds of every run. A module may be on the stacks of several walks, or twice on one; a walk may
complete, execute or fail modules that one below it is still at; linking may be started by a body
and fail. None of it concerns the origins of other walks.
-/

namespace EcmaModules

/-! ## The walks of a machine -/

/-- A walk of either kind. -/
inductive Trip where
  | evaluating (τ : Tour)
  | linking (τ : LinkTour)

namespace Trip

/-- The modules that the walk is not through with. -/
def stack : Trip → List ModuleId
  | .evaluating τ => τ.walk.stack
  | .linking τ => τ.stack

/-- The module that an evaluating walk started at. -/
def origin? : Trip → Option ModuleId
  | .evaluating τ => τ.path.getLast?
  | .linking _ => none

end Trip

/-- The walk that a task is. -/
def Task.trips (t : Task) : List Trip := t.tours.map .evaluating ++ t.linkTours.map .linking

/-- The walk that waits in a frame. -/
def Frame.trips (f : Frame) : List Trip := f.tours.map .evaluating ++ f.linkTours.map .linking

/-- The walks that come on top. -/
def Next.trips : Next → List Trip
  | .goto t => t.trips
  | .call t f => t.trips ++ f.trips
  | .give _ => []

/-- The walks of the machine, the latest first. -/
def Machine.trips (M : Machine) : List Trip := M.current.trips ++ M.frames.flatMap Frame.trips

theorem Machine.trips_apply {s : Store} {n : Next} {fs : List Frame} :
    (Machine.apply fs (s, n)).trips = n.trips ++ fs.flatMap Frame.trips := by
  cases n <;> simp [apply, trips, current, Next.trips]

theorem Machine.evaluating_mem_trips {M : Machine} {τ : Tour} :
    .evaluating τ ∈ M.trips ↔ τ ∈ M.tours := by
  have hframe : ∀ f : Frame, .evaluating τ ∈ f.trips ↔ τ ∈ f.tours := fun f ↦ by
    simp [Frame.trips]
  obtain ⟨s, control, fs⟩ := M
  cases control <;>
    simp [trips, tours, current, Next.trips, Next.tours, Task.trips, hframe]

/-! ## What has to be kept -/

namespace Store

/-- The walks account for whatever is under way, and none of them has the origin of a lower one on
its stack. -/
structure Carries (s : Store) (T : List Trip) : Prop where
  underway : ∀ x, s.Underway x → ∃ τ, .evaluating τ ∈ T ∧ x ∈ τ.walk.stack
  bears : ∀ τ, .evaluating τ ∈ T → s.Bears τ.path τ.walk.stack
  apart : T.Pairwise fun upper lower ↦ ∀ o, lower.origin? = some o → o ∉ upper.stack

namespace Carries

variable {s s' : Store} {T A A' : List Trip}

theorem origin (h : s.Carries T) {t : Trip} (ht : t ∈ T) {o : ModuleId} (ho : t.origin? = some o) :
    s.Origin o := by
  cases t with
  | evaluating τ => exact ((h.bears τ ht).origin ho).1
  | linking τ => exact nomatch ho

/-- The walks on top go on, or others take their place. -/
theorem replace (h : s.Carries (A ++ T))
    (hunderway : ∀ x, s'.Underway x → (∃ τ, .evaluating τ ∈ A' ∧ x ∈ τ.walk.stack) ∨
      s.Underway x ∧ ∀ τ, .evaluating τ ∈ A → x ∉ τ.walk.stack)
    (horigin : ∀ o, s.Origin o → (∀ t ∈ A, o ∉ t.stack) → s'.Origin o ∧ ∀ t ∈ A', o ∉ t.stack)
    (hbears : ∀ τ, .evaluating τ ∈ A' → s'.Bears τ.path τ.walk.stack) (hone : A'.length ≤ 1) :
    s'.Carries (A' ++ T) := by
  obtain ⟨-, hT, hcross⟩ := List.pairwise_append.1 h.apart
  -- the origins of the walks below stay what they are, and off the stack
  have hbelow : ∀ t ∈ T, ∀ o, t.origin? = some o → s'.Origin o ∧ ∀ u ∈ A', o ∉ u.stack :=
    fun t ht o ho ↦ horigin o (h.origin (List.mem_append_right _ ht) ho)
      fun u hu ↦ hcross u hu t ht o ho
  refine ⟨fun x hx ↦ ?_, fun τ hτ ↦ ?_, List.pairwise_append.2 ⟨?_, hT, fun u hu t ht o ho ↦ ?_⟩⟩
  · rcases hunderway x hx with ⟨τ, hτ, hmem⟩ | ⟨hx', hnot⟩
    · exact ⟨τ, List.mem_append_left _ hτ, hmem⟩
    · obtain ⟨τ, hτ, hmem⟩ := h.underway x hx'
      rcases List.mem_append.1 hτ with hτ | hτ
      · exact absurd hmem (hnot τ hτ)
      · exact ⟨τ, List.mem_append_right _ hτ, hmem⟩
  · rcases List.mem_append.1 hτ with hτ | hτ
    · exact hbears τ hτ
    · refine (h.bears τ (List.mem_append_right _ hτ)).mono fun o _ hlast ↦ ?_
      exact (hbelow _ hτ o hlast).1
  · rcases A' with _ | ⟨u, _ | _⟩
    · exact .nil
    · exact List.pairwise_singleton _ u
    · simp at hone
  · exact (hbelow t ht o ho).2 u hu

/-- The store changes, but no walk goes on. -/
theorem of_calms (h : s.Carries T) (hs : s.Calms (fun _ ↦ True) s') : s'.Carries T := by
  change s'.Carries ([] ++ T)
  exact replace (A := []) h (fun x hx ↦ .inr ⟨hs.underway x hx, nofun⟩)
    (fun o ho _ ↦ ⟨hs.origin o trivial ho, nofun⟩) nofun (Nat.zero_le 1)

/-- No walk is there, and nothing is under way. -/
theorem nil_iff : s.Carries [] ↔ ∀ x, ¬s.Underway x := by
  refine ⟨fun h x hx ↦ ?_, fun h ↦ ⟨fun x hx ↦ absurd hx (h x), nofun, .nil⟩⟩
  obtain ⟨τ, hτ, -⟩ := h.underway x hx
  exact nomatch hτ

theorem nil_of_calms (h : s.Carries []) (hs : s.Calms (fun _ ↦ False) s') : s'.Carries [] :=
  nil_iff.2 fun x hx ↦ nil_iff.1 h x (hs.underway x hx)

end Carries

end Store

variable {s : Store} {T : List Trip}

/-- A walk that evaluates goes on, starts or ends. -/
theorem Store.Carries.walk {s' : Store} {t t' : List Tour} {stack : List ModuleId}
    (h : s.Carries (t.map .evaluating ++ T)) (hstack : t.flatMap (·.walk.stack) = stack)
    (hshifts : s.Shifts s' stack (t'.flatMap (·.walk.stack)))
    (hbears : ∀ τ ∈ t', s'.Bears τ.path τ.walk.stack) (hone : t'.length ≤ 1) :
    s'.Carries (t'.map .evaluating ++ T) := by
  subst hstack
  refine h.replace (fun x hx ↦ ?_) (fun o ho hnot ↦ ?_) (fun τ hτ ↦ ?_) (by simpa using hone)
  · rcases hshifts.underway x hx with hmem | ⟨hx', hnot⟩
    · obtain ⟨τ, hτ, hmem⟩ := List.mem_flatMap.1 hmem
      exact .inl ⟨τ, List.mem_map_of_mem hτ, hmem⟩
    · refine .inr ⟨hx', fun τ hτ hmem ↦ hnot (List.mem_flatMap.2 ⟨τ, ?_, hmem⟩)⟩
      simpa using hτ
  · have hoff : o ∉ t.flatMap (·.walk.stack) := fun hmem ↦ by
      obtain ⟨τ, hτ, hmem⟩ := List.mem_flatMap.1 hmem
      exact hnot _ (List.mem_map_of_mem hτ) hmem
    obtain ⟨ho', hoff'⟩ := hshifts.origin o ho hoff
    refine ⟨ho', fun u hu hmem ↦ hoff' ?_⟩
    obtain ⟨τ, hτ, rfl⟩ := List.mem_map.1 hu
    exact List.mem_flatMap.2 ⟨τ, hτ, hmem⟩
  · exact hbears τ (by simpa using hτ)

/-- A walk that links goes on, starts or ends. -/
theorem Store.Carries.link {s' : Store} {t t' : List LinkTour} {stack : List ModuleId}
    (h : s.Carries (t.map .linking ++ T)) (hstack : t.flatMap (·.stack) = stack)
    (hs : s.Calms (· ∉ stack) s')
    (hstack' : ∀ x ∈ t'.flatMap (·.stack), x ∈ stack ∨ ¬s.Origin x) (hone : t'.length ≤ 1) :
    s'.Carries (t'.map .linking ++ T) := by
  subst hstack
  refine h.replace (fun x hx ↦ .inr ⟨hs.underway x hx, fun τ hτ ↦ by simp at hτ⟩)
    (fun o ho hnot ↦ ?_) (fun τ hτ ↦ by simp at hτ) (by simpa using hone)
  have hoff : o ∉ t.flatMap (·.stack) := fun hmem ↦ by
    obtain ⟨τ, hτ, hmem⟩ := List.mem_flatMap.1 hmem
    exact hnot _ (List.mem_map_of_mem hτ) hmem
  refine ⟨hs.origin o hoff ho, fun u hu hmem ↦ ?_⟩
  obtain ⟨τ, hτ, rfl⟩ := List.mem_map.1 hu
  rcases hstack' o (List.mem_flatMap.2 ⟨τ, hτ, hmem⟩) with hmem | hnot
  · exact hoff hmem
  · exact hnot ho

/-! ## Linking -/

namespace LinkWalk

variable {K : ModuleId → Prop} {w : LinkWalk} {m root : ModuleId}

theorem popComponent_calms (s : Store) (root : ModuleId) (stack : List ModuleId) :
    s.Calms (· ∉ stack) (popComponent s root stack).1 ∧ (popComponent s root stack).2 ⊆ stack := by
  induction stack generalizing s with
  | nil => exact ⟨.refl s, List.Subset.refl _⟩
  | cons m stack ih =>
    have hset : s.Calms (· ∉ m :: stack) (s.setStatus m .linked) :=
      .setStatus s rfl fun x hx h ↦ hx (h ▸ List.mem_cons_self)
    rw [popComponent]
    split
    · exact ⟨hset, List.subset_cons_self m stack⟩
    · obtain ⟨hcalm, hsub⟩ := ih (s.setStatus m .linked)
      refine ⟨hset.trans (hcalm.mono fun x hx h ↦ hx (List.mem_cons_of_mem _ h)), ?_⟩
      exact List.subset_cons_of_subset m hsub

theorem leave_calms (s : Store) (m required : ModuleId) : s.Calms K (leave s m required) := by
  unfold leave
  split
  · split
    · exact .lowerAncestor s m _
    · exact .refl s
  · exact .refl s

/-- A module that is linked next is not under way. -/
theorem enter_calms {s' : Store} {w' : LinkWalk} (h : enter s w m = (s', some w')) :
    s.Calms K s' ∧ ∀ x ∈ w'.stack, x ∈ w.stack ∨ ¬s.Origin x := by
  unfold enter at h
  split at h
  next hm =>
    obtain ⟨rfl, hw⟩ := Prod.mk.inj h
    obtain rfl := Option.some.inj hw
    have hnot : ¬s.Origin m := by
      rintro ⟨q, hq, hs, -⟩
      simp [Store.status?, hq, hs] at hm
    have hset : s.Calms (fun x ↦ K x ∧ s.Origin x) (s.setStatus m .linking) :=
      .setStatus s rfl fun x hx h ↦ hnot (h ▸ hx.2)
    have hset' : (s.setStatus m .linking).Calms K
        ((s.setStatus m .linking).setDfsIndex m w.index) := by
      refine .modifySource _ m fun r hr ↦ ⟨id, fun _ ho ↦ ?_⟩
      have hst : (s.setStatus m .linking).status? m = some .evaluating := by
        rw [Store.status?, hr, Option.map_some, ho.1]
      rw [Store.status?_setStatus, if_pos rfl, hm] at hst
      contradiction
    refine ⟨Store.Calms.trans ⟨hset.underway, fun x hK ho ↦ hset.origin x ⟨hK, ho⟩ ho⟩ hset',
      fun x hx ↦ ?_⟩
    rcases List.mem_cons.1 hx with rfl | hx
    · exact .inr hnot
    · exact .inl hx
  next => exact absurd (Prod.mk.inj h).2 (by simp)

theorem enter_eq_none {s' : Store} (h : enter s w m = (s', none)) : s' = s := by
  unfold enter at h
  split at h
  · exact nomatch (Prod.mk.inj h).2
  · exact (Prod.mk.inj h).1.symm

theorem conclude_calms (s : Store) (w : LinkWalk) (m : ModuleId) :
    s.Calms (· ∉ w.stack) (conclude s w m).1 ∧ (conclude s w m).2.stack ⊆ w.stack := by
  have hpop : ∀ s' stack,
      (if s.isComponentRoot m then popComponent s m w.stack else (s, w.stack)) = (s', stack) →
      s.Calms (· ∉ w.stack) s' ∧ stack ⊆ w.stack := by
    intro s' stack h
    split at h
    · have := popComponent_calms s m w.stack
      rwa [h] at this
    · obtain ⟨rfl, rfl⟩ := Prod.mk.inj h
      exact ⟨.refl s, List.Subset.refl _⟩
  unfold conclude
  split
  next s' stack heq =>
  obtain ⟨hcalm, hsub⟩ := hpop s' stack heq
  refine ⟨hcalm.trans ?_, hsub⟩
  dsimp only
  split
  · exact leave_calms s' _ m
  · exact .refl s'

theorem unlink_calms (s : Store) (stack : List ModuleId) : s.Calms (· ∉ stack) (s.unlink stack) :=
  .foldl (fun s _ hm ↦ .setStatus s rfl fun _ hx h ↦ hx (h ▸ hm)) s

end LinkWalk

/-- What a walk that links, with the stack, comes to: it concerns only modules on the stack, and puts
no origin on it. -/
structure Store.Binds (s : Store) (stack : List ModuleId) (x : Store × Next) : Prop where
  calms : s.Calms (· ∉ stack) x.1
  stack : ∀ y ∈ x.2.linkTours.flatMap (·.stack), y ∈ stack ∨ ¬s.Origin y
  one : x.2.linkTours.length ≤ 1
  still : x.2.Still

namespace Store.Binds

variable {s' : Store} {stack : List ModuleId} {w : LinkWalk}

theorem go (h : s.Calms (· ∉ stack) s') (hw : ∀ y ∈ w.stack, y ∈ stack ∨ ¬s.Origin y) :
    s.Binds stack (s', .goto (.linking w)) :=
  ⟨h, fun y hy ↦ hw y (by simpa [Next.linkTours, Task.linkTours, LinkWalk.tour] using hy), le_rfl,
    ⟨rfl, rfl, rfl, rfl, rfl, rfl⟩⟩

theorem failed (h : s.Calms (· ∉ stack) s') (e : ErrorId) :
    s.Binds stack (LinkStep.next s' (.failed e stack)) :=
  ⟨h.trans (LinkWalk.unlink_calms s' stack), nofun, Nat.zero_le 1, (LinkStep.next_still _ _).1⟩

end Store.Binds

namespace LinkWalk

theorem advance_binds (s : Store) (w : LinkWalk) :
    s.Binds w.stack ((w.advance s).2.next (w.advance s).1) := by
  unfold advance
  split
  · exact ⟨.refl s, nofun, Nat.zero_le 1, (LinkStep.next_still _ _).1⟩
  · next m rest _ =>
    have hapart := s.initializeEnvironment_furnishing m
    split
    · next heq =>
      rw [heq] at hapart
      refine ⟨.of_outline hapart.outline, fun y hy ↦ .inl ?_, le_rfl, (LinkStep.next_still _ _).1⟩
      simpa [LinkStep.next, Next.linkTours, Task.linkTours, Store.setUp, Frame.linkTours, tourAt]
        using hy
    · next heq =>
      rw [heq] at hapart
      exact .failed (.of_outline hapart.outline) _
  · next m r requests rest _ =>
    dsimp only
    split
    · exact .go (.refl s) fun y hy ↦ .inl hy
    · split
      · next heq =>
        obtain ⟨hcalm, hstack⟩ := enter_calms (w := { w with frames := ⟨m, requests⟩ :: rest }) heq
        exact .go hcalm hstack
      · next heq =>
        obtain rfl := enter_eq_none heq
        exact .go (leave_calms _ m _) fun y hy ↦ .inl hy

theorem setUp_binds (s : Store) (r : Result) (m : ModuleId) (w : LinkWalk) :
    s.Binds w.stack (Frame.resume s r (.setUp m w)) := by
  simp only [Frame.resume]
  split
  · obtain ⟨hcalm, hsub⟩ := conclude_calms s w m
    exact .go hcalm fun y hy ↦ .inl (hsub hy)
  · exact .failed (.refl s) _

end LinkWalk

theorem Task.link_binds (s : Store) (m : ModuleId) : s.Binds [] (Task.advance s (.link m)) := by
  have hthrow : ∀ kind message e,
      s.Binds [] ((s.throw kind message).2, .give (.completion (.error e))) :=
    fun _ _ _ ↦ ⟨.of_modules rfl, List.forall_mem_nil _, Nat.zero_le 1, ⟨rfl, rfl, rfl, rfl, rfl, rfl⟩⟩
  simp only [Task.advance, Store.startLinking]
  split
  · next heq =>
    split at heq
    · exact absurd (Prod.mk.inj heq).1 (by simp)
    · exact absurd (Prod.mk.inj heq).1 (by simp)
    · split at heq
      · next henter =>
        obtain ⟨hw, rfl⟩ := Prod.mk.inj heq
        obtain rfl := Except.ok.inj hw
        obtain ⟨hcalm, hstack⟩ := LinkWalk.enter_calms henter
        exact .go hcalm hstack
      · next henter =>
        obtain ⟨hw, rfl⟩ := Prod.mk.inj heq
        obtain rfl := Except.ok.inj hw
        obtain rfl := LinkWalk.enter_eq_none henter
        exact .go (.refl _) (by simp)
  · next heq =>
    split at heq
    · obtain ⟨-, rfl⟩ := Prod.mk.inj heq
      exact hthrow _ _ _
    · obtain ⟨-, rfl⟩ := Prod.mk.inj heq
      exact hthrow _ _ _
    · split at heq <;> exact absurd (Prod.mk.inj heq).1 (by simp)

/-! ## Modules that are set free -/

namespace Store.Calms

variable {s' : Store} {m : ModuleId}

/-- Whatever is not under way may become so only when a walk enters it. -/
private theorem setEvaluated (s : Store) (m : ModuleId) :
    s.Calms (fun _ ↦ False) (s.setStatus m .evaluated) := .setStatus s rfl nofun

theorem settleAsync {K : ModuleId → Prop} (s : Store) (m : ModuleId) : s.Calms K (s.settleAsync m) :=
  modifySource_of_fields s m fun _ ↦ ⟨rfl, rfl, rfl⟩

theorem finishModule (s : Store) (m : ModuleId) : s.Calms (fun _ ↦ False) (s.finishModule m) :=
  ((settleAsync s m).trans (setEvaluated _ m)).trans
    (of_modules (Store.modules_resolveCapability _ m))

theorem fulfillModule (s : Store) (m : ModuleId) :
    s.Calms (fun _ ↦ False) (s.fulfillModule m).1 := by
  unfold Store.fulfillModule
  split
  · exact refl s
  · refine (finishModule s m).trans ?_
    exact Store.gatherFrom_of_lessen refl (fun _ _ _ ↦ trans)
      (fun s p ↦ modifySource_of_fields s p fun _ ↦ ⟨rfl, rfl, rfl⟩) _ _ m []

theorem of_fails {e : ErrorId} (h : Fails e s s') : s.Calms (fun _ ↦ False) s' := by
  refine ⟨fun x ⟨r', hr', hw⟩ ↦ ?_, nofun⟩
  rcases h x with hx | ⟨r, hr, -, hx⟩
  · exact ⟨r', hx.symm.trans hr', hw⟩
  · obtain rfl := Option.some.inj (hx.symm.trans hr')
    exact nomatch hw

theorem continueFree (s : Store) (m : ModuleId) :
    s.Calms (fun _ ↦ False) (s.continueFree m).2 := by
  unfold Store.continueFree
  split
  · exact refl s
  · split
    · exact refl s
    · split
      · exact startAsync s m
      · split
        · exact ((setStatus s rfl nofun).trans (settleAsync _ m)).trans
            (of_modules (Store.modules_resolveCapability _ m))
        · exact refl s

theorem finishFree (s : Store) (m : ModuleId) (capability : Option PromiseId) (c : Completion) :
    s.Calms (fun _ ↦ False) (s.finishFree m capability c) := by
  unfold Store.finishFree
  split
  · exact ((setEvaluated s m).trans (settleAsync _ m)).trans
      (of_modules (Store.modules_resolveCapability _ m))
  · exact of_fails (Store.fails_rejectModule s m _)
  · exact refl s
  · exact of_modules (Store.modules_settle _ _ _)

end Store.Calms

/-! ## Steps of the machine -/

namespace Next

theorem trips_of_linkTours {n : Next} (h : n.linkTours = []) : n.trips = n.tours.map .evaluating := by
  cases n <;> simp_all [linkTours, trips, tours, Task.trips, Frame.trips]

theorem trips_of_tours {n : Next} (h : n.tours = []) : n.trips = n.linkTours.map .linking := by
  cases n <;> simp_all [linkTours, trips, tours, Task.trips, Frame.trips]

theorem Quiet.trips {n : Next} (h : n.Quiet) : n.trips = [] := by
  rw [trips_of_linkTours h.linkTours, h.tours, List.map_nil]

end Next

theorem Task.trips_of_quiet {t : Task} (h : t.isWalk = false) : t.trips = [] := by
  cases t <;> first | rfl | exact nomatch h

theorem Frame.trips_of_quiet {f : Frame} (h : f.isWalk = false) : f.trips = [] := by
  cases f <;> first | rfl | exact nomatch h

/-- What a walk has come to takes its place among the walks of the machine. -/
theorem Store.Carries.comes {t : List Tour} {stack : List ModuleId} {x : Store × EvaluationStep}
    (h : s.Carries (t.map .evaluating ++ T)) (hstack : t.flatMap (·.walk.stack) = stack)
    (hx : s.Comes stack x) (goal : EvaluationGoal) :
    (x.2.next x.1 goal).1.Carries ((x.2.next x.1 goal).2.trips ++ T) := by
  obtain ⟨hshifts, hbears⟩ := hx.next goal
  rw [Next.trips_of_linkTours (EvaluationStep.linkTours_next _ _ _)]
  refine h.walk hstack hshifts hbears ?_
  cases x.2 with
  | done => cases goal <;> exact Nat.zero_le 1
  | failed e left => cases goal <;> exact Nat.zero_le 1
  | _ => exact le_rfl

theorem Store.Carries.binds {L : List LinkTour} {stack : List ModuleId} {x : Store × Next}
    (h : s.Carries (L.map .linking ++ T)) (hstack : L.flatMap (·.stack) = stack)
    (hx : s.Binds stack x) : x.1.Carries (x.2.trips ++ T) := by
  rw [Next.trips_of_tours hx.still.tours]
  exact h.link hstack hx.calms hx.stack hx.one

theorem Store.Carries.force (h : s.Carries T) (m : ModuleId) :
    (s.forceModule m).1.Carries ((s.forceModule m).2.trips ++ T) := by
  rcases hm : s.source? m with _ | q
  · simp only [Store.forceModule, Store.force, hm]
    exact h
  rcases Store.force_cases hm with ⟨c, s', heq, ha⟩ | ⟨heq, -⟩
  · simp only [Store.forceModule, heq]
    exact h.of_calms (.of_outline ha.outline)
  · simp only [Store.forceModule, heq]
    exact Carries.comes (t := []) h rfl (EvaluationWalk.start_comes s m) _

theorem Store.Carries.evaluate (h : s.Carries []) (m : ModuleId) :
    (s.evaluate m).1.Carries ((s.evaluate m).2.trips ++ []) := by
  unfold Store.evaluate
  split
  · exact h
  · dsimp only
    split
    · exact h
    · exact Carries.comes (t := []) (h.of_calms (.newCapability s _)) rfl
        (EvaluationWalk.start_comes _ _) _

theorem Store.Carries.run (h : s.Carries []) (j : Job) :
    (j.run s).1.Carries ((j.run s).2.trips ++ []) := by
  by_cases hj : ∀ m, j.reaction ≠ .completeModule m
  · obtain ⟨ha, hq⟩ := Job.run_quiet s hj
    rw [hq.trips]
    exact h.of_calms (.of_outline ha.outline)
  simp only [ne_eq, not_forall, not_not] at hj
  obtain ⟨reaction, c⟩ := j
  obtain ⟨m, rfl⟩ := hj
  rcases c with e | ⟨⟩
  · exact h.nil_of_calms (.of_fails (Store.fails_rejectModule s m e))
  · exact h.nil_of_calms (.fulfillModule s m)

namespace Machine

/-- The walks of the machine account for whatever is under way, and what belongs at the bottom of
its frames is there. -/
structure Accounts (M : Machine) : Prop where
  carries : M.store.Carries M.trips
  grounded : M.Grounded

theorem Accounts.step_carries {M : Machine} (h : M.Accounts)
    (he : ∀ m, M.control = .run (.evaluate m) → M.frames = []) :
    M.step.store.Carries M.step.trips := by
  rcases hnext : M.next? with _ | x
  · rw [step_of_next?_eq_none hnext]
    exact h.carries
  rw [step_of_next? hnext, store_apply, trips_apply]
  obtain ⟨s, control, fs⟩ := M
  have hc := h.carries
  rcases control with t | r
  · obtain rfl : x = t.advance s := advance_of_next? hnext
    have hc : s.Carries (t.trips ++ fs.flatMap Frame.trips) := hc
    -- what belongs at the bottom of the frames has nothing below it
    have hbase : t.isBase = true → fs = [] := h.grounded.current
    cases ht : t.isWalk with
    | false =>
      obtain ⟨ha, hq, -⟩ := Task.advance_quiet s ht
      rw [Task.trips_of_quiet ht] at hc
      rw [hq.trips]
      exact hc.of_calms (.of_outline ha.outline)
    | true =>
      cases t with
      | force m => exact hc.force m
      | evaluate m =>
        obtain rfl : fs = [] := he m rfl
        exact hc.evaluate m
      | evaluation goal w =>
        have hw := hc.bears ⟨goal, .here, w⟩ List.mem_cons_self
        exact Store.Carries.comes (t := [⟨goal, .here, w⟩]) hc (List.flatMap_singleton _ _)
          (EvaluationWalk.advance_comes hw) goal
      | free ms =>
        obtain rfl := hbase rfl
        rcases ms with _ | ⟨m, rest⟩
        · exact hc
        · have hfree := Store.Calms.continueFree s m
          simp only [Task.advance]
          split <;> next heq => rw [heq] at hfree; exact hc.nil_of_calms hfree
      | job j =>
        obtain rfl := hbase rfl
        exact hc.run j
      | link m => exact Store.Carries.binds (L := []) hc rfl (Task.link_binds s m)
      | linking w =>
        exact Store.Carries.binds (L := [w.tour]) hc (List.flatMap_singleton _ _)
          (LinkWalk.advance_binds s w)
      | _ => contradiction
  · rcases fs with _ | ⟨f, fs⟩
    · contradiction
    obtain rfl : x = f.resume s r := (Option.some.inj hnext).symm
    have hc : s.Carries (f.trips ++ fs.flatMap Frame.trips) := hc
    have hbase : f.isBase = true → fs = [] := h.grounded.frames [] f fs rfl
    cases hf : f.isWalk with
    | false =>
      obtain ⟨ha, hq, -⟩ := Frame.resume_quiet s r hf
      rw [Frame.trips_of_quiet hf] at hc
      rw [hq.trips]
      exact hc.of_calms (.of_outline ha.outline)
    | true =>
      cases f with
      | executed goal m capability w =>
        have hw := hc.bears ⟨goal, .running m, w⟩ List.mem_cons_self
        exact Store.Carries.comes (t := [⟨goal, .running m, w⟩]) hc (List.flatMap_singleton _ _)
          (EvaluationWalk.executed_comes hw capability _) goal
      | passed goal w =>
        have hw := hc.bears ⟨goal, .here, w⟩ List.mem_cons_self
        exact Store.Carries.comes (t := [⟨goal, .here, w⟩]) hc (List.flatMap_singleton _ _)
          (EvaluationWalk.passed_comes hw _) goal
      | freed m capability rest =>
        obtain rfl := hbase rfl
        exact hc.nil_of_calms (.finishFree s m capability _)
      | setUp m w =>
        exact Store.Carries.binds (L := [w.tourAt m]) hc (List.flatMap_singleton _ _)
          (LinkWalk.setUp_binds s r m w)
      | _ => contradiction

end Machine

/-! ### The bottom of the frames -/

/-- A task that a frame waits for is not one that belongs at the bottom. -/
def Next.CallsAbove (n : Next) : Prop := ∀ t f, n = .call t f → t.isBase = false

theorem Next.Still.callsAbove {n : Next} (h : n.Still) : n.CallsAbove := fun _ _ hc ↦ (h.call hc).1

theorem EvaluationStep.isBase_next {s : Store} {goal : EvaluationGoal} {step : EvaluationStep}
    (h : (step.next s goal).2.isBase = true) : ∃ root p, goal = .promise root p := by
  cases goal with
  | promise root p => exact ⟨root, p, rfl⟩
  | force m => cases step <;> exact nomatch h

theorem EvaluationStep.callsAbove_next (s : Store) (goal : EvaluationGoal) (step : EvaluationStep) :
    (step.next s goal).2.CallsAbove := by
  intro t f h
  cases step with
  | done => cases goal <;> exact nomatch h
  | failed e left => cases goal <;> exact nomatch h
  | go w => exact nomatch h
  | synthetic m w =>
    cases h
    rfl
  | execute m capability w =>
    cases h
    rfl

/-- What belongs at the bottom comes from what does, or from the start of an evaluation. -/
theorem Task.isBase_advance {s : Store} {t : Task} (he : ∀ m, t ≠ .evaluate m)
    (h : (t.advance s).2.isBase = true) : t.isBase = true := by
  by_contra hnot
  have hstill : ∀ {n : Next}, n.Still → n.isBase ≠ true := fun hn ↦ by simp [hn.isBase]
  cases ht : t.isWalk with
  | false => exact hstill (Task.advance_quiet s ht).2.1.toStill h
  | true =>
    cases t with
    | force m =>
      simp only [Task.advance, Store.forceModule] at h
      split at h
      · contradiction
      · contradiction
      · obtain ⟨root, p, hgoal⟩ := EvaluationStep.isBase_next h
        contradiction
    | evaluate m => exact he m rfl
    | evaluation goal w =>
      obtain ⟨root, p, rfl⟩ := EvaluationStep.isBase_next h
      exact hnot rfl
    | link m => exact hstill (Task.link_binds s m).still h
    | linking w => exact hstill (LinkWalk.advance_binds s w).still h
    | free ms => exact hnot rfl
    | job j => exact hnot rfl
    | _ => contradiction

theorem Task.callsAbove_advance (s : Store) (t : Task) : (t.advance s).2.CallsAbove := by
  cases ht : t.isWalk with
  | false => exact (Task.advance_quiet s ht).2.1.toStill.callsAbove
  | true =>
    cases t with
    | force m =>
      simp only [Task.advance, Store.forceModule]
      split
      · exact fun _ _ h ↦ absurd h (by simp)
      · exact fun _ _ h ↦ absurd h (by simp)
      · exact EvaluationStep.callsAbove_next _ _ _
    | evaluate m =>
      simp only [Task.advance, Store.evaluate]
      split
      · rintro _ _ ⟨⟩
        rfl
      · split
        · exact fun _ _ h ↦ absurd h (by simp)
        · exact EvaluationStep.callsAbove_next _ _ _
    | evaluation goal w => exact EvaluationStep.callsAbove_next _ _ _
    | free ms =>
      rcases ms with _ | ⟨m, rest⟩
      · exact fun _ _ h ↦ by cases h
      · simp only [Task.advance]
        split
        · exact fun _ _ h ↦ absurd h (by simp)
        · rintro _ _ ⟨⟩
          rfl
    | job j =>
      obtain ⟨reaction, c⟩ := j
      cases reaction <;> rcases c with e | ⟨⟩ <;> exact fun _ _ h ↦ by cases h
    | link m => exact (Task.link_binds s m).still.callsAbove
    | linking w => exact (LinkWalk.advance_binds s w).still.callsAbove
    | _ => contradiction

theorem Frame.isBase_resume {s : Store} {r : Result} {f : Frame}
    (h : (f.resume s r).2.isBase = true) : f.isBase = true := by
  by_contra hnot
  have hstill : ∀ {n : Next}, n.Still → n.isBase ≠ true := fun hn ↦ by simp [hn.isBase]
  cases hf : f.isWalk with
  | false => exact hstill (Frame.resume_quiet s r hf).2.1.toStill h
  | true =>
    cases f with
    | executed goal m capability w =>
      obtain ⟨root, p, rfl⟩ := EvaluationStep.isBase_next h
      exact hnot rfl
    | passed goal w =>
      obtain ⟨root, p, rfl⟩ := EvaluationStep.isBase_next h
      exact hnot rfl
    | freed m capability rest => exact hnot rfl
    | setUp m w => exact hstill (LinkWalk.setUp_binds s r m w).still h
    | _ => exact nomatch hf

theorem Frame.callsAbove_resume (s : Store) (r : Result) (f : Frame) :
    (f.resume s r).2.CallsAbove := by
  cases hf : f.isWalk with
  | false => exact (Frame.resume_quiet s r hf).2.1.toStill.callsAbove
  | true =>
    cases f with
    | executed goal m capability w => exact EvaluationStep.callsAbove_next _ _ _
    | passed goal w => exact EvaluationStep.callsAbove_next _ _ _
    | freed m capability rest => exact fun _ _ h ↦ nomatch h
    | setUp m w => exact (LinkWalk.setUp_binds s r m w).still.callsAbove
    | _ => exact nomatch hf

namespace Machine

/-- What belongs at the bottom of the frames stays there. -/
theorem Accounts.step_grounded {M : Machine} (h : M.Accounts)
    (he : ∀ m, M.control = .run (.evaluate m) → M.frames = []) : M.step.Grounded := by
  rcases hnext : M.next? with _ | x
  · rw [step_of_next?_eq_none hnext]
    exact h.grounded
  rw [step_of_next? hnext]
  obtain ⟨s, control, fs⟩ := M
  rcases control with t | r
  · obtain rfl : x = t.advance s := advance_of_next? hnext
    refine .apply h.grounded.frames (fun hb ↦ ?_) (t.callsAbove_advance s)
    by_cases heval : ∃ m, t = .evaluate m
    · obtain ⟨m, rfl⟩ := heval
      exact he m rfl
    · exact h.grounded.current (Task.isBase_advance (not_exists.1 heval) hb)
  · rcases fs with _ | ⟨f, fs⟩
    · exact nomatch hnext
    obtain rfl : x = f.resume s r := (Option.some.inj hnext).symm
    refine .apply (fun above g below hfs ↦ ?_) (fun hb ↦ ?_) (f.callsAbove_resume s r)
    · exact h.grounded.frames (f :: above) g below (congrArg (f :: ·) hfs)
    · exact h.grounded.frames [] f fs rfl (Frame.isBase_resume hb)

theorem Accounts.step {M : Machine} (h : M.Accounts)
    (he : ∀ m, M.control = .run (.evaluate m) → M.frames = []) : M.step.Accounts :=
  ⟨h.step_carries he, h.step_grounded he⟩

/-- A machine that begins has no walks yet. -/
theorem accounts_start (h : s.Carries []) {t : Task} (ht : t.trips = []) :
    (Machine.start s t).Accounts := by
  have htrips : (Machine.start s t).trips = [] := by simp [trips, start, current, Next.trips, ht]
  refine ⟨?_, fun _ ↦ rfl, fun above f below h ↦ ?_⟩
  · rw [htrips]
    exact h
  · exact absurd h.symm (List.append_ne_nil_of_right_ne_nil above (List.cons_ne_nil f below))

end Machine

/-! ## Runs -/

/-- Whatever is under way is accounted for. -/
def State.Accounts : State → Prop
  | .idle s => s.Carries []
  | .busy _ M => M.Accounts

theorem Act.begin_accounts {s : Store} {a : Act} {st : State} (h : s.Carries [])
    (ha : a.begin s = some st) : st.Accounts := by
  cases a with
  | namespaceOf m phase =>
    obtain rfl := Option.some.inj ha
    exact h.of_calms (.of_outline (s.namespaceOf_apart m phase).outline)
  | settle label c =>
    obtain ⟨p, -, rfl⟩ := Option.map_eq_some_iff.1 ha
    exact h.of_calms (.of_modules (s.modules_settle p c))
  | job =>
    simp only [begin] at ha
    split at ha
    · contradiction
    · next j rest _ =>
      obtain rfl := Option.some.inj ha
      have hrest : ({ s with jobs := rest } : Store).Carries [] := h.of_calms (.of_modules rfl)
      exact Machine.accounts_start hrest rfl
  | _ =>
    obtain rfl := Option.some.inj ha
    exact Machine.accounts_start h rfl

theorem Run.accounts {P : Machine → Machine → Prop} {s₀ : Store} {st : State} {H : List Event}
    (hs : s₀.Carries []) (h : Run P s₀ st H) : st.Accounts := by
  induction h with
  | start => exact hs
  | call a _ ha ih => exact Act.begin_accounts ih ha
  | step _ he _ ih => exact Machine.Accounts.step ih he
  | consult _ _ hs ih =>
    exact ⟨ih.carries.of_calms (.of_outline hs.aside.outline), ih.grounded.current,
      ih.grounded.frames⟩
  | @answer a M H q as _ hq ih =>
    have hc := Machine.control_of_question? hq
    obtain ⟨s, control, fs⟩ := M
    obtain rfl : control = _ := hc
    exact ⟨ih.carries, nofun, ih.grounded.frames⟩
  | @finish a M H r _ hr ih =>
    obtain ⟨hc, hf⟩ := Machine.end_of_result? hr
    obtain ⟨s, control, fs⟩ := M
    obtain rfl : control = _ := hc
    obtain rfl : fs = _ := hf
    exact ih.carries

namespace EvaluationWalk

variable {w : EvaluationWalk} {m : ModuleId}

theorem back_ne_done : (back s w m).2 ≠ .done := by
  unfold back
  split
  · exact nofun
  · split <;> exact nofun

theorem concludeExecuted_ne_done : (concludeExecuted s w m).2 ≠ .done := by
  unfold concludeExecuted
  split <;> exact back_ne_done

/-- A walk ends when there is nothing left on its path. -/
theorem frames_of_done (h : (w.advance s).2 = .done) : w.frames = [] := by
  unfold advance at h
  split at h
  · next hf => exact hf
  · unfold execute at h
    split at h
    · exact nomatch h
    · split at h
      · exact absurd h concludeExecuted_ne_done
      · split at h <;> exact nomatch h
  · rw [concludeSearched_eq] at h
    split at h <;> exact absurd h back_ne_done
  · dsimp only at h
    split at h
    · unfold arrive at h
      split at h
      · exact nomatch h
      · split at h
        · exact nomatch h
        · exact absurd h back_ne_done
        · exact nomatch h
    · exact nomatch h

end EvaluationWalk

theorem Store.Fresh.carries {s : Store} (h : s.Fresh) : s.Carries [] := by
  refine Store.Carries.nil_iff.2 ?_
  rintro x ⟨r, hr, hw⟩
  rcases (h.source x r hr).1 with hs | hs | hs <;> rw [hs] at hw <;> exact nomatch hw

/-- A module that is being executed or searched is on the stack of a walk that has not come to its
end. So between two calls there is none. And a walk that comes to its end has an empty stack. -/
theorem no_module_left_underway {s₀ : Store} {st : State} {H : List Event} (hs : s₀.Fresh)
    (h : Run (fun _ _ ↦ True) s₀ st H) :
    (∀ s, st = .idle s → ∀ m, s.status? m ≠ some .evaluating ∧
      s.status? m ≠ some .asyncSubgraphsSearching) ∧
    ∀ a M, st = .busy a M →
      (∀ m, M.store.status? m = some .evaluating ∨
          M.store.status? m = some .asyncSubgraphsSearching →
        ∃ τ ∈ M.tours, m ∈ τ.walk.stack) ∧
      ∀ goal w, M.control = .run (.evaluation goal w) → (w.advance M.store).2 = .done →
        w.stack = [] := by
  have haccounts := h.accounts hs.carries
  have hunderway : ∀ {s : Store} {m status}, s.status? m = some status →
      status.isWalked = true → s.Underway m := fun hm hw ↦ by
    obtain ⟨r, hr, rfl⟩ := Store.source?_of_status? hm
    exact ⟨r, hr, hw⟩
  refine ⟨?_, ?_⟩
  · rintro s rfl m
    have hnot := Store.Carries.nil_iff.1 haccounts m
    exact ⟨fun hm ↦ hnot (hunderway hm rfl), fun hm ↦ hnot (hunderway hm rfl)⟩
  · rintro a M rfl
    refine ⟨fun m hm ↦ ?_, fun goal w hM hdone ↦ ?_⟩
    · have hm : M.store.Underway m := hm.elim (hunderway · rfl) (hunderway · rfl)
      obtain ⟨τ, hτ, hmem⟩ := haccounts.carries.underway m hm
      exact ⟨τ, Machine.evaluating_mem_trips.1 hτ, hmem⟩
    · have hτ : ⟨goal, .here, w⟩ ∈ M.tours := by
        simp [Machine.tours, Machine.current, hM, Next.tours, Task.tours]
      have hbears := haccounts.carries.bears _ (Machine.evaluating_mem_trips.2 hτ)
      exact hbears.stack_eq_nil (by simp [Tour.path, Stance.top, EvaluationWalk.frames_of_done hdone])

/-! ### A graph with a walk inside of another one -/

/-- A body reads from a module that imports it and defers a further one, which imports it as well. -/
def nestedGraph : Store where
  modules := #[.scripted false [] [.exposeModule "dep" .defer, .readExposed "x"],
    .scripted false [("main", .evaluation, 0), ("leaf", .defer, 2)] [],
    .scripted false [("main", .evaluation, 0)] []]
  stage := { modules := [("dep", ⟨1⟩)] }

/-- The call that evaluates the graph, when the further module is being searched. -/
def nestedSearching : Machine × List Event :=
  ((Machine.start nestedGraph (.evaluate ⟨0⟩)).playSteps (fun _ _ ↦ true) 8 []).get
    (by decide +kernel)

theorem no_module_left_underway_nestedGraph :
    nestedGraph.Fresh ∧
      (∃ M H, Run (fun _ _ ↦ True) nestedGraph (.busy (.evaluate ⟨0⟩) M) H ∧
        M.store.status? ⟨0⟩ = some .evaluating ∧
        M.store.status? ⟨2⟩ = some .asyncSubgraphsSearching ∧
        (∃ τ ∈ M.tours, ⟨0⟩ ∈ τ.walk.stack) ∧ ∃ τ ∈ M.tours, ⟨2⟩ ∈ τ.walk.stack) ∧
      ∃ s H, Run (fun _ _ ↦ True) nestedGraph (.idle s) H ∧ s.status? ⟨1⟩ = some .evaluated ∧
        ∀ m, s.status? m ≠ some .evaluating ∧ s.status? m ≠ some .asyncSubgraphsSearching := by
  have hfresh : nestedGraph.Fresh := Store.fresh_of_scripted (l := [
    (false, [], [.exposeModule "dep" .defer, .readExposed "x"]),
    (false, [("main", .evaluation, 0), ("leaf", .defer, 2)], []),
    (false, [("main", .evaluation, 0)], [])]) rfl rfl rfl
  have hstart : Run (fun _ _ ↦ True) nestedGraph
      (.busy (.evaluate ⟨0⟩) (Machine.start nestedGraph (.evaluate ⟨0⟩))) [] :=
    .call (.evaluate ⟨0⟩) .start rfl
  have hsearching : Onward (fun _ _ ↦ True) (.busy (.evaluate ⟨0⟩)
      (Machine.start nestedGraph (.evaluate ⟨0⟩)), [])
      (.busy (.evaluate ⟨0⟩) nestedSearching.1, nestedSearching.2) :=
    Onward.ofPlaySteps (fun _ _ ↦ true) _ 8 (_, []) (fun _ _ _ ↦ trivial) _
  have hbusy := hstart.onward hsearching
  have h0 : nestedSearching.1.store.status? ⟨0⟩ = some .evaluating := by decide +kernel
  have h2 : nestedSearching.1.store.status? ⟨2⟩ = some .asyncSubgraphsSearching := by
    decide +kernel
  have hidle := Run.ofPlay (fun _ _ ↦ true) nestedGraph 100 [.evaluate ⟨0⟩]
    (fun _ _ _ ↦ trivial) (by decide +kernel)
  obtain ⟨hon, -⟩ := (no_module_left_underway hfresh hbusy).2 _ _ rfl
  exact ⟨hfresh, ⟨_, _, hbusy, h0, h2, hon ⟨0⟩ (.inl h0), hon ⟨2⟩ (.inr h2)⟩, _, _, hidle,
    by decide +kernel, (no_module_left_underway hfresh hidle).1 _ rfl⟩

end EcmaModules
