import EcmaModules.Proofs.Spreading

/-!
# Roots wait for their components

The modules of a component wait for different things, and are over at different times. Whoever wants
to wait for one of them waits for the root of the component instead. That is right only if the root
is over last: as long as a module of the component waits, the root waits as well, and it does so
because of that module. This is what is shown here.

When a walk is through with a module that has to wait, the one below it on the path comes to wait for
it, and so has to wait itself. So on the stack of a walk, every module that waits and is not on the
path any more holds up the next one below that is. When the root of a component is taken off the
stack, there is nothing but the root that the modules above it can hold up.

It takes runs in which no walk that fails leaves anybody behind who waits for it. A module that was
left behind does not fail with what it waits for.
-/

namespace EcmaModules

open EvaluationWalk (await leadsBack detach push)

/-! ## Holding up -/

namespace Store

/-- The second module waits for the first, or for one that waits for it, and so on; or they are the
same. -/
abbrev HoldsUp (s : Store) : ModuleId → ModuleId → Prop :=
  Relation.ReflTransGen fun z y ↦ y ∈ s.parents z

/-- The module has to wait. -/
def Pends (s : Store) (m : ModuleId) : Prop := ∃ r, s.source? m = some r ∧ r.asyncState = .pending

/-- The module is over with an error, or waits. -/
def Stuck (s : Store) (m : ModuleId) : Prop :=
  ∃ r, s.source? m = some r ∧ (r.hasFailed ∨ r.status.isWaiting = true)

theorem HoldsUp.mono {s s' : Store} {m x : ModuleId} (h : s.HoldsUp m x)
    (hs : ∀ z, s.parents z ⊆ s'.parents z) : s'.HoldsUp m x :=
  Relation.ReflTransGen.mono (fun z _ hy ↦ hs z hy) _ _ h

end Store

namespace Bonds

variable {s s' : Store} {F X G : List ModuleId} {H : List Event} {m x : ModuleId}

/-- Whoever is held up by a module that waits, waits or has failed. -/
theorem stuck (h : Bonds s F X G H) (hm : s.Stuck m) (hx : s.HoldsUp m x) : s.Stuck x := by
  induction hx with
  | refl => exact hm
  | @tail y z _ hz ih =>
    obtain ⟨q, hq, hstuck⟩ := ih
    have hmem : z ∈ q.asyncParents := by simpa [Store.parents, hq] using hz
    rcases hstuck with hf | hw
    · obtain ⟨p, hp, hpf⟩ := h.shared y q hq hf z hmem
      exact ⟨p, hp, .inl hpf⟩
    · obtain ⟨p, hp, hstand⟩ := h.stands y q hq hw z hmem
      exact ⟨p, hp, hstand.imp id (·.1)⟩

/-- Whoever is held up by a module that has failed, has failed. -/
theorem failed (h : Bonds s F X G H) (hm : s.Failed m) (hx : s.HoldsUp m x) : s.Failed x := by
  induction hx with
  | refl => exact hm
  | @tail y z _ hz ih =>
    obtain ⟨q, hq, hf⟩ := ih
    exact h.shared y q hq hf z (by simpa [Store.parents, hq] using hz)

/-- A module that waits holds up the same modules as before, as long as those that are stuck are
waited for as before. -/
theorem holdsUp (h : Bonds s F X G H) (hs : ∀ z, s.Stuck z → s.parents z ⊆ s'.parents z)
    (hm : s.Stuck m) (hx : s.HoldsUp m x) : s'.HoldsUp m x := by
  induction hx with
  | refl => exact .refl
  | tail hy hz ih => exact ih.tail (hs _ (h.stuck hm hy) hz)

end Bonds

/-! ## Path and stack -/

/-- A path and a stack on which every module that waits and is not on the path holds up the next one
below that is. -/
inductive Tiers (s : Store) : List ModuleId → List ModuleId → Prop where
  | nil : Tiers s [] []
  | on {m : ModuleId} {path stack : List ModuleId} :
      Tiers s path stack → Tiers s (m :: path) (m :: stack)
  | off {m : ModuleId} {path stack : List ModuleId} :
      Tiers s path stack → (s.Pends m → ∀ z ∈ path.head?, s.HoldsUp m z) →
      Tiers s path (m :: stack)

namespace Tiers

variable {s s' : Store} {m : ModuleId} {path stack above below : List ModuleId}

theorem sublist (h : Tiers s path stack) : path.Sublist stack := by
  induction h with
  | nil => exact .slnil
  | on _ ih => exact ih.cons_cons _
  | off _ _ ih => exact ih.cons _

/-- Whatever waits off the path did so before, and holds up what it did. -/
theorem mono (h : Tiers s path stack) (hstack : stack.Nodup)
    (hs : ∀ y ∈ stack, y ∉ path → s'.Pends y →
      s.Pends y ∧ ∀ z, s.HoldsUp y z → s'.HoldsUp y z) : Tiers s' path stack := by
  induction h with
  | nil => exact .nil
  | on _ ih =>
    obtain ⟨hm, hstack⟩ := List.nodup_cons.1 hstack
    refine .on (ih hstack fun y hy hpath ↦ hs y (List.mem_cons_of_mem _ hy) fun hmem ↦ ?_)
    rcases List.mem_cons.1 hmem with rfl | hmem
    · exact hm hy
    · exact hpath hmem
  | off hsub hold ih =>
    obtain ⟨hm, hstack⟩ := List.nodup_cons.1 hstack
    refine .off (ih hstack fun y hy ↦ hs y (List.mem_cons_of_mem _ hy)) fun hp z hz ↦ ?_
    obtain ⟨hp', hkeep⟩ := hs _ List.mem_cons_self (fun hmem ↦ hm (hsub.sublist.subset hmem)) hp
    exact hkeep z (hold hp' z hz)

/-- The walk goes on from a module that stays on its stack. The module holds up the one below it on
the path, if it waits or anybody above it holds it up. -/
theorem leave (h : Tiers s (m :: path) stack) (hm : ∀ z ∈ path.head?,
      (s.Pends m ∨ ∃ y, s.Pends y ∧ y ≠ m ∧ s.HoldsUp y m) → s.HoldsUp m z) :
    Tiers s path stack := by
  generalize hpath : m :: path = path' at h
  induction h with
  | nil => exact nomatch hpath
  | on hsub _ =>
    obtain ⟨rfl, rfl⟩ := List.cons.inj hpath
    exact .off hsub fun hp z hz ↦ hm z hz (.inl hp)
  | @off y path' stack hsub hold ih =>
    subst hpath
    refine .off (ih rfl) fun hp z hz ↦ ?_
    have hy := hold hp m (by simp)
    by_cases hym : y = m
    · exact hym ▸ hm z hz (.inl (hym ▸ hp))
    · exact hy.trans (hm z hz (.inr ⟨y, hp, hym, hy⟩))

/-- What lies above the module on top of the path holds up that module. -/
theorem pop (h : Tiers s (m :: path) (above ++ m :: below)) (hm : m ∉ above) (hm' : m ∉ below) :
    (∀ y ∈ above, s.Pends y → s.HoldsUp y m) ∧ Tiers s path below := by
  induction above with
  | nil =>
    refine ⟨nofun, ?_⟩
    cases h with
    | on h => exact h
    | off h _ => exact absurd (h.sublist.subset List.mem_cons_self) hm'
  | cons y above ih =>
    rw [List.mem_cons, not_or] at hm
    cases h with
    | on h => exact absurd rfl hm.1
    | off h hold =>
      obtain ⟨habove, hbelow⟩ := ih h hm.2
      exact ⟨List.forall_mem_cons.2 ⟨fun hp ↦ hold hp m (by simp), habove⟩, hbelow⟩

end Tiers

/-! ## What moves leave -/

/-- Whoever waited for the module still does, and if it is parked, it was, in the same component. -/
structure SourceText.Retains (r r' : SourceText) : Prop where
  parents : r.asyncParents ⊆ r'.asyncParents
  parked : r'.status.isParked = true → r.status.isParked = true ∧ r'.cycleRoot = r.cycleRoot

/-- Moreover, it has to wait only if it had to. -/
structure SourceText.Eases (r r' : SourceText) : Prop extends r.Retains r' where
  pending : r'.asyncState = .pending → r.asyncState = .pending

namespace SourceText.Eases

variable {r r' r'' : SourceText}

theorem refl (r : SourceText) : r.Eases r := ⟨⟨List.Subset.refl _, fun h ↦ ⟨h, rfl⟩⟩, id⟩

theorem trans (h : r.Eases r') (h' : r'.Eases r'') : r.Eases r'' := by
  refine ⟨⟨List.Subset.trans h.parents h'.parents, fun hp ↦ ?_⟩, fun hp ↦ h.pending (h'.pending hp)⟩
  obtain ⟨hp', hroot⟩ := h'.parked hp
  obtain ⟨hp'', hroot'⟩ := h.parked hp'
  exact ⟨hp'', hroot.trans hroot'⟩

theorem of_outline (h : r'.outline = r.outline) : r.Eases r' := by
  have hstatus : r'.status.outline = r.status.outline := congrArg (·.status) h
  have hparents : r'.asyncParents = r.asyncParents := congrArg (·.asyncParents) h
  have hasync : r'.asyncState = r.asyncState := congrArg (·.asyncState) h
  refine ⟨⟨hparents ▸ List.Subset.refl _, fun hp ↦ ⟨?_, (congrArg (·.cycleRoot) h :)⟩⟩, hasync ▸ id⟩
  rw [← Status.isParked_outline, ← hstatus, Status.isParked_outline, hp]

/-- The module is not parked now. -/
theorem of_not_parked (hparents : r.asyncParents ⊆ r'.asyncParents)
    (hp : r'.status.isParked = false) (hasync : r'.asyncState = .pending → r.asyncState = .pending) :
    r.Eases r' :=
  ⟨⟨hparents, fun h ↦ absurd (hp.symm.trans h) Bool.false_ne_true⟩, hasync⟩

end SourceText.Eases

namespace Store

variable {s s' s'' : Store} {m : ModuleId}

/-- Every module that waits did so before. -/
def Eases : Store → Store → Prop := Each SourceText.Eases

namespace Eases

theorem refl (s : Store) : s.Eases s := Each.refl .refl s

theorem trans (h : s.Eases s') (h' : s'.Eases s'') : s.Eases s'' :=
  Each.trans (fun _ _ _ ↦ .trans) h h'

theorem of_modules (h : s'.modules = s.modules) : s.Eases s' := Each.of_modules .refl h

theorem modifySource (s : Store) (m : ModuleId) {f : SourceText → SourceText}
    (hf : ∀ r, s.source? m = some r → r.Eases (f r)) : s.Eases (s.modifySource m f) :=
  Each.modifySource .refl s m hf

theorem newCapability (s : Store) (m : ModuleId) : s.Eases (s.newCapability m).2 := by
  have hpromise : s.Eases s.newPromise.2 := of_modules rfl
  exact hpromise.trans (modifySource _ m fun r _ ↦ ⟨⟨List.Subset.refl _, fun h ↦ ⟨h, rfl⟩⟩, id⟩)

theorem detach (s : Store) (w : EvaluationWalk) (m : ModuleId) :
    s.Eases (EvaluationWalk.detach s w m) := by
  unfold EvaluationWalk.detach
  split
  · next h =>
    have hs : s.status? m = some .evaluated := (by simpa using h : _ ∧ _).1
    refine modifySource s m fun r hr ↦ .of_not_parked (List.Subset.refl _) ?_ id
    rw [status?, hr] at hs
    rw [show r.status = .evaluated from Option.some.inj hs]
    rfl
  · exact refl s

theorem lowerAncestor (s : Store) (m : ModuleId) (i : Nat) : s.Eases (s.lowerAncestor m i) :=
  modifySource s m fun _ _ ↦ ⟨⟨List.Subset.refl _, fun h ↦ ⟨h, rfl⟩⟩, id⟩

theorem await (s : Store) (m d : ModuleId) : s.Eases (EvaluationWalk.await s m d) := by
  rcases EvaluationWalk.await_cases s m d with h | ⟨_, _, _, _, _, _, h⟩
  · rw [h]
    exact refl s
  · rw [h]
    refine (modifySource s m fun _ _ ↦ ?_).trans (modifySource _ d fun _ _ ↦ ?_)
    · exact ⟨⟨List.Subset.refl _, fun h ↦ ⟨h, rfl⟩⟩, id⟩
    · exact ⟨⟨List.subset_append_left _ _, fun h ↦ ⟨h, rfl⟩⟩, id⟩

theorem lessen (s : Store) (m : ModuleId) : s.Eases (s.lessen m) :=
  modifySource s m fun _ _ ↦ ⟨⟨List.Subset.refl _, fun h ↦ ⟨h, rfl⟩⟩, id⟩

theorem finish (s : Store) (goal : EvaluationGoal) : s.Eases (goal.finish s).1 :=
  (Each.of_outline (outline_finish s goal)).mono fun _ _ ↦ .of_outline

theorem failModules (s : Store) (stack : List ModuleId) (e : ErrorId) :
    s.Eases (s.failModules stack e) := by
  refine Each.foldl .refl (fun _ _ _ ↦ .trans) (fun s m ↦ modifySource s m fun r _ ↦ ?_) stack s
  refine .of_not_parked (List.Subset.refl _) rfl fun h ↦ ?_
  dsimp only at h
  split at h
  · exact nomatch h
  · exact h

theorem fail (s : Store) (stack : List ModuleId) (e : ErrorId) (goal : EvaluationGoal) :
    s.Eases (goal.fail s stack e).1 :=
  (failModules s stack e).trans
    ((Each.of_outline (outline_fail s stack e goal)).mono fun _ _ ↦ .of_outline)

theorem finishModule (s : Store) (m : ModuleId) : s.Eases (s.finishModule m) := by
  have hover : s.Eases ((s.settleAsync m).setStatus m .evaluated) := by
    rw [Store.setStatus, Store.settleAsync, Store.modifySource_modifySource]
    exact modifySource s m fun _ _ ↦ .of_not_parked (List.Subset.refl _) rfl (by simp)
  exact hover.trans (of_modules (Store.modules_resolveCapability _ _))

theorem finishSearched (s : Store) (m : ModuleId) : s.Eases (s.finishSearched m) := by
  have hover : s.Eases ((s.setStatus m .asyncSubgraphsEvaluated).settleAsync m) := by
    rw [Store.setStatus, Store.settleAsync, Store.modifySource_modifySource]
    exact modifySource s m fun _ _ ↦ .of_not_parked (List.Subset.refl _) rfl (by simp)
  exact hover.trans (of_modules (Store.modules_resolveCapability _ _))

theorem rejectModule (s : Store) (m : ModuleId) (e : ErrorId) : s.Eases (s.rejectModule m e) :=
  fun x ↦ by
    rcases (spreads_rejectModule s m e).fails x with hx | ⟨r, hr, -, hx⟩
    · rw [hx]
      exact refl s x
    · rw [hr, hx]
      exact .some (.of_not_parked (List.Subset.refl _) rfl nofun)

end Eases

theorem parents_of_each {R : SourceText → SourceText → Prop}
    (hR : ∀ r r', R r r' → r.asyncParents ⊆ r'.asyncParents) (h : s.Each R s') (x : ModuleId) :
    s.parents x ⊆ s'.parents x := by
  unfold parents
  rcases hx : s.source? x with _ | r
  · exact List.nil_subset _
  · obtain ⟨r', hr', hrel⟩ := h.after hx
    rw [hr']
    exact hR _ _ hrel

theorem Eases.pends (h : s.Eases s') {x : ModuleId} (hx : s'.Pends x) : s.Pends x := by
  obtain ⟨r', hr', hp⟩ := hx
  obtain ⟨r, hr, heases⟩ := h.before hr'
  exact ⟨r, hr, heases.pending hp⟩

end Store

/-! ## Scenes -/

/-- What modules hold up, parked or on the stacks of walks. -/
structure Held (s : Store) (T : List Tour) : Prop where
  roots : ∀ m r, s.source? m = some r → r.status.isParked = true → s.HoldsUp m (s.cycleRoot m)
  tiers : ∀ τ ∈ T, Tiers s τ.path τ.walk.stack

/-- A module is on the stack of one walk only. -/
theorem Sound.tour_unique {o : Outline} {T : List Tour} {F X G : List ModuleId} {H : List Event}
    (h : Sound o T F X G H) {τ τ' : Tour} {x : ModuleId} (hτ : τ ∈ T) (hτ' : τ' ∈ T)
    (hx : x ∈ τ.walk.stack) (hx' : x ∈ τ'.walk.stack) : τ = τ' := by
  by_contra hne
  have hdisjoint := (List.nodup_flatMap.1 h.stacked).2
  have hsymm : Std.Symm (Function.onFun List.Disjoint fun τ : Tour ↦ τ.walk.stack) :=
    ⟨fun _ _ h ↦ h.symm⟩
  exact hdisjoint.forall hτ hτ' hne hx hx'

/-! ### Coming to wait -/

section

variable {s : Store} {goal : EvaluationGoal} {w : EvaluationWalk} {T : List Tour}
  {F X G : List ModuleId} {H : List Event} {d : ModuleId} {f : EvaluationFrame}

/-- The module on top of the path comes to wait for one that has to wait. -/
theorem Sound.mem_parents_await {τ : Tour} (hs : Sound s.outline T F X G H) (hτ : τ ∈ T)
    (hf : f ∈ τ.walk.frames) (hd : s.Pends d) :
    f.module ∈ (EvaluationWalk.await s f.module d).parents d := by
  obtain ⟨q, hq, hp⟩ := hd
  obtain ⟨o, ho⟩ := Option.isSome_iff_exists.1
    (hs.known τ hτ _ (hs.mem_stack_of_mem_frames hτ hf))
  obtain ⟨r, hr, rfl⟩ := Store.source?_of_outline ho
  obtain ⟨hstatus, hasync, -⟩ := (hs.lawful _ _ ho).framed f.traversal ⟨τ, hτ, f, hf, rfl, rfl⟩
  have hopen : r.status ≠ .evaluated ∧ r.status ≠ .asyncSubgraphsEvaluated := by
    constructor <;> intro hover <;> rw [SourceText.outline_status, hover] at hstatus <;>
      cases ht : f.traversal <;> rw [ht] at hstatus <;> exact nomatch hstatus
  have hne : d ≠ f.module := by
    rintro rfl
    obtain rfl := Option.some.inj (hr.symm.trans hq)
    exact hasync hp
  unfold EvaluationWalk.await
  rw [hr, hq]
  dsimp only
  by_cases hmem : f.module ∈ q.asyncParents
  · rw [if_neg (by simp [hmem])]
    simpa [Store.parents, hq] using hmem
  · rw [if_pos (by simp [hp, hopen, hmem])]
    simp [Store.parents, Store.source?_modifySource, hne, hq]

/-- A module that a walk is through with has to wait if it waits for one that does. -/
theorem Bonds.pends (h : Bonds s F X G H)
    (hs : Sound s.outline (⟨goal, .through d, w⟩ :: T) F X G H)
    (hcalled : ∀ m c e, .ended m c e ∈ H → .began m c ∈ H) (hclear : ∀ y ∈ F, y ∉ w.stack)
    {z : ModuleId} {p : SourceText} (hz : s.source? z = some p) (hw : p.status.isWaiting = true)
    (hmem : d ∈ p.asyncParents) : s.Pends d := by
  have htop : (⟨goal, .through d, w⟩ : Tour) ∈ (⟨goal, .through d, w⟩ :: T : List Tour) :=
    List.mem_cons_self
  have hd : d ∈ w.stack := (hs.path _ htop).subset List.mem_cons_self
  obtain ⟨q, hq, hstand⟩ := h.stands z p hz hw d hmem
  have L := hs.lawful d _ (Store.outline_eq_some hq)
  have hwalked : q.status.isWalked = true := by
    rw [← Status.isWalked_outline]
    exact L.stacked.1 ⟨_, htop, hd⟩
  have hwait := hstand.resolve_left fun hf ↦ by
    rw [hf.1] at hwalked
    exact nomatch hwalked
  have hahead : ¬(spot (⟨goal, .through d, w⟩ :: T) F X H d).ahead :=
    hs.not_ahead_of_through (f := w.frames) rfl nofun rfl
  refine ⟨q, hq, ?_⟩
  by_contra hnot
  have hcases : q.status = .evaluating ∨ q.status = .asyncSubgraphsSearching := by
    cases hst : q.status <;> simp [hst, Status.isWalked] at hwalked ⊢
  rcases hcases with hst | hst
  · -- its body has come back, so it was called
    obtain ⟨-, c, hended⟩ := (L.passed hahead (by simp [hst])).resolve_left hnot
    exact hwait.2 (Sound.mem_begun.2 ⟨c, hcalled d c _ hended⟩)
  · have h0 : q.pendingAsync = 0 := (L.searched hahead (by simp [hst])).resolve_left hnot
    exact h.untied_of_not_mem hs hq hwait.1 h0 (fun hF ↦ hclear d hF hd) hwait.2 hz hw hmem

end

namespace Held

variable {s s' : Store} {T T' : List Tour} {F X G : List ModuleId} {H : List Event}

/-- Whatever is parked was so before, and holds up what it did. -/
theorem roots_keep (h : Held s T) (hretains : s.Each SourceText.Retains s') (m : ModuleId)
    (r' : SourceText) (hr' : s'.source? m = some r') (hp : r'.status.isParked = true) :
    s'.HoldsUp m (s'.cycleRoot m) := by
  obtain ⟨r, hr, hret⟩ := hretains.before hr'
  obtain ⟨hp', hroot⟩ := hret.parked hp
  have heq : s'.cycleRoot m = s.cycleRoot m := by simp [Store.cycleRoot, hr, hr', hroot]
  exact heq ▸ (h.roots m r hr hp').mono (Store.parents_of_each (fun _ _ hr ↦ hr.parents) hretains)

/-- No walk is left. -/
theorem idle (h : Held s T) (hretains : s.Each SourceText.Retains s') : Held s' [] :=
  ⟨h.roots_keep hretains, nofun⟩

/-- Walks go on with the same path and stack. Whatever comes to wait is on a path. -/
theorem keep (h : Held s T) (hs : Sound s.outline T F X G H)
    (hretains : s.Each SourceText.Retains s')
    (hT : ∀ τ' ∈ T', ∃ τ ∈ T, τ'.path = τ.path ∧ τ'.walk.stack = τ.walk.stack)
    (hpends : ∀ y, s'.Pends y → s.Pends y ∨ ∃ τ ∈ T, y ∈ τ.path) : Held s' T' := by
  refine ⟨h.roots_keep hretains, fun τ' hτ' ↦ ?_⟩
  obtain ⟨τ, hτ, hpath, hstack⟩ := hT τ' hτ'
  rw [hpath, hstack]
  have hnodup : τ.walk.stack.Nodup := (List.nodup_flatMap.1 hs.stacked).1 τ hτ
  have hparents := Store.parents_of_each (fun _ _ hr ↦ hr.parents) hretains
  refine (h.tiers τ hτ).mono hnodup fun y hy hnot hp ↦ ⟨?_, fun z hz ↦ hz.mono hparents⟩
  refine (hpends y hp).resolve_right ?_
  rintro ⟨τ₀, hτ₀, hmem⟩
  obtain rfl := hs.tour_unique hτ hτ₀ hy ((hs.path τ₀ hτ₀).subset hmem)
  exact hnot hmem

/-- Nobody comes to wait. -/
theorem ease (h : Held s T) (hs : Sound s.outline T F X G H) (heases : s.Eases s')
    (hT : ∀ τ' ∈ T', ∃ τ ∈ T, τ'.path = τ.path ∧ τ'.walk.stack = τ.walk.stack) : Held s' T' :=
  h.keep hs (heases.mono fun _ _ hr ↦ hr.toRetains) hT fun _ hp ↦ .inl (heases.pends hp)

/-- A module on a path comes to wait. -/
theorem hold {m : ModuleId} {f : SourceText → SourceText} (h : Held s T)
    (hs : Sound s.outline T F X G H) (hf : ∀ r : SourceText, r.Retains (f r)) (hm : ∃ τ ∈ T, m ∈ τ.path)
    (hT : ∀ τ' ∈ T', ∃ τ ∈ T, τ'.path = τ.path ∧ τ'.walk.stack = τ.walk.stack)
    (hs' : s'.modules = (s.modifySource m f).modules) : Held s' T' := by
  have hsource := Store.source?_congr hs'
  refine h.keep hs (fun x ↦ ?_) hT fun y hy ↦ ?_
  · rw [hsource]
    exact Store.Each.modifySource (fun r ↦ (SourceText.Eases.refl r).toRetains) s m
      (fun r _ ↦ hf r) x
  · obtain ⟨r, hr, hp⟩ := hy
    rw [hsource, Store.source?_modifySource] at hr
    split at hr
    · next hym => exact .inr (hym ▸ hm)
    · exact .inl ⟨r, hr, hp⟩

/-- A walk enters a module. If nobody waits for the module any more, it is not stuck. -/
theorem enter {goal : EvaluationGoal} {w : EvaluationWalk} {d : ModuleId} {t t' : Traversal}
    {r : SourceText} (h : Held s (⟨goal, .coming d t, w⟩ :: T))
    (hs : Sound s.outline (⟨goal, .coming d t, w⟩ :: T) F X G H) (hbonds : Bonds s F X G H)
    (hd : s.source? d = some r) (ha : r.arrival t = .enter t')
    (hnot : r.status ≠ .asyncSubgraphsSearching) :
    Held ((push s w d t').1) (⟨goal, .here, (push s w d t').2⟩ :: T) := by
  have hsource : ∀ x, (push s w d t').1.source? x =
      if x = d then (s.source? x).map fun r ↦ r.entered t' w.index else s.source? x :=
    fun x ↦ Store.source?_modifySource s d _ x
  have hne : ∀ {x}, x ≠ d → (push s w d t').1.source? x = s.source? x := fun hx ↦ by
    rw [hsource, if_neg hx]
  have hself : (push s w d t').1.source? d = some (r.entered t' w.index) := by
    rw [hsource, if_pos rfl, hd]
    rfl
  obtain ⟨-, hstatus⟩ := SourceText.arrival_eq_enter ha
  -- what is stuck keeps those that wait for it
  have hparents : ∀ z, s.Stuck z → s.parents z ⊆ (push s w d t').1.parents z := by
    rintro z ⟨q, hq, hstuck⟩
    by_cases hz : z = d
    · subst hz
      obtain rfl := Option.some.inj (hd.symm.trans hq)
      have hkeeps : (r.entered t' w.index).asyncParents = r.asyncParents := by
        have hover := SourceText.arrival_not_evaluated ha
        have hwait := hstuck.resolve_left fun hf ↦ hover hf.1
        cases hr : r.status <;>
          simp [hr, Status.outline, Status.isWaiting, SourceText.entered] at hstatus hnot hwait ⊢
      simp [Store.parents, hd, hself, hkeeps]
    · simp [Store.parents, hne hz]
  have hwalked : (r.entered t' w.index).status.isParked = false := by cases t' <;> rfl
  have holds : ∀ {y z}, s.Stuck y → s.HoldsUp y z → (push s w d t').1.HoldsUp y z :=
    fun hy hz ↦ hbonds.holdsUp hparents hy hz
  refine ⟨fun m q hq hp ↦ ?_, List.forall_mem_cons.2 ⟨.on ?_, fun τ hτ ↦ ?_⟩⟩
  · have hm : m ≠ d := by
      rintro rfl
      obtain rfl := Option.some.inj (hself.symm.trans hq)
      exact absurd (hwalked.symm.trans hp) Bool.false_ne_true
    have hq : s.source? m = some q := (hne hm).symm.trans hq
    have heq : (push s w d t').1.cycleRoot m = s.cycleRoot m := by
      simp only [Store.cycleRoot, hne hm]
    exact heq ▸ holds ⟨q, hq, .inr (Status.isWaiting_of_isParked hp)⟩ (h.roots m q hq hp)
  all_goals
    have hoff : ∀ τ ∈ (⟨goal, .coming d t, w⟩ :: T : List Tour), d ∉ τ.walk.stack :=
      fun τ hτ hmem ↦ by
        have := (hs.lawful d _ (Store.outline_eq_some hd)).stacked.1 ⟨τ, hτ, hmem⟩
        cases hr : r.status <;> simp [hr, Status.outline, Status.isWalked] at hstatus hnot this
    have hkeep : ∀ τ ∈ (⟨goal, .coming d t, w⟩ :: T : List Tour),
        Tiers (push s w d t').1 τ.path τ.walk.stack := fun τ hτ ↦ by
      refine (h.tiers τ hτ).mono ((List.nodup_flatMap.1 hs.stacked).1 τ hτ) ?_
      rintro y hy - ⟨q, hq, hp⟩
      have hyd : y ≠ d := fun hyd ↦ hoff τ hτ (hyd ▸ hy)
      have hq : s.source? y = some q := (hne hyd).symm.trans hq
      have hwait := (hs.lawful y _ (Store.outline_eq_some hq)).pending hp
      rw [SourceText.outline_status, Status.isWaiting_outline] at hwait
      exact ⟨⟨q, hq, hp⟩, fun z hz ↦ holds ⟨q, hq, .inr hwait⟩ hz⟩
  · exact hkeep _ List.mem_cons_self
  · exact hkeep τ (List.mem_cons_of_mem _ hτ)

/-- A walk goes on from a module that stays on its stack, and the one below it on the path comes to
wait for it. -/
theorem leave {goal : EvaluationGoal} {w : EvaluationWalk} {d : ModuleId} {f : EvaluationFrame}
    {rest : List EvaluationFrame} (h : Held s (⟨goal, .through d, w⟩ :: T))
    (hs : Sound s.outline (⟨goal, .through d, w⟩ :: T) F X G H)
    (hcalled : ∀ m c e, .ended m c e ∈ H → .began m c ∈ H) (hbonds : Bonds s F X G H)
    (hclear : ∀ y ∈ F, y ∉ w.stack) (hf : w.frames = f :: rest) :
    Held (await s f.module d) (⟨goal, .here, w⟩ :: T) := by
  have htop : (⟨goal, .through d, w⟩ : Tour) ∈ (⟨goal, .through d, w⟩ :: T : List Tour) :=
    List.mem_cons_self
  have hpath : Tour.path ⟨goal, .through d, w⟩ = d :: f.module :: rest.map (·.module) := by
    simp [Tour.path, Stance.top, hf]
  have hkept : Held (await s f.module d) (⟨goal, .through d, w⟩ :: T) :=
    h.ease hs (.await s f.module d) fun τ hτ ↦ ⟨τ, hτ, rfl, rfl⟩
  have htiers := hkept.tiers _ htop
  rw [hpath] at htiers
  refine ⟨hkept.roots, List.forall_mem_cons.2 ⟨?_, (List.forall_mem_cons.1 hkept.tiers).2⟩⟩
  have hpath' : Tour.path ⟨goal, .here, w⟩ = f.module :: rest.map (·.module) := by
    simp [Tour.path, Stance.top, hf]
  rw [hpath']
  refine htiers.leave fun z hz hwaits ↦ ?_
  obtain rfl : f.module = z := by simpa using hz
  have hframe : f ∈ w.frames := hf ▸ List.mem_cons_self
  refine .single (hs.mem_parents_await htop hframe ?_)
  rcases hwaits with hp | ⟨y, hp, hne, hy⟩
  · exact (Store.Eases.await s f.module d).pends hp
  -- somebody above waits, and so does whoever it holds up
  obtain ⟨z, hyz, hzd⟩ := (Relation.ReflTransGen.cases_tail hy).resolve_left (Ne.symm hne)
  have hzd : d ∈ s.parents z := (Store.mem_parents_await hzd).resolve_right fun hnew ↦ by
    obtain ⟨hnot, -⟩ := hs.not_mem_path hpath
    exact hnot (hnew.1 ▸ List.mem_cons_self)
  obtain ⟨q', hq', hp'⟩ := (Store.Eases.await s f.module d).pends hp
  have hwait := (hs.lawful y _ (Store.outline_eq_some hq')).pending hp'
  rw [SourceText.outline_status, Status.isWaiting_outline] at hwait
  have hfated := Store.Each.await s f.module d
  obtain ⟨q₁, hq₁, hfate⟩ := hfated.after hq'
  obtain ⟨p₁, hp₁, hstuck⟩ := (hbonds.await hs htop hframe hclear d).stuck
    ⟨q₁, hq₁, .inr (hfate.status ▸ hwait)⟩ hyz
  obtain ⟨p₂, hp₂, hfate'⟩ := hfated.before hp₁
  have hmem : d ∈ p₂.asyncParents := by simpa [Store.parents, hp₂] using hzd
  rcases hstuck with hfail | hw
  · -- if it has failed, so has the module, which is still on the stack
    obtain ⟨r, hr, hover⟩ := hbonds.shared z p₂ hp₂ (hfate'.hasFailed.1 hfail) d hmem
    have hwalked := (hs.lawful d _ (Store.outline_eq_some hr)).stacked.1 ⟨_, htop,
      (hs.path _ htop).subset List.mem_cons_self⟩
    rw [SourceText.outline_status, Status.isWalked_outline, hover.1] at hwalked
    contradiction
  · exact hbonds.pends hs hcalled hclear hp₂ (hfate'.status ▸ hw) hmem

/-- A walk takes the component of a module off its stack. -/
theorem pop {goal : EvaluationGoal} {w : EvaluationWalk} {m : ModuleId}
    {above below : List ModuleId} (h : Held s (⟨goal, .through m, w⟩ :: T))
    (hs : Sound s.outline (⟨goal, .through m, w⟩ :: T) F X G H)
    (hstack : w.stack = above ++ m :: below) (hm : m ∉ above) :
    Held (s.completeMembers m (above ++ [m]))
      (⟨goal, .back m, { w with stack := below }⟩ :: T) := by
  have htop : (⟨goal, .through m, w⟩ : Tour) ∈ (⟨goal, .through m, w⟩ :: T : List Tour) :=
    List.mem_cons_self
  have hnodup : (above ++ m :: below).Nodup := hstack ▸ (List.nodup_append.1 hs.stacked).1
  have hm' : m ∉ below := (List.nodup_cons.1 (List.nodup_append.1 hnodup).2.1).1
  have hmembers : (above ++ [m]).Nodup := by
    refine List.Sublist.nodup ?_ hnodup
    exact (List.append_sublist_append_left above).2 (List.singleton_sublist.2 List.mem_cons_self)
  have hsource := s.source?_completeMembers hmembers m
  have hparents : ∀ z, s.parents z ⊆ (s.completeMembers m (above ++ [m])).parents z :=
    Store.parents_of_each
      (R := fun r r' ↦ r.Fades r' ∧ r'.loaded = r.loaded)
      (fun _ _ hr ↦ hr.1.asyncParents ▸ List.Subset.refl _) (Store.Fades.completeMembers s m _)
  have htiers := h.tiers _ htop
  rw [hstack] at htiers
  obtain ⟨habove, hbelow⟩ := htiers.pop hm hm'
  refine ⟨fun x r' hr' hp ↦ ?_, ?_⟩
  · rw [hsource] at hr'
    split at hr'
    · next hx =>
      obtain ⟨r, hr, rfl⟩ := Option.map_eq_some_iff.1 hr'
      have hroot : (s.completeMembers m (above ++ [m])).cycleRoot x = m := by
        simp [Store.cycleRoot, hsource, hx, hr, SourceText.complete]
      rw [hroot]
      rcases List.mem_append.1 hx with hx' | hx'
      · refine (habove x hx' ⟨r, hr, ?_⟩).mono hparents
        have hmem : x ∈ w.stack := hstack ▸ List.mem_append_left _ hx'
        have hwalked : r.status.isWalked = true := by
          rw [← Status.isWalked_outline]
          exact (hs.lawful x _ (Store.outline_eq_some hr)).stacked.1 ⟨_, htop, hmem⟩
        have hp : (EvaluationWalk.completeStatus r).isParked = true := hp
        rcases EvaluationWalk.completeStatus_cases hwalked with
          ⟨-, hpending, -⟩ | ⟨-, -, hc⟩ | ⟨-, hpending, -⟩ | ⟨-, -, hc⟩
        · exact hpending
        · cases hc ▸ hp
        · exact hpending
        · cases hc ▸ hp
      · obtain rfl := List.mem_singleton.1 hx'
        exact .refl
    · next hx =>
      have heq : (s.completeMembers m (above ++ [m])).cycleRoot x = s.cycleRoot x := by
        simp only [Store.cycleRoot, hsource, if_neg hx]
      exact heq ▸ (h.roots x r' hr' hp).mono hparents
  · have hpends : ∀ {y}, (s.completeMembers m (above ++ [m])).Pends y → s.Pends y := by
      rintro y ⟨r', hr', hp⟩
      rw [hsource] at hr'
      split at hr'
      · obtain ⟨r, hr, rfl⟩ := Option.map_eq_some_iff.1 hr'
        exact ⟨r, hr, hp⟩
      · exact ⟨r', hr', hp⟩
    refine List.forall_mem_cons.2 ⟨hbelow.mono ?_ fun y _ _ hp ↦
      ⟨hpends hp, fun z hz ↦ hz.mono hparents⟩, fun τ hτ ↦ ?_⟩
    · exact (List.nodup_cons.1 (List.nodup_append.1 hnodup).2.1).2
    · have hτ' := List.mem_cons_of_mem (⟨goal, .through m, w⟩ : Tour) hτ
      exact (h.tiers τ hτ').mono ((List.nodup_flatMap.1 hs.stacked).1 τ hτ') fun y _ _ hp ↦
        ⟨hpends hp, fun z hz ↦ hz.mono hparents⟩

end Held

/-- Every move keeps holding up what is held up. -/
theorem Move.held {mode : Mode} {S S' : Scene} (hmove : Move mode S S') (hv : Valid S)
    (hclear : S.Clear) (hbonds : S.Bonded) (h : Held S.store S.tours) :
    Held S'.store S'.tours := by
  have hs := hv.sound
  have hsame : ∀ {T : List Tour}, ∀ τ' ∈ T, ∃ τ ∈ T, τ'.path = τ.path ∧
      τ'.walk.stack = τ.walk.stack := fun τ' hτ' ↦ ⟨τ', hτ', rfl, rfl⟩
  have hpush : ∀ {τ τ' : Tour} {T : List Tour}, τ'.path = τ.path → τ'.walk.stack = τ.walk.stack →
      ∀ τ₁ ∈ τ' :: T, ∃ τ₀ ∈ τ :: T, τ₁.path = τ₀.path ∧ τ₁.walk.stack = τ₀.walk.stack :=
    fun {τ τ' T} hpath hstack ↦ List.forall_mem_cons.2 ⟨⟨τ, List.mem_cons_self, hpath, hstack⟩,
      fun τ₁ hτ₁ ↦ ⟨τ₁, List.mem_cons_of_mem τ hτ₁, rfl, rfl⟩⟩
  have htail : ∀ {τ : Tour} {T : List Tour}, ∀ τ' ∈ T, ∃ τ₀ ∈ τ :: T, τ'.path = τ₀.path ∧
      τ'.walk.stack = τ₀.walk.stack :=
    fun {τ T} τ' hτ' ↦ ⟨τ', List.mem_cons_of_mem τ hτ', rfl, rfl⟩
  have hholds : ∀ r : SourceText, r.Retains { r with asyncState := .pending } := fun r ↦
    ⟨List.Subset.refl _, fun hp ↦ ⟨hp, rfl⟩⟩
  induction hmove with
  | aside ha _ =>
    exact h.ease hs ((Store.Each.of_outline ha.outline).mono fun _ _ ↦ .of_outline) hsame
  | note a r => exact h
  | @evaluate s m root H hm hroot hcap =>
    have hretains := (Store.Eases.newCapability s root).mono fun _ _ hr ↦ hr.toRetains
    exact ⟨(h.idle hretains).roots, List.forall_mem_singleton.2 .nil⟩
  | force _ _ _ _ _ _ => exact ⟨h.roots, List.forall_mem_cons.2 ⟨.nil, h.tiers⟩⟩
  | @request s goal w m t r rs rest T F X G J H d hf hd =>
    exact h.ease hs (.refl s) (hpush (by simp [Tour.path, Stance.top, hf]) rfl)
  | @unloaded s goal w m t r rs rest T F X G J H hf hd _ =>
    exact h.ease hs (.refl s) (hpush (by simp [Tour.path, Stance.top, hf]) rfl)
  | @synthetic s goal w t T F X G J H d hd => exact h.ease hs (.refl s) (hpush rfl rfl)
  | @pass s goal w t T F X G J H d r hd ha _ =>
    refine h.ease hs ?_ (hpush rfl rfl)
    split
    · exact .detach s w d
    · exact .refl s
  | enter hd ha hnot _ => exact h.enter hs hbonds hd ha hnot
  | @leaveLast s goal w T F X G J H d hf => exact h.ease hs (.refl s) (hpush rfl rfl)
  | @leaveBack s goal st w f rest T F X G J H d r q hst hf hr hq hlead =>
    have hlower : s.Eases (s.lowerAncestor f.module q.dfsAncestorIndex) := .lowerAncestor s _ _
    rcases hst with rfl | ⟨rfl, -⟩
    · exact h.ease hs (hlower.trans (.await _ _ _)) (hpush rfl rfl)
    · exact (h.ease hs hlower hsame).leave (hs.lowerAncestor _ _) hv.called
        (Bonds.stay hbonds (.lowerAncestor s _ _)) (hclear _ List.mem_cons_self).stack hf
  | @leaveSearched s goal st w f rest T F X G J H d r q hst hf hr hq hlead hqs =>
    rcases hst with rfl | ⟨rfl, -⟩
    · exact h.ease hs (.await s _ _) (hpush rfl rfl)
    · exact h.leave hs hv.called hbonds (hclear _ List.mem_cons_self).stack hf
  | @leaveOff s goal w f rest T F X G J H d r q hf hr hq hlead hqs he =>
    exact h.ease hs (.await s _ _) (hpush rfl rfl)
  | @hold s goal w m rest T F X G J H r hf hr hpos =>
    refine h.hold hs hholds ⟨_, List.mem_cons_self, ?_⟩
      (hpush (by simp [Tour.path, Stance.top, hf]) rfl) rfl
    simp [Tour.path, Stance.top, hf]
  | @run s goal w m rest T F X G J H r hf hr h0 hw =>
    exact h.ease hs (.refl s) (hpush (by simp [Tour.path, Stance.top, hf]) rfl)
  | @runAsync s goal w m rest T F X G J H r hf hr h0 hw =>
    refine h.hold hs hholds ⟨_, List.mem_cons_self, ?_⟩
      (hpush (by simp [Tour.path, Stance.top, hf]) rfl) (Store.modules_react _ _ _)
    simp [Tour.path, Stance.top, hf]
  | @search s goal w m rest T F X G J H hf =>
    have hsearched : ∀ r : SourceText,
        r.Retains (if r.pendingAsync = 0 then r else { r with asyncState := .pending }) := fun r ↦ by
      split
      · exact (SourceText.Eases.refl r).toRetains
      · exact hholds r
    refine h.hold hs hsearched ⟨_, List.mem_cons_self, ?_⟩
      (hpush (by simp [Tour.path, Stance.top, hf]) rfl) rfl
    simp [Tour.path, Stance.top, hf]
  | @ended s goal w m T F X G J H capability c hb hc => exact h.ease hs (.refl s) (hpush rfl rfl)
  | pop hstack hnot _ => exact h.pop hs hstack hnot
  | @done s goal w T F X G J H hf => exact h.ease hs (.finish s goal) htail
  | @fail s goal st w T F X G J H e _ _ => exact h.ease hs (.fail s w.stack e goal) htail
  | failed e hb => exact h
  | take hj => exact h.ease hs (.of_modules rfl) (by simp)
  | drop hj => exact h
  | late hm => exact h
  | @fulfill s m r H hm hst => exact h.ease hs (.finishModule s m) (by simp)
  | @reject s m e H => exact h.ease hs (.rejectModule s m e) (by simp)
  | skip hm => exact h
  | @lessen s m r F G H hF hb hm h0 => exact h.ease hs (.lessen s m) (by simp)
  | @release s m r F G H hF hb hm h0 => exact h.ease hs (.lessen s m) (by simp)
  | past hm => exact h
  | @pastSearched s m r F H hm hw hst => exact h.ease hs (.finishSearched s m) (by simp)
  | free hm hst hw hst' => exact h
  | @freeAsync s m r F H hm hst hw =>
    have hmodules : (s.startAsync m).2.modules = (s.holdModule m).modules :=
      Store.modules_react _ _ _
    have hhold : s.Each SourceText.Retains (s.holdModule m) :=
      Store.Each.modifySource (fun r ↦ (SourceText.Eases.refl r).toRetains) s m fun r _ ↦ hholds r
    exact h.idle fun x ↦ Store.source?_congr hmodules x ▸ hhold x
  | @freed s m F H => exact h.ease hs (.finishModule s m) (by simp)
  | @freedError s m e F H => exact h.ease hs (.rejectModule s m e) (by simp)
  | freedAsync hb => exact h

/-! ## Runs -/

/-- Nobody waits in the beginning. -/
theorem Store.Fresh.held {s : Store} (h : s.Fresh) : Held s [] := by
  refine ⟨fun m r hr hp ↦ ?_, nofun⟩
  rcases (h.source m r hr).1 with hs | hs | hs <;> rw [hs] at hp <;> exact nomatch hp

/-- In moves, what is held up stays so. -/
theorem Moves.held {mode : Mode} {S S' : Scene} (hmoves : Moves mode S S') (hmode : ¬mode.opens)
    (hv : Valid S) (hclear : S.Clear) (hbonds : S.Bonded) (h : Held S.store S.tours) :
    Held S'.store S'.tours := by
  have hall : Valid S' ∧ S'.Clear ∧ S'.Bonded ∧ Held S'.store S'.tours := by
    induction hmoves with
    | refl => exact ⟨hv, hclear, hbonds, h⟩
    | tail _ hmove ih =>
      obtain ⟨hv, hclear, hbonds, h⟩ := ih
      exact ⟨hmove.valid hv, hmove.clear hv hclear, hmove.bonded hmode hv hclear hbonds,
        hmove.held hv hclear hbonds h⟩
  exact hall.2.2.2

theorem Run.held {s₀ : Store} {st : State} {H : List Event} (hs : s₀.Fresh)
    (h : Run Machine.Sealing s₀ st H) : Held st.store (st.scene H).tours := by
  rw [← State.store_scene (H := H)]
  exact (h.moves (fun _ _ ↦ Machine.Sealing.grants) hs.valid).1.held not_false hs.valid nofun
    hs.bonded hs.held

end EcmaModules
