import EcmaModules.Proofs.Components

/-!
# How components come about

Every move keeps what is known of complete components and of the walk under way, if there is one
walk at a time, and everything that it comes to was loaded. If no module comes to stand for itself,
moreover, the modules of a circle are represented by the same module.

One walk at a time is needed, since a walk takes what another one is executing for a part of its own
stack: it then gives the component a root that is not on it.
-/

namespace EcmaModules

open EvaluationWalk (await leadsBack detach push)

namespace Store

variable {s : Store}

theorem low_lowerAncestor (s : Store) (m : ModuleId) (i : Nat) (x : ModuleId) :
    (s.lowerAncestor m i).low x = if x = m then min (s.low x) i else s.low x := by
  unfold low lowerAncestor
  rw [source?_modifySource]
  split
  · rcases s.source? x with _ | r
    · simp
    · rfl
  · rfl

theorem low_modifySource (s : Store) (m : ModuleId) {f : SourceText → SourceText}
    (hf : ∀ r, (f r).dfsAncestorIndex = r.dfsAncestorIndex) (x : ModuleId) :
    (s.modifySource m f).low x = s.low x := by
  unfold low
  rw [source?_modifySource]
  split
  · rcases s.source? x with _ | r
    · rfl
    · exact hf r
  · rfl

theorem low_await (s : Store) (m d x : ModuleId) : (await s m d).low x = s.low x := by
  rcases EvaluationWalk.await_cases s m d with h | ⟨_, _, _, _, _, _, h⟩
  · rw [h]
  · rw [h, low_modifySource, low_modifySource]
    all_goals exact fun _ ↦ rfl

/-- A module gets to know at least as much as the one that it is back from. -/
theorem low_back_le {d f : ModuleId} {q : SourceText} (hq : s.source? d = some q) :
    (await (s.lowerAncestor f q.dfsAncestorIndex) f d).low f ≤
      (await (s.lowerAncestor f q.dfsAncestorIndex) f d).low d := by
  have hd : s.low d = q.dfsAncestorIndex := by
    rw [low, hq]
    rfl
  rw [low_await, low_await, low_lowerAncestor, low_lowerAncestor, if_pos rfl, hd]
  split <;> omega

end Store

/-- What is known of complete components and of the walk under way. -/
structure Composed (s : Store) (T : List Tour) : Prop where
  complete : s.Complete
  single : T.length ≤ 1
  kept : ∀ τ ∈ T, τ.Kept s

namespace Composed

variable {s s' : Store} {T : List Tour} {τ τ' : Tour}

/-- No walk is under way. -/
theorem still (h : s.Complete) : Composed s [] := ⟨h, Nat.zero_le _, nofun⟩

/-- A walk starts. -/
theorem start {goal : EvaluationGoal} {d : ModuleId} {t : Traversal} (h : s.Complete) :
    Composed s [⟨goal, .coming d t, {}⟩] := by
  refine ⟨h, Nat.le_refl _, List.forall_mem_singleton.2 ?_⟩
  exact ⟨.nil, .nil, nofun, nofun, nofun, nofun, nofun⟩

/-- The walk goes on. -/
theorem step (h : Composed s (τ :: T)) (hs : s'.Complete) (hτ : τ.Kept s → τ'.Kept s') :
    Composed s' (τ' :: T) := by
  obtain rfl : T = [] := List.eq_nil_of_length_eq_zero (Nat.le_zero.1 (Nat.le_of_succ_le_succ h.single))
  exact ⟨hs, Nat.le_refl _, List.forall_mem_singleton.2 (hτ (h.kept τ List.mem_cons_self))⟩

/-- The walk ends. -/
theorem ended (h : Composed s (τ :: T)) (hs : s'.Complete) : Composed s' T := by
  obtain rfl : T = [] := List.eq_nil_of_length_eq_zero (Nat.le_zero.1 (Nat.le_of_succ_le_succ h.single))
  exact ⟨hs, Nat.zero_le _, nofun⟩

/-- The walk is where it was, and so are modules. -/
theorem dwells (h : Composed s T) (hs : s.Dwells s')
    (hwalked : ∀ τ ∈ T, ∀ x ∈ τ.walk.stack, ∃ r, s.source? x = some r ∧ r.status = .evaluating) :
    Composed s' T := by
  refine ⟨h.complete.keep hs, h.single, fun τ hτ ↦ (h.kept τ hτ).dwells hs fun x hx ↦ ?_⟩
  obtain ⟨r, hr, hst⟩ := hwalked τ hτ x hx
  exact ⟨r, hr, by rw [hst]; rfl⟩

end Composed

/-- Whatever is on the stack of a walk is being executed. -/
theorem Scene.Eager.evaluating {S : Scene} (h : S.Eager) (hv : Valid S) {τ : Tour}
    (hτ : τ ∈ S.tours) {x : ModuleId} (hx : x ∈ τ.walk.stack) :
    ∃ r, S.store.source? x = some r ∧ r.status = .evaluating := by
  obtain ⟨o, ho⟩ := Option.isSome_iff_exists.1 (hv.sound.known τ hτ x hx)
  obtain ⟨r, hr, -⟩ := Store.source?_of_outline ho
  exact ⟨r, hr, hv.sound.evaluating_of_mem_stack hτ hx hr (h.status x r hr)⟩

/-- Whatever is being executed is on the stack of the walk. -/
theorem Sound.mem_stack_of_evaluating {s : Store} {τ : Tour} {F X G : List ModuleId}
    {H : List Event} (h : Sound s.outline [τ] F X G H) {x : ModuleId} {r : SourceText}
    (hx : s.source? x = some r) (hs : r.status = .evaluating) : x ∈ τ.walk.stack := by
  obtain ⟨τ', hτ', hmem⟩ := (h.lawful x _ (Store.outline_eq_some hx)).stacked.2
    (by simp [hs, Status.outline, Status.isWalked])
  exact List.mem_singleton.1 hτ' ▸ hmem

/-- What is known when a walk takes a component off its stack. -/
theorem Composed.closes {s : Store} {goal : EvaluationGoal} {w : EvaluationWalk}
    {above below : List ModuleId} {m : ModuleId} {T : List Tour} {F X G : List ModuleId}
    {J : List Job} {H : List Event} (h : Composed s (⟨goal, .through m, w⟩ :: T))
    (hv : Valid ⟨s, ⟨goal, .through m, w⟩ :: T, F, X, G, J, H⟩)
    (he : Scene.Eager ⟨s, ⟨goal, .through m, w⟩ :: T, F, X, G, J, H⟩)
    (hstack : w.stack = above ++ m :: below) (hroot : s.isComponentRoot m = true) :
    Closes s goal w above below m :=
  ⟨h.complete, h.kept _ List.mem_cons_self, (List.nodup_append.1 hv.sound.stacked).1,
    fun _ ↦ he.evaluating hv List.mem_cons_self, hstack, hroot⟩

/-- In every move but those that complete a component modules are where they were, for walks. -/
theorem Move.dwells {mode : Mode} {S S' : Scene} (hmove : Move mode S S') (hv : Valid S) (he : S.Eager)
    (hrep : S.store.Represented) : S.store.Dwells S'.store ∨ S.Completes S' := by
  rcases hmove.keeps_or_passes hv he with h | ⟨m, root, -, -, hcap, -, -, hstore⟩ | h |
    ⟨goal, w, T, d, t, r, -, hd, ha, -, hstore⟩
  · exact .inl h.toRests.dwells
  · exact .inl (hstore ▸ (Store.Rests.newCapability hcap).dwells)
  · exact .inr h
  · rw [hstore]
    split
    · refine .inl (.detach fun hover ↦ ?_)
      obtain ⟨r', hr', hst⟩ := Store.source?_of_status? hover
      obtain rfl := Option.some.inj (hd.symm.trans hr')
      rw [Store.root?_eq hd]
      refine hrep d r hd (by rw [hst]; rfl) ?_
      rcases herror : r.evaluationError with _ | e
      · rfl
      · simp [SourceText.arrival, hst, herror] at ha
    · exact .inl (Store.Keeps.refl _).toRests.dwells

theorem Store.Represented.detach {s : Store} (h : s.Represented) (w : EvaluationWalk) (d : ModuleId) :
    (EvaluationWalk.detach s w d).Represented := by
  unfold EvaluationWalk.detach
  split
  · intro x r' hr' hsettling herror
    rw [Store.source?_modifySource] at hr'
    split at hr'
    · obtain ⟨r, -, rfl⟩ := Option.map_eq_some_iff.1 hr'
      rfl
    · exact h x r' hr' hsettling herror
  · exact h

/-- In every move, whoever settles without an error stays represented. -/
theorem Move.represented {mode : Mode} {S S' : Scene} (hmove : Move mode S S') (hv : Valid S) (he : S.Eager)
    (hrep : S.store.Represented) : S'.store.Represented := by
  rcases hmove.keeps_or_passes hv he with h | ⟨m, root, -, -, hcap, -, -, hstore⟩ | h |
    ⟨goal, w, T, d, t, r, -, -, -, -, hstore⟩
  · exact h.toRests.evolves.represented hrep
  · exact hstore ▸ (Store.Rests.newCapability hcap).evolves.represented hrep
  · exact (h.evolves hv he).represented hrep
  · rw [hstore]
    split
    · exact hrep.detach w d
    · exact hrep

/-- Every move keeps what is known of components, if nothing is searched, there is one walk at a time,
and everything was loaded. -/
theorem Move.composed {mode : Mode} {S S' : Scene} (hmove : Move mode S S')
    (hmode : ¬mode.nests ∧ ¬mode.skips) (hv : Valid S) (he : S.Eager)
    (hrep : S.store.Represented) (h : Composed S.store S.tours) : Composed S'.store S'.tours := by
  obtain ⟨hnests, hskips⟩ := hmode
  rcases hmove.dwells hv he hrep with hs | hpop
  swap
  · obtain ⟨goal, w, T, above, m, below, hT, ⟨hstack, -, hroot⟩, hT', hstore⟩ := hpop
    obtain ⟨s, T₀, F, X, G, J, H⟩ := S
    obtain rfl : T₀ = _ := hT
    rw [hT', hstore]
    have hcloses := h.closes hv he hstack hroot
    exact h.step hcloses.completes fun _ ↦ hcloses.popped
  have hwalked : ∀ τ ∈ S.tours, ∀ x ∈ τ.walk.stack,
      ∃ r, S.store.source? x = some r ∧ r.status = .evaluating :=
    fun τ hτ x ↦ he.evaluating hv hτ
  have hkept := h.dwells hs hwalked
  have hcomplete := hkept.complete
  have hsource : ∀ τ ∈ S.tours, ∀ x ∈ τ.walk.stack, (S'.store.source? x).isSome :=
    fun τ hτ x hx ↦ by
      obtain ⟨r, hr, -⟩ := hwalked τ hτ x hx
      rw [hs.isSome, hr]
      rfl
  have hone : ∀ {τ T}, S.tours = τ :: T → T = [] := fun hT ↦ by
    have := h.single
    rw [hT] at this
    exact List.eq_nil_of_length_eq_zero (Nat.le_zero.1 (Nat.le_of_succ_le_succ this))
  induction hmove with
  | aside _ _ => exact hkept
  | note _ _ => exact hkept
  | evaluate _ _ _ _ => exact .start hcomplete
  | force _ _ _ _ _ hT =>
    obtain rfl := hT.2.resolve_right hnests
    exact .start hcomplete
  | @request s goal w m t r rs rest T F X G J H d hf hd =>
    exact h.step hcomplete fun hk ↦ hk.request hf hd _ (hsource _ List.mem_cons_self)
  | unloaded _ _ hskip => exact absurd hskip hskips
  | @synthetic s goal w t T F X G J H d hd =>
    refine h.step hcomplete fun hk ↦ hk.turn rfl ?_ (hsource _ List.mem_cons_self) (by simp)
    rintro x y ⟨⟨_, hst⟩ | hst, -⟩ - hy
    · cases hst
      simp [hd] at hy
    · contradiction
  | @pass s goal w t T F X G J H d r hd ha _ =>
    refine hkept.step hcomplete fun hk ↦ hk.turn rfl ?_ (hsource _ List.mem_cons_self) ?_
    · rintro x y ⟨⟨_, hst⟩ | hst, hf⟩ hnot
      · cases hst
        exact absurd ⟨.inr rfl, hf⟩ hnot
      · contradiction
    · intro e hst
      obtain rfl := Stance.back.inj hst
      obtain rfl : t = .executing := (he.tours _ List.mem_cons_self).coming d t rfl
      by_cases hr : r.status = .evaluating
      · obtain rfl := hone rfl
        exact .inr (hv.sound.mem_stack_of_evaluating hd hr)
      · obtain ⟨hsettling, herror⟩ := SourceText.settling_of_pass ha hr
        refine .inl ?_
        rw [hs.root, Store.root?_eq hd]
        exact hrep d r hd hsettling herror
  | @enter s goal w t t' T F X G J H d r hd ha hnot hmode =>
    refine h.step hcomplete fun hk ↦ hk.enter hs (fun x hx ↦ ?_) hd fun hmem ↦ ?_
    · obtain ⟨q, hq, hst⟩ := hwalked _ List.mem_cons_self x hx
      exact ⟨q, hq, by rw [hst]; rfl⟩
    · obtain ⟨q, hq, hst⟩ := hwalked _ List.mem_cons_self d hmem
      obtain rfl := Option.some.inj (hd.symm.trans hq)
      obtain ⟨-, hstatus⟩ := SourceText.arrival_eq_enter ha
      simp [hst, Status.outline] at hstatus
  | @leaveLast s goal w T F X G J H d hf =>
    refine h.step hcomplete fun hk ↦ hk.turn rfl ?_ (hsource _ List.mem_cons_self) (by simp)
    rintro x y ⟨-, f, rest, hf', -⟩
    exact absurd (hf.symm.trans hf') (by simp)
  | @leaveBack s goal st w f rest T F X G J H d r q hst hf hr hq hlead =>
    obtain rfl := hone rfl
    have hqs : q.status = .evaluating := by
      have := he.status d q hq
      simp only [leadsBack, Bool.or_eq_true, Bool.and_eq_true, decide_eq_true_eq] at hlead
      refine hlead.resolve_right fun hsearching ↦ ?_
      simp [hsearching.1, Status.isSearched] at this
    have hmem := hv.sound.mem_stack_of_evaluating hq hqs
    refine hkept.step hcomplete fun hk ↦ ?_
    rcases hst with rfl | ⟨rfl, -⟩
    · exact hk.leaveBack hf (List.nodup_append.1 hv.sound.stacked).1 hmem (Store.low_back_le hq)
    · exact hk.leaveThrough hf (Store.low_back_le hq)
  | @leaveSearched s goal st w f rest T F X G J H d r q hst hf hr hq hlead hqs =>
    have := he.status d q hq
    simp [hqs, Status.isSearched] at this
  | @leaveOff s goal w f rest T F X G J H d r q hf hr hq hlead hqs herr =>
    refine hkept.step hcomplete fun hk ↦ hk.turn rfl ?_ (hsource _ List.mem_cons_self) (by simp)
    intro x y hxy _ _
    obtain ⟨-, rfl⟩ := Tour.Kept.opens_of_back hxy hf
    have hnot : y ∉ w.stack := fun hmem ↦ by
      obtain ⟨q', hq', hst⟩ := hwalked _ List.mem_cons_self y hmem
      obtain rfl := Option.some.inj (hq.symm.trans hq')
      simp [leadsBack, hst] at hlead
    exact ⟨(hk.back y rfl).resolve_right hnot, hnot⟩
  | hold hf _ _ =>
    exact hkept.step hcomplete fun hk ↦ hk.through hf rfl (hsource _ List.mem_cons_self)
  | run hf _ _ _ =>
    exact hkept.step hcomplete fun hk ↦ hk.through hf rfl (hsource _ List.mem_cons_self)
  | runAsync hf _ _ _ =>
    exact hkept.step hcomplete fun hk ↦ hk.through hf rfl (hsource _ List.mem_cons_self)
  | search hf =>
    have := ((he.tours _ List.mem_cons_self).frames _ (hf ▸ List.mem_cons_self)).1
    contradiction
  | ended _ _ =>
    refine hkept.step hcomplete fun hk ↦ hk.turn rfl ?_ (hsource _ List.mem_cons_self) (by simp)
    rintro x y ⟨⟨_, hst⟩ | hst, -⟩ <;> contradiction
  | pop hstack _ hroot =>
    have hcloses := h.closes hv he hstack hroot
    exact h.step hcloses.completes fun _ ↦ hcloses.popped
  | done _ => exact hkept.ended hcomplete
  | fail _ _ _ => exact hkept.ended hcomplete
  | failed _ _ => exact hkept
  | drop _ => exact hkept
  | freedAsync _ => exact hkept
  | _ => exact .still hcomplete

/-- Every move keeps it that the modules of a circle are represented by the same module, if moreover nobody
comes to stand for itself. -/
theorem Move.shared {mode : Mode} {S S' : Scene} (hmove : Move mode S S') (hmode : ¬mode.detaches)
    (hv : Valid S) (he : S.Eager) (hrep : S.store.Represented) (hcomposed : Composed S.store S.tours)
    (h : S.store.Shared) : S'.store.Shared := by
  rcases hmove.rests hmode hv he hrep with hs | hpop
  · exact h.keep hcomposed.complete hs
  · obtain ⟨goal, w, T, above, m, below, hT, ⟨hstack, -, hroot⟩, -, hstore⟩ := hpop
    obtain ⟨s, T₀, F, X, G, J, H⟩ := S
    obtain rfl : T₀ = _ := hT
    rw [hstore]
    exact (hcomposed.closes hv he hstack hroot).shares h

end EcmaModules
