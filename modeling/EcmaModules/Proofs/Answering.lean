import EcmaModules.Proofs.Composing

/-!
# Who answers for an evaluation

The promise of an evaluation is kept at the module that its walk starts at. That module is the last
one to be taken off the stack, so when the walk is over it stands for its component, unless it has
failed. A call on any module of the component finds the promise there.
-/

namespace EcmaModules

open EvaluationWalk (await leadsBack detach push)

/-! ## The module that a walk starts at -/

/-- The module has failed, or stands for its component. -/
def Store.Speaks (s : Store) (x : ModuleId) : Prop :=
  ∃ r, s.source? x = some r ∧
    (r.hasFailed ∨ r.status.isSettling = true ∧ r.cycleRoot = some x)

theorem Store.Evolves.speaks {s s' : Store} (h : s.Evolves s') {x : ModuleId} (hx : s.Speaks x) :
    s'.Speaks x := by
  obtain ⟨r, hr, hspeaks⟩ := hx
  obtain ⟨r', hr', hevolves⟩ := h.after hr
  refine ⟨r', hr', hspeaks.imp (fun hf ↦ (hevolves.hasFailed hf).1) fun ⟨hs, hroot⟩ ↦ ?_⟩
  obtain ⟨hs', heq⟩ := hevolves.settling hs
  exact ⟨hs', heq.trans hroot⟩

/-- The walk has come to its first module, which is yet to be evaluated, or has it on its path. -/
def Tour.From (s : Store) (τ : Tour) (x : ModuleId) : Prop :=
  (τ.walk.frames = [] ∧ (∃ t, τ.stance = .coming x t) ∧
    ∃ r, s.source? x = some r ∧ r.status.isSettling = false) ∨ τ.path.getLast? = some x

/-- The module has failed or stands for its component, unless a walk that started there is under
way. -/
def Scene.Minds (S : Scene) (x : ModuleId) : Prop :=
  S.store.Speaks x ∨ ∃ τ ∈ S.tours, τ.From S.store x

theorem Tour.From.path {s : Store} {goal : EvaluationGoal} {st : Stance} {w : EvaluationWalk}
    {x : ModuleId} (h : Tour.From s ⟨goal, st, w⟩ x) (hst : ∀ d t, st ≠ .coming d t) :
    Tour.path ⟨goal, st, w⟩ ≠ [] ∧ (Tour.path ⟨goal, st, w⟩).getLast? = some x := by
  rcases h with ⟨-, ⟨t, ht⟩, -⟩ | h
  · exact absurd ht (hst x t)
  · refine ⟨fun hnil ↦ ?_, h⟩
    rw [hnil] at h
    exact nomatch h

/-- The walk that a module belongs to minds it in every move. -/
theorem Move.minds {mode : Mode} {S S' : Scene} (hmove : Move mode S S')
    (hmode : ¬mode.detaches ∧ ¬mode.nests ∧ ¬mode.skips) (hv : Valid S) (he : S.Eager)
    (hrep : S.store.Represented) (hsingle : S.tours.length ≤ 1) {x : ModuleId} (h : S.Minds x) :
    S'.Minds x := by
  have hevolves := hmove.evolves hmode.1 hv he hrep
  rcases h with hspeaks | ⟨τ, hτ, hfrom⟩
  · exact .inl (hevolves.speaks hspeaks)
  -- the walk is the only one
  have hone : ∀ {τ₀ T}, S.tours = τ₀ :: T → T = [] ∧ τ = τ₀ := fun {τ₀ T} hT ↦ by
    rw [hT] at hsingle hτ
    obtain rfl : T = [] :=
      List.eq_nil_of_length_eq_zero (Nat.le_zero.1 (Nat.le_of_succ_le_succ hsingle))
    exact ⟨rfl, List.mem_singleton.1 hτ⟩
  have hstay : ∀ {τ' : Tour}, τ' ∈ S'.tours → τ'.path.getLast? = some x → S'.Minds x :=
    fun hmem hlast ↦ .inr ⟨_, hmem, .inr hlast⟩
  induction hmove with
  | @aside s s' T F X G J H ha hi =>
    refine .inr ⟨τ, hτ, hfrom.imp (fun ⟨hf, hst, r, hr, hs⟩ ↦ ⟨hf, hst, ?_⟩) id⟩
    obtain ⟨r', hr', heq⟩ := (Store.Each.of_outline ha.outline).after hr
    refine ⟨r', hr', ?_⟩
    rw [← Status.isSettling_outline, ← SourceText.outline_status, heq, SourceText.outline_status,
      Status.isSettling_outline, hs]
  | note _ _ => exact .inr ⟨τ, hτ, hfrom⟩
  | force _ _ _ _ _ hT =>
    obtain rfl := hT.2.resolve_right hmode.2.1
    exact absurd hτ List.not_mem_nil
  | unloaded _ _ hskip => exact absurd hskip hmode.2.2
  | @request s goal w m t r rs rest T F X G J H d hf hd =>
    obtain ⟨rfl, rfl⟩ := hone rfl
    refine hstay List.mem_cons_self ?_
    have hlast := (hfrom.path (by simp)).2
    simpa [Tour.path, Stance.top, hf] using hlast
  | @synthetic s goal w t T F X G J H d hd =>
    obtain ⟨rfl, rfl⟩ := hone rfl
    rcases hfrom with ⟨-, ⟨t', ht⟩, r, hr, -⟩ | hlast
    · cases ht
      exact absurd (hd.symm.trans hr) (by simp)
    · exact hstay List.mem_cons_self hlast
  | @pass s goal w t T F X G J H d r hd ha _ =>
    obtain ⟨rfl, rfl⟩ := hone rfl
    rcases hfrom with ⟨hf, ⟨t', ht⟩, q, hq, hs⟩ | hlast
    · -- it would be on the stack already, which is empty
      cases ht
      obtain rfl := Option.some.inj (hd.symm.trans hq)
      obtain rfl : t = .executing := (he.tours _ List.mem_cons_self).coming x t rfl
      have hevaluating : r.status = .evaluating := by
        by_contra hne
        exact absurd (hs.symm.trans (SourceText.settling_of_pass ha hne).1) (by simp)
      have hmem := hv.sound.mem_stack_of_evaluating hd hevaluating
      have hw : w = {} := hv.sound.start _ List.mem_cons_self x .executing rfl hf
      rw [hw] at hmem
      exact absurd hmem List.not_mem_nil
    · exact hstay List.mem_cons_self hlast
  | @enter s goal w t t' T F X G J H d r hd ha hnot hmode =>
    obtain ⟨rfl, rfl⟩ := hone rfl
    refine hstay List.mem_cons_self ?_
    rcases hfrom with ⟨hf, ⟨t'', ht⟩, -⟩ | hlast
    · cases ht
      have hf : w.frames = [] := hf
      simp [Tour.path, Stance.top, push, hf]
    · have hne : w.frames.map (·.module) ≠ [] := fun hnil ↦ by
        simp [Tour.path, Stance.top, hnil] at hlast
      have heq : Tour.path ⟨goal, .here, (push s w d t').2⟩ = d :: w.frames.map (·.module) := rfl
      rw [heq, List.getLast?_cons_of_ne_nil hne]
      exact hlast
  | @leaveLast s goal w T F X G J H d hf =>
    obtain ⟨rfl, rfl⟩ := hone rfl
    exact absurd (by simp [Tour.path, Stance.top, hf]) (hfrom.path (by simp)).1
  | @leaveBack s goal st w f rest T F X G J H d r q hst hf hr hq hlead =>
    obtain ⟨rfl, rfl⟩ := hone rfl
    refine hstay List.mem_cons_self ?_
    rcases hst with rfl | ⟨rfl, -⟩
    · exact (hfrom.path (by simp)).2
    · have hlast := (hfrom.path (by simp)).2
      simpa [Tour.path, Stance.top, hf] using hlast
  | @leaveSearched s goal st w f rest T F X G J H d r q hst hf hr hq hlead hqs =>
    have := he.status d q hq
    simp [hqs, Status.isSearched] at this
  | leaveOff hf _ _ _ _ _ =>
    obtain ⟨rfl, rfl⟩ := hone rfl
    exact hstay List.mem_cons_self (hfrom.path (by simp)).2
  | hold hf _ _ =>
    obtain ⟨rfl, rfl⟩ := hone rfl
    have hlast := (hfrom.path (by simp)).2
    exact hstay List.mem_cons_self (by simpa [Tour.path, Stance.top, hf] using hlast)
  | run hf _ _ _ =>
    obtain ⟨rfl, rfl⟩ := hone rfl
    have hlast := (hfrom.path (by simp)).2
    exact hstay List.mem_cons_self (by simpa [Tour.path, Stance.top, hf] using hlast)
  | runAsync hf _ _ _ =>
    obtain ⟨rfl, rfl⟩ := hone rfl
    have hlast := (hfrom.path (by simp)).2
    exact hstay List.mem_cons_self (by simpa [Tour.path, Stance.top, hf] using hlast)
  | search hf =>
    have := ((he.tours _ List.mem_cons_self).frames _ (hf ▸ List.mem_cons_self)).1
    contradiction
  | ended _ _ =>
    obtain ⟨rfl, rfl⟩ := hone rfl
    exact hstay List.mem_cons_self (hfrom.path (by simp)).2
  | @pop s goal w m above below T F X G J H hstack hnot hroot =>
    obtain ⟨rfl, rfl⟩ := hone rfl
    have hlast := (hfrom.path (by simp)).2
    by_cases hf : w.frames = []
    · -- the module is the root of the last component
      obtain rfl : m = x := by simpa [Tour.path, Stance.top, hf] using hlast
      have hmem : m ∈ above ++ [m] := List.mem_append_right _ List.mem_cons_self
      have hsub : (above ++ [m]).Sublist w.stack := by
        rw [hstack]
        exact (List.append_sublist_append_left above).2
          (List.singleton_sublist.2 List.mem_cons_self)
      obtain ⟨r, hr, hs⟩ := he.evaluating hv List.mem_cons_self (hsub.subset hmem)
      refine .inl ⟨r.complete m, ?_, .inr ⟨?_, rfl⟩⟩
      · change (s.completeMembers m (above ++ [m])).source? m = _
        rw [Store.source?_completeMembers s (hsub.nodup (List.nodup_append.1 hv.sound.stacked).1),
          if_pos hmem, hr]
        rfl
      · change (EvaluationWalk.completeStatus r).isSettling = true
        by_cases hp : r.asyncState = .pending <;>
          simp [EvaluationWalk.completeStatus, hs, hp, Status.isSettling]
    · obtain ⟨f, rest, hf⟩ := List.exists_cons_of_ne_nil hf
      refine hstay List.mem_cons_self ?_
      simpa [Tour.path, Stance.top, hf] using hlast
  | done hf =>
    obtain ⟨rfl, rfl⟩ := hone rfl
    exact absurd (by simp [Tour.path, Stance.top, hf]) (hfrom.path (by simp)).1
  | @fail s goal st w T F X G J H e hclosed hblames =>
    obtain ⟨rfl, rfl⟩ := hone rfl
    refine .inl ?_
    rcases hfrom with ⟨-, ⟨t, ht⟩, r, hr, hs⟩ | hlast
    · obtain rfl : st = _ := ht
      cases hblames with
      | @coming _ _ q hq ha =>
        -- it has been evaluated, as it has an error
        obtain rfl := Option.some.inj (hr.symm.trans hq)
        have hnone := (hv.sound.lawful x _ (Store.outline_eq_some hr)).error
        rw [SourceText.outline_evaluationError, SourceText.error_of_fail ha,
          SourceText.outline_status, ne_eq, Status.outline_eq_evaluated] at hnone
        refine absurd (hnone fun hover ↦ ?_) (by simp)
        rw [hover] at hs
        contradiction
    · have hmem : x ∈ w.stack :=
        (hv.sound.path _ List.mem_cons_self).subset (List.mem_of_getLast? hlast)
      obtain ⟨r, hr, -⟩ := he.evaluating hv List.mem_cons_self hmem
      refine ⟨r.fail e, ?_, .inl ⟨rfl, rfl⟩⟩
      change (goal.fail s w.stack e).1.source? x = _
      rw [goal.source?_fail s (List.nodup_append.1 hv.sound.stacked).1, if_pos hmem, hr]
      rfl
  | failed _ _ => exact .inr ⟨τ, hτ, hfrom⟩
  | drop _ => exact .inr ⟨τ, hτ, hfrom⟩
  | freedAsync _ => exact .inr ⟨τ, hτ, hfrom⟩
  | _ => exact absurd hτ List.not_mem_nil

/-! ## Promises -/

namespace Store

variable {s s' : Store}

theorem Evolves.capability? (h : s.Evolves s') {x : ModuleId} {p : PromiseId}
    (hx : s.capability? x = some p) : s'.capability? x = some p := by
  obtain ⟨r, hr, hp⟩ := Option.bind_eq_some_iff.1 hx
  obtain ⟨r', hr', hevolves⟩ := h.after hr
  rw [Store.capability?, hr']
  exact (hevolves.capability (Option.isSome_of_mem hp)).trans hp

theorem capability?_completeMembers (s : Store) (root : ModuleId) (ms : List ModuleId)
    (x : ModuleId) : (s.completeMembers root ms).capability? x = s.capability? x := by
  have hmember : ∀ (s : Store) m, s.Each (fun r r' ↦ r'.capability = r.capability)
      (EvaluationWalk.completeMember s root m) := fun s m ↦ by
    refine Each.modifySource ?_ s m ?_ <;> intros <;> rfl
  refine capability?_of_each (Each.foldl ?_ ?_ hmember ms s) x
  · exact fun _ ↦ rfl
  · exact fun _ _ _ h h' ↦ h'.trans h

/-- The module that an evaluation starts at has failed, stands for its component, or has not settled
yet. -/
theorem speaks_evaluationRoot {T : List Tour} {F X G : List ModuleId} {H : List Event}
    (hs : Sound s.outline T F X G H) (hcomplete : s.Complete) (hshared : s.Shared)
    (hrep : s.Represented) {m : ModuleId} (hm : (s.source? m).isSome) : s.Speaks (s.evaluationRoot m) ∨
      ∃ r, s.source? (s.evaluationRoot m) = some r ∧ r.status.isSettling = false := by
  obtain ⟨r, hr⟩ := Option.isSome_iff_exists.1 hm
  have hstatus : (s.status? m).any (·.isSettling) = r.status.isSettling := by
    simp [status?, hr]
  unfold evaluationRoot
  rw [hstatus]
  cases hsettling : r.status.isSettling with
  | false => exact .inr ⟨r, hr, hsettling⟩
  | true =>
    rw [if_pos rfl]
    refine .inl ?_
    rcases hroot : r.cycleRoot with _ | c
    · -- only what has failed is not represented
      have hself : s.cycleRoot m = m := by simp [cycleRoot, hr, hroot]
      rw [hself]
      refine ⟨r, hr, .inl ?_⟩
      have herror : r.evaluationError ≠ none := fun hnone ↦ by
        have := hrep m r hr hsettling hnone
        rw [hroot] at this
        contradiction
      refine ⟨?_, Option.isSome_iff_ne_none.2 herror⟩
      by_contra hne
      exact herror ((hs.lawful m _ (outline_eq_some hr)).error (by simpa using hne))
    · have hself : s.cycleRoot m = c := by simp [cycleRoot, hr, hroot]
      rw [hself]
      have hown := hshared.own m c ((root?_eq hr).trans hroot)
      obtain ⟨q, hq, -⟩ := source_of_root (Option.isSome_of_mem hown)
      have hq' : q.cycleRoot = some c := (root?_eq hq).symm.trans hown
      exact ⟨q, hq, .inr ⟨hcomplete.settling c q hq (hq' ▸ rfl), hq'⟩⟩

end Store

/-! ## Runs in which cycles are dealt with as a whole -/

/-- What holds of a scene if nothing is searched, nobody comes to stand for itself, there is one walk
at a time, and everything was loaded. -/
structure Scene.Whole (S : Scene) : Prop where
  valid : Valid S
  eager : S.Eager
  represented : S.store.Represented
  composed : Composed S.store S.tours
  shared : S.store.Shared
  promised : ∀ τ ∈ S.tours, ∀ x p, τ.goal = .promise x p → S.store.capability? x = some p
  minded : ∀ x, (S.store.capability? x).isSome → S.Minds x

/-- A walk goes on for what it was started for. -/
theorem Move.goal {mode : Mode} {S S' : Scene} (hmove : Move mode S S') :
    (∀ τ' ∈ S'.tours, (∃ τ ∈ S.tours, τ.goal = τ'.goal) ∨ ∃ m, τ'.goal = .force m) ∨
      S.Starts S' := by
  have hsame : ∀ {T : List Tour}, ∀ τ' ∈ T,
      (∃ τ ∈ T, τ.goal = τ'.goal) ∨ ∃ m, τ'.goal = .force m := fun τ' hτ' ↦ .inl ⟨τ', hτ', rfl⟩
  have hpush : ∀ {τ τ' : Tour} {T : List Tour}, τ.goal = τ'.goal → ∀ τ₁ ∈ τ' :: T,
      (∃ τ₀ ∈ τ :: T, τ₀.goal = τ₁.goal) ∨ ∃ m, τ₁.goal = .force m := fun {τ τ' T} heq ↦
    List.forall_mem_cons.2 ⟨.inl ⟨τ, List.mem_cons_self, heq⟩,
      fun τ₁ hτ₁ ↦ .inl ⟨τ₁, List.mem_cons_of_mem τ hτ₁, rfl⟩⟩
  induction hmove with
  | evaluate hm hroot hcap _ => exact .inr ⟨_, _, hm, hroot, hcap, rfl, rfl, rfl⟩
  | force _ _ _ _ _ _ => exact .inl (List.forall_mem_cons.2 ⟨.inr ⟨_, rfl⟩, hsame⟩)
  | aside _ _ => exact .inl hsame
  | note _ _ => exact .inl hsame
  | failed _ _ => exact .inl hsame
  | drop _ => exact .inl hsame
  | freedAsync _ => exact .inl hsame
  | done _ => exact .inl fun τ hτ ↦ .inl ⟨τ, List.mem_cons_of_mem _ hτ, rfl⟩
  | fail _ _ _ => exact .inl fun τ hτ ↦ .inl ⟨τ, List.mem_cons_of_mem _ hτ, rfl⟩
  | request _ _ => exact .inl (hpush rfl)
  | unloaded _ _ _ => exact .inl (hpush rfl)
  | synthetic _ => exact .inl (hpush rfl)
  | pass _ _ _ => exact .inl (hpush rfl)
  | enter _ _ _ _ => exact .inl (hpush rfl)
  | leaveLast _ => exact .inl (hpush rfl)
  | leaveBack _ _ _ _ _ => exact .inl (hpush rfl)
  | leaveSearched _ _ _ _ _ _ => exact .inl (hpush rfl)
  | leaveOff _ _ _ _ _ _ => exact .inl (hpush rfl)
  | hold _ _ _ => exact .inl (hpush rfl)
  | run _ _ _ _ => exact .inl (hpush rfl)
  | runAsync _ _ _ _ => exact .inl (hpush rfl)
  | search _ => exact .inl (hpush rfl)
  | ended _ _ => exact .inl (hpush rfl)
  | pop _ _ _ => exact .inl (hpush rfl)
  | _ => exact .inl nofun

/-- Every move keeps all of this. -/
theorem Move.whole {mode : Mode} {S S' : Scene} (hmove : Move mode S S')
    (hmode : ¬mode.detaches ∧ ¬mode.nests ∧ ¬mode.skips) (h : S.Whole) : S'.Whole := by
  obtain ⟨hv, he, hrep, hcomposed, hshared, hpromised, hminded⟩ := h
  have hevolves := hmove.evolves hmode.1 hv he hrep
  have hminds : ∀ {x}, S.Minds x → S'.Minds x :=
    hmove.minds hmode hv he hrep hcomposed.single
  refine ⟨hmove.valid hv, hmove.eager hv he, hevolves.represented hrep,
    hmove.composed hmode.2 hv he hrep hcomposed, hmove.shared hmode.1 hv he hrep hcomposed hshared,
    fun τ hτ x p hgoal ↦ ?_, fun x hx ↦ ?_⟩
  · rcases hmove.goal with hold | ⟨m, root, hm, hroot, -, -, hT, hstore⟩
    · rcases hold τ hτ with ⟨τ₀, hτ₀, heq⟩ | ⟨m, hforce⟩
      · exact hevolves.capability? (hpromised τ₀ hτ₀ x p (heq.trans hgoal))
      · exact nomatch hgoal.symm.trans hforce
    · -- the promise has just been made
      rw [hT] at hτ
      obtain rfl := List.mem_singleton.1 hτ
      obtain ⟨rfl, rfl⟩ := EvaluationGoal.promise.inj hgoal
      have hsource : ∃ r, S.store.source? root = some r := by
        rcases Store.speaks_evaluationRoot hv.sound hcomposed.complete hshared hrep hm with
          ⟨r, hr, -⟩ | ⟨r, hr, -⟩ <;> exact ⟨r, hroot ▸ hr⟩
      obtain ⟨r, hr⟩ := hsource
      rw [hstore, Store.capability?_newCapability, if_pos rfl, hr]
      rfl
  · rcases hmove.keeps hmode.1 hv he hrep with hkeeps | hstarts | hcompletes
    · exact hminds (hminded x (hkeeps.capability x ▸ hx))
    · obtain ⟨m, root, hm, hroot, -, -, hT, hstore⟩ := hstarts
      by_cases heq : x = root
      · subst heq
        rcases Store.speaks_evaluationRoot hv.sound hcomposed.complete hshared hrep hm with
          hspeaks | ⟨r, hr, hs⟩
        · exact .inl (hevolves.speaks (hroot ▸ hspeaks))
        · refine .inr ⟨_, hT ▸ List.mem_singleton.2 rfl, .inl ⟨rfl, ⟨_, rfl⟩, ?_⟩⟩
          rw [hroot] at hr
          refine ⟨{ r with capability := some (S.store.newCapability x).1 }, ?_, hs⟩
          rw [hstore, Store.source?_newCapability, if_pos rfl, hr]
          rfl
      · rw [hstore, Store.capability?_newCapability, if_neg heq] at hx
        exact hminds (hminded x hx)
    · obtain ⟨_, _, _, _, _, _, _, _, _, hstore⟩ := hcompletes
      rw [hstore, Store.capability?_completeMembers] at hx
      exact hminds (hminded x hx)

/-- In moves, all of this stays, and modules evolve. -/
theorem Moves.whole {mode : Mode} {S S' : Scene} (hmoves : Moves mode S S')
    (hmode : ¬mode.detaches ∧ ¬mode.nests ∧ ¬mode.skips) (h : S.Whole) :
    S'.Whole ∧ S.store.Evolves S'.store := by
  induction hmoves with
  | refl => exact ⟨h, .refl _⟩
  | tail _ hmove ih =>
    obtain ⟨h, hevolves⟩ := ih
    exact ⟨hmove.whole hmode h,
      hevolves.trans (hmove.evolves hmode.1 h.valid h.eager h.represented)⟩

end EcmaModules
