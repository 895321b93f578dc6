import EcmaModules.Proofs.Valid

/-!
# What a walk does

A step of a walk that evaluates, as moves. Each function by which a walk goes on is followed to
where it lands.
-/

namespace EcmaModules

/-! ## Where a walk lands -/

/-- The scene after a step of a walk. -/
def EvaluationStep.lands (s : Store) (goal : EvaluationGoal) (T : List Tour) (F X : List ModuleId)
    (H : List Event) : EvaluationStep → Scene
  | .done => ⟨(goal.finish s).1, T, F, X, [], [], H⟩
  | .failed e stack => ⟨(goal.fail s stack e).1, T, F, X, [], [], H⟩
  | .go w => ⟨s, ⟨goal, .here, w⟩ :: T, F, X, [], [], H⟩
  | .synthetic _ w => ⟨s, ⟨goal, .here, w⟩ :: T, F, X, [], [], H⟩
  | .execute m capability w =>
    ⟨s, ⟨goal, .running m, w⟩ :: T, F, X, [], [], .began m capability :: H⟩

theorem Moves.valid {mode : Mode} {S S' : Scene} (hmoves : Moves mode S S') (h : Valid S) :
    Valid S' := by
  induction hmoves with
  | refl => exact h
  | tail _ hmove ih => exact hmove.valid ih

/-! ## Walks that fail -/

/-- If the walk fails, whoever waits for a module that is left on the stack is there as well, or has
been evaluated. -/
def EvaluationStep.Fenced (mode : Mode) (s : Store) (step : EvaluationStep) : Prop :=
  ∀ e stack, step = .failed e stack → mode.fails ∧ (mode.opens ∨ s.Closed stack)

/-- The same modules wait for each module, and what has been evaluated stays so. -/
structure SameParents (s s' : Store) : Prop where
  parents : ∀ m, s'.parents m = s.parents m
  evaluated : ∀ m, s.status? m = some .evaluated → s'.status? m = some .evaluated

namespace SameParents

variable {s s' : Store}

theorem of_modules (h : s'.modules = s.modules) : SameParents s s' := by
  constructor
  · intro m
    simp only [Store.parents, Store.source?, Store.module?, h]
  · intro m hm
    simpa only [Store.status?, Store.source?, Store.module?, h] using hm

/-- A change of one module, which keeps those that wait for it, and stays evaluated if it was. -/
theorem modifySource (s : Store) (m : ModuleId) {f : SourceText → SourceText}
    (hf : ∀ r, (f r).asyncParents = r.asyncParents ∧
      (r.status = .evaluated → (f r).status = .evaluated)) :
    SameParents s (s.modifySource m f) := by
  constructor
  · intro x
    unfold Store.parents
    rw [Store.source?_modifySource]
    split
    · rcases s.source? x with _ | r
      · rfl
      · simp [(hf r).1]
    · rfl
  · intro x hx
    rw [Store.status?_modifySource]
    split
    · obtain ⟨r, hr, hs⟩ := Option.map_eq_some_iff.1 hx
      simp [hr, (hf r).2 hs]
    · exact hx

theorem trans {s'' : Store} (h : SameParents s s') (h' : SameParents s' s'') :
    SameParents s s'' :=
  ⟨fun m ↦ (h'.parents m).trans (h.parents m), fun m hm ↦ h'.evaluated m (h.evaluated m hm)⟩

theorem completeMembers (s : Store) (root : ModuleId) (ms : List ModuleId) :
    SameParents s (s.completeMembers root ms) := by
  induction ms generalizing s with
  | nil => exact of_modules rfl
  | cons m ms ih =>
    have hmember : SameParents s (EvaluationWalk.completeMember s root m) :=
      modifySource s m fun r ↦ ⟨rfl, fun hs ↦ by simp [EvaluationWalk.completeStatus, hs]⟩
    exact hmember.trans (ih _)

theorem closed (h : SameParents s s') {ms : List ModuleId} (hms : s.Closed ms) :
    s'.Closed ms := by
  intro d hd x hx
  rw [h.parents] at hx
  exact (hms d hd x hx).imp id (h.evaluated x)

theorem fenced {mode : Mode} {step : EvaluationStep} (h : SameParents s s')
    (hstep : step.Fenced mode s) : step.Fenced mode s' :=
  fun e stack heq ↦ (hstep e stack heq).imp id (Or.imp id h.closed)

end SameParents

/-! ## Components -/

namespace SameRoots

variable {s s' s'' : Store}

theorem of_modules (h : s'.modules = s.modules) : SameRoots s s' := by
  intro m
  simp only [Store.cycleRoot, Store.source?, Store.module?, h]

theorem trans (h : SameRoots s s') (h' : SameRoots s' s'') : SameRoots s s'' :=
  fun m ↦ (h' m).trans (h m)

theorem modifySource (s : Store) (m : ModuleId) {f : SourceText → SourceText}
    (hf : ∀ r, (f r).cycleRoot = r.cycleRoot) : SameRoots s (s.modifySource m f) := by
  intro x
  unfold Store.cycleRoot
  rw [Store.source?_modifySource]
  split
  · rcases s.source? x with _ | r
    · rfl
    · simp [hf r]
  · rfl

theorem await (s : Store) (m d : ModuleId) : SameRoots s (EvaluationWalk.await s m d) := by
  rcases EvaluationWalk.await_cases s m d with h | ⟨_, _, _, _, _, _, h⟩
  · rw [h]
    exact of_modules rfl
  · rw [h]
    refine (modifySource s m ?_).trans (modifySource _ d ?_)
    all_goals exact fun _ ↦ rfl

theorem leave (s : Store) (m d : ModuleId) : SameRoots s (EvaluationWalk.leave s m d).2 := by
  unfold EvaluationWalk.leave
  split
  · split
    · refine .trans ?_ (await _ m d)
      exact modifySource s m fun _ ↦ rfl
    · split
      · exact await s m d
      · dsimp only
        split
        · exact of_modules rfl
        · exact await s m _
  · exact of_modules rfl

theorem back (s : Store) (w : EvaluationWalk) (d : ModuleId) :
    SameRoots s (EvaluationWalk.back s w d).1 := by
  unfold EvaluationWalk.back
  split
  · exact of_modules rfl
  · next f _ _ =>
    have h := leave s f.module d
    split <;> next heq => rw [heq] at h; exact h

theorem failModules (s : Store) (stack : List ModuleId) (e : ErrorId) :
    SameRoots s (s.failModules stack e) := by
  unfold Store.failModules
  induction stack generalizing s with
  | nil => exact of_modules rfl
  | cons m stack ih =>
    rw [List.foldl_cons]
    refine .trans ?_ (ih _)
    exact modifySource s m fun _ ↦ rfl

theorem next (s : Store) (goal : EvaluationGoal) (step : EvaluationStep) :
    SameRoots s (step.next s goal).1 := by
  cases step with
  | done =>
    have h : ∀ c p, SameRoots s (s.settle p c) := fun c p ↦ of_modules (s.modules_settle p c)
    cases goal with
    | promise root p =>
      simp only [EvaluationStep.next, EvaluationGoal.finish, Store.finishEvaluation]
      split
      · exact h _ _
      · exact of_modules rfl
    | force m =>
      simp only [EvaluationStep.next, EvaluationGoal.finish, Store.finishForced]
      split <;> exact of_modules rfl
  | failed e stack =>
    cases goal with
    | promise root p => exact (failModules s stack e).trans (of_modules (Store.modules_settle _ _ _))
    | force m => exact failModules s stack e
  | go w => exact of_modules rfl
  | synthetic m w => exact of_modules rfl
  | execute m capability w => exact of_modules rfl

end SameRoots

namespace EvaluationWalk

variable {mode : Mode} {s s' : Store} {goal : EvaluationGoal} {st : Stance} {w : EvaluationWalk}
  {T : List Tour} {F X : List ModuleId} {H : List Event} {m d : ModuleId} {r : SourceText}

/-! ## The ends of components -/

theorem popExecuted_append (s : Store) {root : ModuleId} {above below : List ModuleId}
    (h : root ∉ below) :
    popExecuted s root (above ++ root :: below) =
      (s.completeMembers root (above ++ [root]), below) := by
  induction above generalizing s with
  | nil => simp [popExecuted, Store.completeMembers, h]
  | cons m above ih => simp [popExecuted, ih, Store.completeMembers]

theorem popSearched_append (s : Store) {root : ModuleId} {above : List ModuleId}
    (below : List ModuleId) (h : root ∉ above) :
    popSearched s root (above ++ root :: below) =
      (s.completeMembers root (above ++ [root]), below) := by
  induction above generalizing s with
  | nil => simp [popSearched, Store.completeMembers]
  | cons m above ih =>
    rw [List.mem_cons, not_or] at h
    simp [popSearched, Ne.symm h.1, ih _ h.2, Store.completeMembers]

/-- The modules left on a stack are all still being walked. -/
theorem dropWhile_settling (h : Valid ⟨s, ⟨goal, st, w⟩ :: T, F, X, [], [], H⟩) :
    w.stack.dropWhile (fun m ↦ (s.status? m).any (·.isSettling)) = w.stack := by
  rcases hw : w.stack with _ | ⟨m, rest⟩
  · rfl
  · have hm : m ∈ w.stack := hw ▸ List.mem_cons_self
    obtain ⟨q, hq⟩ := Option.isSome_iff_exists.1 (h.sound.known _ List.mem_cons_self m hm)
    obtain ⟨r, hr, rfl⟩ := Store.source?_of_outline hq
    have hs := (h.sound.lawful m _ hq).stacked.1 ⟨_, List.mem_cons_self, hm⟩
    rw [SourceText.outline_status, Status.isWalked_outline] at hs
    rw [List.dropWhile_cons_of_neg]
    cases hst : r.status <;> simp [hst, Status.isWalked] at hs <;>
      simp [Store.status?, hr, hst, Status.isSettling]

/-- The module on top of the path of a walk has source text. -/
theorem source_of_frames (h : Valid ⟨s, ⟨goal, st, w⟩ :: T, F, X, [], [], H⟩)
    {f : EvaluationFrame} (hf : f ∈ w.frames) : ∃ r, s.source? f.module = some r := by
  have hmem := h.sound.mem_stack_of_mem_frames List.mem_cons_self hf
  obtain ⟨q, hq⟩ := Option.isSome_iff_exists.1 (h.sound.known _ List.mem_cons_self _ hmem)
  obtain ⟨r, hr, -⟩ := Store.source?_of_outline hq
  exact ⟨r, hr⟩

/-- The walk is back from a module that is not on top of its path any more. -/
theorem back_lands (h : Valid ⟨s, ⟨goal, .back d, w⟩ :: T, F, X, [], [], H⟩)
    (hfence : (back s w d).2.Fenced mode s) :
    Moves mode ⟨s, ⟨goal, .back d, w⟩ :: T, F, X, [], [], H⟩
      ((back s w d).2.lands (back s w d).1 goal T F X H) := by
  unfold back at hfence ⊢
  rcases hf : w.frames with _ | ⟨f, rest⟩
  · exact .single (.leaveLast hf)
  obtain ⟨r, hr⟩ := source_of_frames h (f := f) (hf ▸ List.mem_cons_self)
  obtain ⟨o, ho⟩ := Option.isSome_iff_exists.1 (h.sound.back _ List.mem_cons_self d rfl)
  obtain ⟨q, hq, rfl⟩ := Store.source?_of_outline ho
  simp only [hf, leave, hr, hq] at hfence ⊢
  by_cases hlead : leadsBack q.status r.status = true
  · rw [if_pos hlead]
    exact .single (.leaveBack (.inl rfl) hf hr hq hlead)
  rw [if_neg hlead]
  rw [Bool.not_eq_true] at hlead
  by_cases hqs : q.status = .asyncSubgraphsSearching
  · rw [if_pos hqs]
    exact .single (.leaveSearched (.inl rfl) hf hr hq hlead hqs)
  rw [if_neg hqs]
  rcases he : s.evaluationError? (s.cycleRoot d) with _ | e
  · exact .single (.leaveOff hf hr hq hlead hqs he)
  · rw [if_neg (by simp [hlead]), if_neg hqs, he] at hfence
    obtain ⟨hfails, hclosed⟩ := hfence e w.stack rfl
    exact .single (.fail e hclosed (.back hf hr hq hlead he) hfails)

/-- The walk goes on from a module that stays on its stack. -/
theorem through_lands (h : Valid ⟨s, ⟨goal, .through m, w⟩ :: T, F, X, [], [], H⟩)
    (hroot : s.isComponentRoot m = false) :
    Moves mode ⟨s, ⟨goal, .through m, w⟩ :: T, F, X, [], [], H⟩
      ((back s w m).2.lands (back s w m).1 goal T F X H) := by
  have htop : (⟨goal, .through m, w⟩ : Tour) ∈ (⟨goal, .through m, w⟩ :: T : List Tour) :=
    List.mem_cons_self
  have hmem : m ∈ w.stack := (h.sound.path _ htop).subset List.mem_cons_self
  obtain ⟨o, ho⟩ := Option.isSome_iff_exists.1 (h.sound.known _ htop m hmem)
  obtain ⟨q, hq, rfl⟩ := Store.source?_of_outline ho
  have hwalked := (h.sound.lawful m _ ho).stacked.1 ⟨_, htop, hmem⟩
  rw [SourceText.outline_status, Status.isWalked_outline] at hwalked
  rcases hf : w.frames with _ | ⟨f, rest⟩
  · -- the walk started at the module, which is then a root
    have hlast : w.stack.getLast? = some m := by
      refine (h.sound.rooted _ htop).trans ?_
      simp [Tour.path, Stance.top, hf]
    obtain ⟨q', hq', h0, h0'⟩ := h.sound.ground _ htop m hlast
    obtain rfl : q.outline = q' := Option.some.inj (ho.symm.trans hq')
    rw [SourceText.outline_dfsIndex hwalked] at h0
    rw [SourceText.outline_dfsAncestorIndex hwalked] at h0'
    simp [Store.isComponentRoot, hq, h0, h0'] at hroot
  obtain ⟨r, hr⟩ := source_of_frames h (f := f) (hf ▸ List.mem_cons_self)
  unfold back
  simp only [hf, leave, hr, hq]
  by_cases hlead : leadsBack q.status r.status = true
  · rw [if_pos hlead]
    exact .single (.leaveBack (.inr ⟨rfl, hroot⟩) hf hr hq hlead)
  rw [if_neg hlead]
  rw [Bool.not_eq_true] at hlead
  have hqs : q.status = .asyncSubgraphsSearching := by
    cases hs : q.status <;> simp [hs, Status.isWalked, leadsBack] at hwalked hlead ⊢
  rw [if_pos hqs]
  exact .single (.leaveSearched (.inr ⟨rfl, hroot⟩) hf hr hq hlead hqs)

/-- A module with which the walk is through is on its stack. -/
theorem closesComponent_eq (h : Valid ⟨s, ⟨goal, .through m, w⟩ :: T, F, X, [], [], H⟩) :
    closesComponent s w m = s.isComponentRoot m := by
  have hmem : m ∈ w.stack := (h.sound.path _ List.mem_cons_self).subset List.mem_cons_self
  simp [closesComponent, hmem]

/-- The walk takes a component off its stack and goes on. -/
theorem pop_lands (mode : Mode) (h : Valid ⟨s, ⟨goal, .through m, w⟩ :: T, F, X, [], [], H⟩)
    (hroot : s.isComponentRoot m = true) :
    ∃ above below, w.stack = above ++ m :: below ∧ m ∉ above ∧ m ∉ below ∧
      Valid ⟨s.completeMembers m (above ++ [m]), ⟨goal, .back m, { w with stack := below }⟩ :: T, F,
        X, [], [], H⟩ ∧
      ((back (s.completeMembers m (above ++ [m])) { w with stack := below } m).2.Fenced mode s →
        Moves mode ⟨s, ⟨goal, .through m, w⟩ :: T, F, X, [], [], H⟩
          ((back (s.completeMembers m (above ++ [m])) { w with stack := below } m).2.lands
            (back (s.completeMembers m (above ++ [m])) { w with stack := below } m).1 goal T F X
            H)) := by
  have htop : (⟨goal, .through m, w⟩ : Tour) ∈ (⟨goal, .through m, w⟩ :: T : List Tour) :=
    List.mem_cons_self
  have hmem : m ∈ w.stack := (h.sound.path _ htop).subset List.mem_cons_self
  obtain ⟨above, below, hstack, hnot⟩ := List.eq_append_cons_of_mem hmem
  have hmove : Move mode ⟨s, ⟨goal, .through m, w⟩ :: T, F, X, [], [], H⟩ _ := .pop hstack hnot hroot
  have hvalid := hmove.valid h
  refine ⟨above, below, hstack, hnot, ?_, hvalid, fun hfence ↦
    .head hmove (back_lands hvalid ((SameParents.completeMembers s m _).fenced hfence))⟩
  have hnodup : (above ++ m :: below).Nodup := hstack ▸ (List.nodup_append.1 h.sound.stacked).1
  exact (List.nodup_cons.1 (List.nodup_append.1 hnodup).2.1).1

theorem concludeExecuted_lands (h : Valid ⟨s, ⟨goal, .through m, w⟩ :: T, F, X, [], [], H⟩)
    (hfence : (concludeExecuted s w m).2.Fenced mode s) :
    Moves mode ⟨s, ⟨goal, .through m, w⟩ :: T, F, X, [], [], H⟩
      ((concludeExecuted s w m).2.lands (concludeExecuted s w m).1 goal T F X H) := by
  unfold concludeExecuted at hfence ⊢
  rw [closesComponent_eq h] at hfence ⊢
  cases hroot : s.isComponentRoot m with
  | false => exact through_lands h hroot
  | true =>
    obtain ⟨above, below, hstack, hnot, hnot', hvalid, hmoves⟩ := pop_lands mode h hroot
    simp only [hroot, if_true, hstack, popExecuted_append s hnot'] at hfence ⊢
    have := dropWhile_settling hvalid
    dsimp only at this
    rw [this] at hfence ⊢
    exact hmoves hfence

theorem concludeSearched_eq (s : Store) (w : EvaluationWalk) (m : ModuleId) :
    concludeSearched s w m =
      if closesComponent (s.holdSearched m) w m then
        back (popSearched (s.holdSearched m) m w.stack).1
          { w with stack := (popSearched (s.holdSearched m) m w.stack).2 } m
      else back (s.holdSearched m) w m := rfl

theorem concludeSearched_lands
    (h : Valid ⟨s.holdSearched m, ⟨goal, .through m, w⟩ :: T, F, X, [], [], H⟩)
    (hfence : (concludeSearched s w m).2.Fenced mode s) :
    Moves mode ⟨s.holdSearched m, ⟨goal, .through m, w⟩ :: T, F, X, [], [], H⟩
      ((concludeSearched s w m).2.lands (concludeSearched s w m).1 goal T F X H) := by
  have hhold : SameParents s (s.holdSearched m) := .modifySource s m fun r ↦ by
    split <;> exact ⟨rfl, id⟩
  replace hfence := hhold.fenced hfence
  rw [concludeSearched_eq, closesComponent_eq h] at hfence ⊢
  cases hroot : (s.holdSearched m).isComponentRoot m with
  | false => exact through_lands h hroot
  | true =>
    obtain ⟨above, below, hstack, hnot, -, -, hmoves⟩ := pop_lands mode h hroot
    rw [hroot, if_pos rfl, hstack, popSearched_append _ below hnot] at hfence
    rw [if_pos rfl, hstack, popSearched_append _ below hnot]
    exact hmoves hfence

/-! ## Steps of a walk -/

/-- The walk comes to the module in the next step. -/
def ComesTo (w : EvaluationWalk) (s : Store) (d : ModuleId) : Prop :=
  ∃ m t r requests rest, w.frames = ⟨m, t, r :: requests⟩ :: rest ∧ s.imported? m r = some d

/-- What has to hold of the store that a step leads to: no walk has entered a module that was being
searched, nor one to be searched, unless modules are; and what has been evaluated is represented by
the same module, unless modules come to stand for themselves. The predicate holds of the modules that
the walk may have come to. -/
structure Admits (mode : Mode) (D : ModuleId → Prop) (s s' : Store) : Prop where
  searched : ∀ x, D x → s.status? x = some .asyncSubgraphsSearching →
    s'.status? x ≠ some .evaluating
  searches : mode.searches ∨ ∀ x, s'.status? x ≠ some .asyncSubgraphsSearching
  roots : mode.detaches ∨ ∀ x, s.status? x = some .evaluated → s'.cycleRoot x = s.cycleRoot x

/-- Something was loaded for the request that the walk takes next. -/
def Loaded (s : Store) (w : EvaluationWalk) : Prop :=
  ∀ f r rest rs, w.frames = f :: rest → f.requests = r :: rs → (s.imported? f.module r).isSome

/-- A module does not come to stand for itself if it is represented by the same module later on. -/
theorem sameRoots_detach {w : EvaluationWalk}
    (h : s.status? d = some .evaluated → s'.cycleRoot d = s.cycleRoot d)
    (hs' : SameRoots (detach s w d) s') : SameRoots s (detach s w d) := by
  intro x
  by_cases hx : x = d
  · subst hx
    by_cases hs : s.status? x = some .evaluated
    · rw [← hs', h hs]
    · rw [detach, if_neg]
      simp [hs]
  · unfold detach
    split
    · unfold Store.cycleRoot
      rw [Store.source?_modifySource, if_neg hx]
    · rfl

theorem status?_push_self (hd : s.source? d = some r) (t : Traversal) :
    (push s w d t).1.status? d = some t.status := by
  unfold push
  rw [Store.status?_modifySource, if_pos rfl, hd]
  rfl

theorem arrive_lands {t : Traversal} (h : Valid ⟨s, ⟨goal, .coming d t, w⟩ :: T, F, X, [], [], H⟩)
    (hP : Admits mode (d = ·) s ((arrive s w d t).2.next (arrive s w d t).1 goal).1)
    (hfence : (arrive s w d t).2.Fenced mode s) :
    Moves mode ⟨s, ⟨goal, .coming d t, w⟩ :: T, F, X, [], [], H⟩
      ((arrive s w d t).2.lands (arrive s w d t).1 goal T F X H) := by
  unfold arrive at hP hfence ⊢
  rcases hd : s.source? d with _ | r
  · exact .single (.synthetic hd)
  simp only [hd] at hP hfence
  simp only
  rcases ha : r.arrival t with _ | e | t'
  · simp only [ha] at hP hfence
    have hroots : mode.detaches ∨
        SameRoots s (if r.traversal t = .executing then detach s w d else s) := by
      refine hP.roots.imp id fun hroots ↦ ?_
      split at hroots
      · next ht =>
        rw [if_pos ht]
        exact sameRoots_detach (hroots d) ((SameRoots.back _ w d).trans (.next _ goal _))
      · next ht =>
        rw [if_neg ht]
        exact .of_modules rfl
    have hmove : Move mode ⟨s, ⟨goal, .coming d t, w⟩ :: T, F, X, [], [], H⟩ _ :=
      .pass hd ha hroots
    refine .head hmove (back_lands (hmove.valid h) ?_)
    have hparents : SameParents s (if r.traversal t = .executing then detach s w d else s) := by
      unfold detach
      split
      · split
        · exact .modifySource s d fun _ ↦ ⟨rfl, id⟩
        · exact .of_modules rfl
      · exact .of_modules rfl
    exact hparents.fenced hfence
  · simp only [ha] at hfence
    obtain ⟨hfails, hclosed⟩ := hfence e w.stack rfl
    exact .single (.fail e hclosed (.coming hd ha) hfails)
  · simp only [ha] at hP
    have hP : Admits mode (d = ·) s (push s w d t').1 := hP
    refine .single (.enter hd ha (fun hs ↦ ?_) fun ht ↦ ?_)
    · have htraversal : t' = .executing := by
        obtain ⟨-, hstatus⟩ := SourceText.arrival_eq_enter ha
        simpa [hs, Status.outline] using hstatus
      refine hP.searched d rfl (by simp [Store.status?, hd, hs]) ?_
      rw [status?_push_self hd, htraversal]
      rfl
    · refine hP.searches.resolve_right fun hno ↦ hno d ?_
      rw [status?_push_self hd, ht]
      rfl

theorem execute_lands {rest : List EvaluationFrame}
    (h : Valid ⟨s, ⟨goal, .here, w⟩ :: T, F, X, [], [], H⟩)
    (hf : w.frames = ⟨m, .executing, []⟩ :: rest)
    (hfence : (execute s { w with frames := rest } m).2.Fenced mode s) :
    Moves mode ⟨s, ⟨goal, .here, w⟩ :: T, F, X, [], [], H⟩
      ((execute s { w with frames := rest } m).2.lands
        (execute s { w with frames := rest } m).1 goal T F X H) := by
  obtain ⟨r, hr, -⟩ := h.sound.lawful_top hf
  simp only [execute, hr] at hfence ⊢
  by_cases hpos : 0 < r.pendingAsync
  · rw [if_pos hpos] at hfence ⊢
    have hmove : Move mode ⟨s, ⟨goal, .here, w⟩ :: T, F, X, [], [], H⟩ _ := .hold hf hr hpos
    have hhold : SameParents s (s.holdModule m) := .modifySource s m fun _ ↦ ⟨rfl, id⟩
    exact .head hmove (concludeExecuted_lands (hmove.valid h) (hhold.fenced hfence))
  have h0 : r.pendingAsync = 0 := by omega
  rw [if_neg hpos]
  cases hw : r.entries.awaits with
  | true => exact .single (.runAsync hf hr h0 hw)
  | false => exact .single (.run hf hr h0 hw)

theorem advance_lands (h : Valid ⟨s, ⟨goal, .here, w⟩ :: T, F, X, [], [], H⟩)
    (hP : Admits mode (w.ComesTo s) s ((w.advance s).2.next (w.advance s).1 goal).1)
    (hfence : (w.advance s).2.Fenced mode s) (hloaded : mode.skips ∨ w.Loaded s) :
    Moves mode ⟨s, ⟨goal, .here, w⟩ :: T, F, X, [], [], H⟩
      ((w.advance s).2.lands (w.advance s).1 goal T F X H) := by
  obtain ⟨frames, stack, index⟩ := w
  rcases frames with _ | ⟨⟨m, t, requests⟩, rest⟩
  · exact .single (.done rfl)
  rcases requests with _ | ⟨r, requests⟩
  · cases t with
    | executing => exact execute_lands h rfl hfence
    | searching =>
      have hmove : Move mode ⟨s, ⟨goal, .here, ⟨⟨m, .searching, []⟩ :: rest, stack, index⟩⟩ :: T, F,
          X, [], [], H⟩ _ := .search rfl
      exact .head hmove (concludeSearched_lands (hmove.valid h) hfence)
  · rcases hi : s.imported? m r with _ | d
    · have heq : EvaluationWalk.advance s ⟨⟨m, t, r :: requests⟩ :: rest, stack, index⟩ =
          (s, .go ⟨⟨m, t, requests⟩ :: rest, stack, index⟩) := by
        cases t <;> simp only [advance, hi]
      rw [heq]
      refine .single (.unloaded rfl hi (hloaded.resolve_right fun hloaded ↦ ?_))
      have := hloaded _ r rest requests rfl rfl
      simp [hi] at this
    · have heq : EvaluationWalk.advance s ⟨⟨m, t, r :: requests⟩ :: rest, stack, index⟩ =
          arrive s ⟨⟨m, t, requests⟩ :: rest, stack, index⟩ d (nextTraversal t r) := by
        cases t <;> simp only [advance, hi]
      rw [heq] at hP hfence ⊢
      have hmove : Move mode ⟨s, ⟨goal, .here, ⟨⟨m, t, r :: requests⟩ :: rest, stack, index⟩⟩ :: T,
          F, X, [], [], H⟩ _ := .request rfl hi
      refine .head hmove (arrive_lands (hmove.valid h) ⟨?_, hP.searches, hP.roots⟩ hfence)
      rintro x rfl
      exact hP.searched d ⟨m, t, r, requests, rest, rfl, hi⟩

/-- The walk goes on when a module has been executed. -/
theorem executed_lands {capability : Option PromiseId} {c : Completion}
    (h : Valid ⟨s, ⟨goal, .running m, w⟩ :: T, F, X, [], [], H⟩) (hb : .began m capability ∈ H)
    (hfence : (w.executed s m capability c).2.Fenced mode s) :
    Moves mode ⟨s, ⟨goal, .running m, w⟩ :: T, F, X, [], [], H⟩
      ((executed s w m capability c).2.lands (executed s w m capability c).1 goal T F X
        (.ended m capability c :: H)) := by
  rcases c with e | ⟨⟩
  · rcases capability with _ | p
    · obtain ⟨hfails, hclosed⟩ := hfence e w.stack rfl
      exact .head (.failed e hb hfails)
        (.single (.fail e hclosed (.running List.mem_cons_self) hfails))
    · have hmove : Move mode ⟨s, ⟨goal, .running m, w⟩ :: T, F, X, [], [], H⟩ _ :=
        .ended hb (c := .error e) (.inr rfl)
      have hv := hmove.valid h
      have haside : Apart s (s.reject p e) := .settle s p _
      have hmove' : Move mode ⟨s, ⟨goal, .through m, w⟩ :: T, F, X, [], [],
          .ended m (some p) (.error e) :: H⟩ _ :=
        .aside haside.afar (.inr haside.steady.imported)
      have hparents : SameParents s (s.reject p e) := .of_modules (s.modules_settle p _)
      exact .head hmove (.head hmove'
        (concludeExecuted_lands (hmove'.valid hv) (hparents.fenced hfence)))
  · have hmove : Move mode ⟨s, ⟨goal, .running m, w⟩ :: T, F, X, [], [], H⟩ _ :=
      .ended hb (c := .ok ()) (.inl rfl)
    exact .head hmove (concludeExecuted_lands (hmove.valid h) hfence)

end EvaluationWalk

end EcmaModules
