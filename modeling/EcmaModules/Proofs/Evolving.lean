import EcmaModules.Proofs.Spreading

/-!
# Evaluating everything that is requested

When all requests are for evaluation, walks execute whatever they come to and nothing is searched.
Then the statuses of a module follow each other in one way only, and once its component is complete,
the module keeps the root that stands for it, provided that no module comes to stand for itself.

This is what the runs are like in which cycles are dealt with as a whole.
-/

namespace EcmaModules

/-! ## How a module evolves -/

/-- The module has to do with searching. -/
def Status.isSearched : Status → Bool
  | .asyncSubgraphsSearching | .asyncSubgraphsSearchingAsync | .asyncSubgraphsEvaluated => true
  | _ => false

@[simp] theorem Status.isSearched_outline (s : Status) : s.outline.isSearched = s.isSearched := by
  cases s <;> rfl

/-- Nothing changes by which a module evolves. -/
structure SourceText.Persists (r r' : SourceText) : Prop where
  entries : r'.entries = r.entries
  capability : r'.capability = r.capability
  status : r'.status = r.status
  cycleRoot : r'.cycleRoot = r.cycleRoot
  evaluationError : r'.evaluationError = r.evaluationError
  index : r'.dfsIndex = r.dfsIndex
  ancestor : r'.dfsAncestorIndex ≤ r.dfsAncestorIndex
  loaded : r'.loaded = r.loaded

/-- What may become of a module when nothing is searched. -/
structure SourceText.Evolves (r r' : SourceText) : Prop where
  entries : r'.entries = r.entries
  capability : r.capability.isSome → r'.capability = r.capability
  settling : r.status.isSettling = true → r'.status.isSettling = true ∧ r'.cycleRoot = r.cycleRoot
  hasFailed : r.hasFailed → r'.hasFailed ∧ r'.evaluationError = r.evaluationError
  represented : r'.status.isSettling = true → r'.evaluationError = none → r'.cycleRoot.isSome ∨
    r.status.isSettling = true ∧ r.evaluationError = none
  searched : r'.status.isSearched = true → r.status.isSearched = true

/-- What may become of a module when, moreover, no component is complete. -/
structure SourceText.Rests (r r' : SourceText) : Prop extends r.Evolves r' where
  cycleRoot : r'.cycleRoot = r.cycleRoot
  index : r.status.isWalked = true → r'.dfsIndex = r.dfsIndex
  ancestor : r.status.isWalked = true → r'.dfsAncestorIndex ≤ r.dfsAncestorIndex

theorem SourceText.Persists.refl (r : SourceText) : r.Persists r :=
  ⟨rfl, rfl, rfl, rfl, rfl, rfl, Nat.le_refl _, rfl⟩

theorem SourceText.Persists.trans {r r' r'' : SourceText} (h : r.Persists r')
    (h' : r'.Persists r'') : r.Persists r'' :=
  ⟨h'.entries.trans h.entries, h'.capability.trans h.capability, h'.status.trans h.status,
    h'.cycleRoot.trans h.cycleRoot, h'.evaluationError.trans h.evaluationError,
    h'.index.trans h.index, h'.ancestor.trans h.ancestor, h'.loaded.trans h.loaded⟩

theorem SourceText.Evolves.trans {r r' r'' : SourceText} (h : r.Evolves r') (h' : r'.Evolves r'') :
    r.Evolves r'' where
  entries := h'.entries.trans h.entries
  capability hs := by
    have heq := h.capability hs
    exact (h'.capability (heq ▸ hs)).trans heq
  settling hs := by
    obtain ⟨hs', heq⟩ := h.settling hs
    obtain ⟨hs'', heq'⟩ := h'.settling hs'
    exact ⟨hs'', heq'.trans heq⟩
  hasFailed hf := by
    obtain ⟨hf', heq⟩ := h.hasFailed hf
    obtain ⟨hf'', heq'⟩ := h'.hasFailed hf'
    exact ⟨hf'', heq'.trans heq⟩
  represented hs'' he'' := by
    rcases h'.represented hs'' he'' with hc | ⟨hs', he'⟩
    · exact .inl hc
    · refine (h.represented hs' he').imp (fun hc ↦ ?_) id
      rwa [(h'.settling hs').2]
  searched hs := h.searched (h'.searched hs)

/-- A module whose component is complete settles. -/
theorem SourceText.isSettling_complete {r : SourceText} (root : ModuleId)
    (hs : r.status = .evaluating) : (r.complete root).status.isSettling = true := by
  change (EvaluationWalk.completeStatus r).isSettling = true
  by_cases hp : r.asyncState = .pending <;>
    simp [EvaluationWalk.completeStatus, hs, hp, Status.isSettling]

theorem SourceText.Evolves.complete {r : SourceText} (root : ModuleId)
    (hs : r.status = .evaluating) : r.Evolves (r.complete root) := by
  have hstatus := SourceText.isSettling_complete root hs
  refine ⟨rfl, fun _ ↦ rfl, ?_, ?_, fun _ _ ↦ .inl rfl, fun hsearched ↦ ?_⟩
  · rw [hs]
    exact nofun
  · rintro ⟨hover, -⟩
    exact nomatch hs.symm.trans hover
  · cases hc : (r.complete root).status <;> rw [hc] at hstatus hsearched <;>
      simp [Status.isSettling, Status.isSearched] at hstatus hsearched

namespace SourceText.Rests

variable {r r' : SourceText}

theorem of_persists (h : r.Persists r') : r.Rests r' := by
  refine ⟨⟨h.entries, fun _ ↦ h.capability, ?_, ?_, ?_, ?_⟩, h.cycleRoot, fun _ ↦ h.index,
    fun _ ↦ h.ancestor⟩
  · rw [h.status]
    exact fun hs ↦ ⟨hs, h.cycleRoot⟩
  · unfold SourceText.hasFailed
    rw [h.status, h.evaluationError]
    exact fun hf ↦ ⟨hf, rfl⟩
  · rw [h.status, h.evaluationError]
    exact fun hs he ↦ .inr ⟨hs, he⟩
  · rw [h.status]
    exact id

theorem refl (r : SourceText) : r.Rests r := of_persists (.refl r)

theorem of_outline (h : r'.outline = r.outline) : r.Rests r' := by
  have hstatus : r'.status.outline = r.status.outline := congrArg (·.status) h
  have hsettling : r'.status.isSettling = r.status.isSettling := by
    rw [← Status.isSettling_outline, hstatus, Status.isSettling_outline]
  have hwalked : r'.status.isWalked = r.status.isWalked := by
    rw [← Status.isWalked_outline, hstatus, Status.isWalked_outline]
  have hroot : r'.cycleRoot = r.cycleRoot := (congrArg (·.cycleRoot) h :)
  have herror : r'.evaluationError = r.evaluationError := (congrArg (·.evaluationError) h :)
  refine ⟨⟨(congrArg (·.entries) h :), fun _ ↦ (congrArg (·.capability) h :), ?_, ?_, ?_, ?_⟩,
    hroot, fun hw ↦ ?_, fun hw ↦ ?_⟩
  · rw [hsettling]
    exact fun hs ↦ ⟨hs, hroot⟩
  · rintro ⟨hs, he⟩
    refine ⟨⟨?_, herror ▸ he⟩, herror⟩
    rw [← Status.outline_eq_evaluated, hstatus, Status.outline_eq_evaluated, hs]
  · rw [hsettling, herror]
    exact fun hs he ↦ .inr ⟨hs, he⟩
  · rw [← Status.isSearched_outline, hstatus, Status.isSearched_outline]
    exact id
  · rw [← SourceText.outline_dfsIndex hw, ← SourceText.outline_dfsIndex (hwalked.trans hw), h]
  · rw [← SourceText.outline_dfsAncestorIndex hw,
      ← SourceText.outline_dfsAncestorIndex (hwalked.trans hw), h]

/-- A module that is not over fails. -/
theorem fails (hs : r.status ≠ .evaluated) (hs' : r'.status = .evaluated)
    (he : r'.evaluationError.isSome) (h : r'.entries = r.entries ∧ r'.capability = r.capability ∧
      r'.cycleRoot = r.cycleRoot ∧ r'.dfsIndex = r.dfsIndex ∧
      r'.dfsAncestorIndex = r.dfsAncestorIndex) : r.Rests r' := by
  obtain ⟨h1, h2, h3, h4, h5⟩ := h
  refine ⟨⟨h1, fun _ ↦ h2, fun _ ↦ ⟨?_, h3⟩, fun hf ↦ absurd hf.1 hs, fun _ hnone ↦ ?_, ?_⟩, h3,
    fun _ ↦ h4, fun _ ↦ h5.le⟩
  · rw [hs']
    rfl
  · rw [hnone] at he
    exact nomatch he
  · rw [hs']
    exact nofun

/-- A module that settles has finished. -/
theorem finish (hs : r.status.isSettling = true) :
    r.Rests { r with asyncState := .settled, status := .evaluated } :=
  ⟨⟨rfl, fun _ ↦ rfl, fun _ ↦ ⟨rfl, rfl⟩, fun hf ↦ ⟨⟨rfl, hf.2⟩, rfl⟩, fun _ he ↦ .inr ⟨hs, he⟩,
    nofun⟩, rfl, fun _ ↦ rfl, fun _ ↦ Nat.le_refl _⟩

end SourceText.Rests

namespace Store

/-- Nothing changes by which modules evolve. -/
def Persists : Store → Store → Prop := Each SourceText.Persists

/-- The modules of a store evolve. -/
def Evolves : Store → Store → Prop := Each SourceText.Evolves

/-- The modules of a store evolve, and no component is complete. What was loaded for requests has not
changed. -/
structure Rests (s s' : Store) : Prop where
  each : s.Each SourceText.Rests s'
  grows : Grows s s'

/-- Moreover, no evaluation starts. -/
structure Keeps (s s' : Store) : Prop extends s.Rests s' where
  capability : ∀ x, s'.capability? x = s.capability? x

/-- Whoever settles without an error is represented by a module. -/
def Represented (s : Store) : Prop :=
  ∀ x r, s.source? x = some r → r.status.isSettling = true → r.evaluationError = none →
    r.cycleRoot.isSome

namespace Persists

variable {s s' s'' : Store}

theorem refl (s : Store) : s.Persists s := Each.refl .refl s

theorem trans (h : s.Persists s') (h' : s'.Persists s'') : s.Persists s'' :=
  Each.trans (fun _ _ _ ↦ .trans) h h'

theorem of_modules (h : s'.modules = s.modules) : s.Persists s' := Each.of_modules .refl h

theorem modifySource (s : Store) (m : ModuleId) {f : SourceText → SourceText}
    (hf : ∀ r : SourceText, r.Persists (f r)) : s.Persists (s.modifySource m f) :=
  Each.modifySource .refl s m fun r _ ↦ hf r

theorem await (s : Store) (m d : ModuleId) : s.Persists (EvaluationWalk.await s m d) := by
  rcases EvaluationWalk.await_cases s m d with h | ⟨_, _, _, _, _, _, h⟩
  · rw [h]
    exact refl s
  · rw [h]
    refine trans (modifySource s m ?_) (modifySource _ d ?_)
    all_goals exact fun _ ↦ ⟨rfl, rfl, rfl, rfl, rfl, rfl, Nat.le_refl _, rfl⟩

theorem lowerAncestor (s : Store) (m : ModuleId) (i : Nat) : s.Persists (s.lowerAncestor m i) :=
  modifySource s m fun _ ↦ ⟨rfl, rfl, rfl, rfl, rfl, rfl, Nat.min_le_left _ _, rfl⟩

theorem holdModule (s : Store) (m : ModuleId) : s.Persists (s.holdModule m) :=
  modifySource s m fun _ ↦ ⟨rfl, rfl, rfl, rfl, rfl, rfl, Nat.le_refl _, rfl⟩

theorem startAsync (s : Store) (m : ModuleId) : s.Persists (s.startAsync m).2 :=
  (holdModule s m).trans (of_modules (modules_react _ _ _))

theorem lessen (s : Store) (m : ModuleId) : s.Persists (s.lessen m) :=
  modifySource s m fun _ ↦ ⟨rfl, rfl, rfl, rfl, rfl, rfl, Nat.le_refl _, rfl⟩

end Persists

theorem Rests.evolves {s s' : Store} (h : s.Rests s') : s.Evolves s' :=
  h.each.mono fun _ _ hr ↦ hr.toEvolves

theorem Rests.of_each {s s' : Store}
    (h : s.Each (fun r r' ↦ r.Rests r' ∧ r'.loaded = r.loaded) s') : s.Rests s' := by
  refine ⟨h.mono fun _ _ hr ↦ hr.1, fun x q d hd ↦ ?_⟩
  rwa [SameImports.of_each (h.mono fun _ _ hr ↦ hr.2)]

/-- The promises of evaluations stay what they are. -/
theorem capability?_of_each {s s' : Store}
    (h : s.Each (fun r r' ↦ r'.capability = r.capability) s') (x : ModuleId) :
    s'.capability? x = s.capability? x := by
  have hx := h x
  unfold capability?
  revert hx
  cases s.source? x <;> cases s'.source? x <;> rintro ⟨⟩
  · rfl
  · next hr => exact hr

theorem source?_newCapability (s : Store) (root x : ModuleId) :
    (s.newCapability root).2.source? x = if x = root then
      (s.source? x).map fun r ↦ { r with capability := some (s.newCapability root).1 }
    else s.source? x :=
  source?_modifySource s.newPromise.2 root _ x

theorem capability?_newCapability (s : Store) (root x : ModuleId) :
    (s.newCapability root).2.capability? x = if x = root then
      (s.source? x).map fun _ ↦ (s.newCapability root).1
    else s.capability? x := by
  rw [capability?, source?_newCapability]
  split
  · cases s.source? x <;> rfl
  · rfl

namespace Keeps

variable {s s' : Store}

theorem of_each (h : s.Each (fun r r' ↦ r.Rests r' ∧ r'.loaded = r.loaded ∧
    r'.capability = r.capability) s') : s.Keeps s' :=
  ⟨.of_each (h.mono fun _ _ hr ↦ ⟨hr.1, hr.2.1⟩), capability?_of_each (h.mono fun _ _ hr ↦ hr.2.2)⟩

theorem of_persists (h : s.Persists s') : s.Keeps s' :=
  of_each (h.mono fun _ _ hr ↦ ⟨.of_persists hr, hr.loaded, hr.capability⟩)

theorem refl (s : Store) : s.Keeps s := of_persists (.refl s)

theorem of_modules (h : s'.modules = s.modules) : s.Keeps s' := of_persists (.of_modules h)

theorem of_source (h : ∀ x, s'.source? x = s.source? x) : s.Keeps s' := of_each fun x ↦ by
  rw [h x]
  exact Each.refl (fun r ↦ ⟨.refl r, rfl, rfl⟩) s x

theorem of_outline (h : s'.outline = s.outline) (hg : Grows s s') : s.Keeps s' :=
  ⟨⟨(Each.of_outline h).mono fun _ _ ↦ .of_outline, hg⟩, capability?_of_each <|
    (Each.of_outline h).mono fun _ _ hr ↦ (congrArg (·.capability) hr :)⟩

end Keeps

namespace Evolves

variable {s s' s'' : Store}

theorem refl (s : Store) : s.Evolves s := (Keeps.refl s).toRests.evolves

theorem trans (h : s.Evolves s') (h' : s'.Evolves s'') : s.Evolves s'' :=
  Each.trans (fun _ _ _ ↦ .trans) h h'

theorem represented (h : s.Evolves s') (hs : s.Represented) : s'.Represented := by
  intro x r' hr' hsettling he
  obtain ⟨r, hr, hevolves⟩ := h.before hr'
  rcases hevolves.represented hsettling he with hc | ⟨hs₀, he₀⟩
  · exact hc
  · rw [(hevolves.settling hs₀).2]
    exact hs x r hr hs₀ he₀

/-- A component is complete. -/
theorem completeMembers {ms : List ModuleId} (hnodup : ms.Nodup)
    (hs : ∀ x ∈ ms, ∀ r, s.source? x = some r → r.status = .evaluating) (root : ModuleId) :
    s.Evolves (s.completeMembers root ms) := fun x ↦ by
  rw [source?_completeMembers s hnodup]
  split
  · next hmem =>
    rcases hr : s.source? x with _ | r
    · exact .none
    · exact .some (.complete root (hs x hmem r hr))
  · exact refl s x

end Evolves

theorem Rests.newCapability {s : Store} {root : ModuleId} (h : s.capability? root = none) :
    s.Rests (s.newCapability root).2 := by
  have hrests : s.newPromise.2.Rests (s.newCapability root).2 := by
    refine .of_each (Each.modifySource (fun r ↦ ⟨.refl r, rfl⟩) _ root fun r hr ↦ ⟨?_, rfl⟩)
    have hnone : r.capability = none := by
      have hr : s.source? root = some r := hr
      simpa [capability?, hr] using h
    exact ⟨⟨rfl, fun hs ↦ by simp [hnone] at hs, fun hs ↦ ⟨hs, rfl⟩, fun hf ↦ ⟨hf, rfl⟩,
      fun hs he ↦ .inr ⟨hs, he⟩, id⟩, rfl, fun _ ↦ rfl, fun _ ↦ Nat.le_refl _⟩
  exact ⟨hrests.each, hrests.grows⟩

namespace Keeps

variable {s s' : Store}

theorem finish (s : Store) (goal : EvaluationGoal) : s.Keeps (goal.finish s).1 := by
  refine of_outline (outline_finish s goal) fun x q d hd ↦ ?_
  rwa [SameImports.of_each ((Store.Stands.finish s goal).mono fun _ _ hr ↦ hr.loaded)]

theorem of_fails {e : ErrorId} (h : EcmaModules.Fails e s s') : s.Keeps s' := of_each fun x ↦ by
  rcases h x with hx | ⟨r, hr, hs, hx⟩
  · rw [hx]
    exact Each.refl (fun r ↦ ⟨.refl r, rfl, rfl⟩) s x
  · rw [hr, hx]
    exact .some ⟨.fails hs rfl rfl ⟨rfl, rfl, rfl, rfl, rfl⟩, rfl, rfl⟩

/-- A module that settles has finished. -/
theorem finishModule {m : ModuleId}
    (hs : ∀ r, s.source? m = some r → r.status.isSettling = true) :
    s.Keeps (s.finishModule m) := of_each fun x ↦ by
  rw [source?_finishModule]
  split
  · next hx =>
    subst hx
    rcases hr : s.source? x with _ | r
    · exact .none
    · exact .some ⟨.finish (hs r hr), rfl, rfl⟩
  · exact Each.refl (fun r ↦ ⟨.refl r, rfl, rfl⟩) s x

/-- Modules on the stack of a walk fail. -/
theorem fail {stack : List ModuleId} (hnodup : stack.Nodup)
    (hs : ∀ x ∈ stack, s.status? x ≠ some .evaluated) (e : ErrorId) (goal : EvaluationGoal) :
    s.Keeps (goal.fail s stack e).1 := of_each fun x ↦ by
  rw [goal.source?_fail s hnodup]
  split
  · next hmem =>
    rcases hr : s.source? x with _ | r
    · exact .none
    · refine .some ⟨.fails (fun hst ↦ hs x hmem ?_) rfl rfl ⟨rfl, rfl, rfl, rfl, rfl⟩, rfl, rfl⟩
      simp [status?, hr, hst]
  · exact Each.refl (fun r ↦ ⟨.refl r, rfl, rfl⟩) s x

end Keeps
end Store

/-! ## Nothing is searched -/

/-- All requests are for evaluation. -/
def Store.EvaluationOnly (s : Store) : Prop :=
  ∀ x r, s.source? x = some r → ∀ q ∈ r.entries.requests, q.phase = .evaluation

/-- What a module requests is clear from its entries. -/
theorem Store.evaluationOnly_of_all {s : Store} (h : ((List.range s.modules.size).all fun i ↦
    (s.entries ⟨i⟩).requests.all fun q ↦ q.phase == .evaluation) = true) : s.EvaluationOnly := by
  rintro ⟨i⟩ r hr q hq
  have hlt : i < s.modules.size := Store.index_lt_of_source (Option.isSome_of_mem hr)
  have hentries : s.entries ⟨i⟩ = r.entries := by simp [Store.entries, hr]
  have := List.all_eq_true.1 (List.all_eq_true.1 h i (List.mem_range.2 hlt)) q (hentries ▸ hq)
  simpa using this

/-- Walks execute whatever they come to. -/
structure Tour.Eager (τ : Tour) : Prop where
  frames : ∀ f ∈ τ.walk.frames, f.traversal = .executing ∧
    ∀ q ∈ f.requests, q.phase = .evaluation
  coming : ∀ d t, τ.stance = .coming d t → t = .executing

/-- All requests are for evaluation, and nothing is searched. -/
structure Scene.Eager (S : Scene) : Prop where
  requests : S.store.EvaluationOnly
  status : ∀ x r, S.store.source? x = some r → r.status.isSearched = false
  tours : ∀ τ ∈ S.tours, τ.Eager

/-! ## Moves -/

/-- A module that has begun and is on no walk settles. -/
theorem Sound.settling_of_begun {s : Store} {F X G : List ModuleId} {H : List Event} {m : ModuleId}
    (h : Sound s.outline [] F X G H) (hb : ∃ c, .began m c ∈ H) {r : SourceText}
    (hr : s.source? m = some r) : r.status.isSettling = true := by
  obtain ⟨-, U⟩ := h.unwalked (Store.outline_eq_some hr)
  have hsettles := U.begun hb
  simp only [SourceText.outline_status, Status.outline_eq_evaluated,
    Status.outline_eq_evaluatingAsync] at hsettles
  rcases hsettles with hs | ⟨-, hs, -⟩ | ⟨-, hs, -⟩ <;> rw [hs] <;> rfl

/-- What is on the stack of a walk is being executed, if nothing is searched. -/
theorem Sound.evaluating_of_mem_stack {s : Store} {T : List Tour} {F X G : List ModuleId}
    {H : List Event} {τ : Tour} {m : ModuleId} {r : SourceText} (h : Sound s.outline T F X G H)
    (hτ : τ ∈ T) (hm : m ∈ τ.walk.stack) (hr : s.source? m = some r)
    (hs : r.status.isSearched = false) : r.status = .evaluating := by
  have hwalked := (h.lawful m _ (Store.outline_eq_some hr)).stacked.1 ⟨τ, hτ, hm⟩
  rw [SourceText.outline_status, Status.isWalked_outline] at hwalked
  cases hst : r.status <;> simp [hst, Status.isWalked, Status.isSearched] at hwalked hs ⊢

/-- A module that is passed stands for itself afterwards only if it did before. -/
theorem Store.detach_eq {s : Store} {w : EvaluationWalk} {d : ModuleId} {t : Traversal}
    {r : SourceText} (hd : s.source? d = some r) (ha : r.arrival t = .pass) (hrep : s.Represented)
    (hroots : SameRoots s (EvaluationWalk.detach s w d)) (x : ModuleId) :
    (EvaluationWalk.detach s w d).source? x = s.source? x := by
  unfold EvaluationWalk.detach at hroots ⊢
  split at hroots
  · next hcond =>
    rw [if_pos hcond, source?_modifySource]
    split
    · next hx =>
      subst hx
      have hover : r.status = .evaluated := by
        simp only [Bool.and_eq_true, decide_eq_true_eq] at hcond
        simpa [status?, hd] using hcond.1
      have herror : r.evaluationError = none := by
        rcases he : r.evaluationError with _ | e
        · rfl
        · simp [SourceText.arrival, hover, he] at ha
      obtain ⟨c, hc⟩ := Option.isSome_iff_exists.1 (hrep x r hd (by rw [hover]; rfl) herror)
      have hsame := hroots x
      simp only [cycleRoot, source?_modifySource, if_pos, hd, Option.map_some, Option.bind_some, hc,
        Option.getD_some] at hsame
      rw [hd, Option.map_some, hsame, ← hc]
    · rfl
  · next hcond => rw [if_neg hcond]

/-- A module that a walk passes settles and has no error, unless it is being executed. -/
theorem SourceText.settling_of_pass {r : SourceText} (h : r.arrival .executing = .pass)
    (hs : r.status ≠ .evaluating) : r.status.isSettling = true ∧ r.evaluationError = none := by
  unfold arrival traversal at h
  cases hst : r.status <;> rcases he : r.evaluationError with _ | e <;>
    simp_all [Status.isSettling]

theorem SourceText.not_settling_of_enter {r : SourceText} {t t' : Traversal}
    (h : r.arrival t = .enter t') : r.status.isSettling = false := by
  obtain ⟨-, hs⟩ := SourceText.arrival_eq_enter h
  cases hr : r.status <;> simp [hr, Status.outline, Status.isSettling] at hs ⊢

theorem SourceText.traversal_of_enter {r : SourceText} {t' : Traversal}
    (h : r.arrival .executing = .enter t') : t' = .executing := by
  unfold arrival traversal at h
  cases hs : r.status <;> rcases he : r.evaluationError with _ | e <;> simp_all

/-- A component is complete. -/
def Scene.Completes (S S' : Scene) : Prop :=
  ∃ goal w T above m below, S.tours = ⟨goal, .through m, w⟩ :: T ∧
    (w.stack = above ++ m :: below ∧ m ∉ above ∧ S.store.isComponentRoot m = true) ∧
    S'.tours = ⟨goal, .back m, { w with stack := below }⟩ :: T ∧
    S'.store = S.store.completeMembers m (above ++ [m])

/-- An evaluation starts. -/
def Scene.Starts (S S' : Scene) : Prop :=
  ∃ m root, (S.store.source? m).isSome ∧ S.store.evaluationRoot m = root ∧
    S.store.capability? root = none ∧ S.tours = [] ∧
    S'.tours = [⟨.promise root (S.store.newCapability root).1, .coming root .executing, {}⟩] ∧
    S'.store = (S.store.newCapability root).2

/-- A walk passes over a module, which may come to stand for itself. -/
def Scene.Passes (mode : Mode) (S S' : Scene) : Prop :=
  ∃ goal w T d t r, S.tours = ⟨goal, .coming d t, w⟩ :: T ∧ S.store.source? d = some r ∧
    r.arrival t = .pass ∧ (mode.detaches ∨ SameRoots S.store S'.store) ∧
    S'.store = if r.traversal t = .executing then EvaluationWalk.detach S.store w d
      else S.store

/-- What a move does to the modules, if nothing is searched. -/
theorem Move.keeps_or_passes {mode : Mode} {S S' : Scene} (hmove : Move mode S S') (hv : Valid S)
    (he : S.Eager) :
    S.store.Keeps S'.store ∨ S.Starts S' ∨ S.Completes S' ∨ S.Passes mode S' := by
  have hs := hv.sound
  induction hmove with
  | @pop s goal w m above below T F X G J H hstack hnot hroot =>
    exact .inr (.inr (.inl ⟨goal, w, T, above, m, below, rfl, ⟨hstack, hnot, hroot⟩, rfl, rfl⟩))
  | aside ha _ => exact .inl (.of_outline ha.outline ha.grows)
  | @evaluate s m root H hm hroot hcap => exact .inr (.inl ⟨m, root, hm, hroot, hcap, rfl, rfl, rfl⟩)
  | @pass s goal w t T F X G J H d r hd ha hroots =>
    exact .inr (.inr (.inr ⟨goal, w, T, d, t, r, rfl, hd, ha, hroots, rfl⟩))
  | @enter s goal w t t' T F X G J H d r hd ha hnot hmode =>
    refine .inl (.of_each (Store.Each.modifySource (fun r ↦ ⟨.refl r, rfl, rfl⟩) s d
      fun q hq ↦ ⟨?_, rfl, rfl⟩))
    obtain rfl : r = q := Option.some.inj (hd.symm.trans hq)
    have hnot := SourceText.not_settling_of_enter ha
    obtain rfl := SourceText.traversal_of_enter
      ((he.tours _ List.mem_cons_self).coming d t rfl ▸ ha)
    have hwalked : r.status.isWalked = false := by
      have hsearched := he.status d r hd
      obtain ⟨-, hstatus⟩ := SourceText.arrival_eq_enter ha
      cases hr : r.status <;>
        simp [hr, Status.outline, Status.isWalked, Status.isSearched] at hstatus hsearched ⊢
    refine ⟨⟨rfl, fun _ ↦ rfl, fun h ↦ ?_, fun h ↦ ?_, by rintro ⟨⟩, by rintro ⟨⟩⟩, rfl,
      fun h ↦ ?_, fun h ↦ ?_⟩
    · exact absurd h (by simp [hnot])
    · exact absurd h.1 (SourceText.arrival_not_evaluated ha)
    · exact absurd h (by simp [hwalked])
    · exact absurd h (by simp [hwalked])
  | @leaveBack s goal st w f rest T F X G J H d r q hst hf hr hq hlead =>
    exact .inl (.of_persists ((Store.Persists.lowerAncestor s _ _).trans (.await _ _ _)))
  | leaveSearched hst hf hr hq hlead hqs => exact .inl (.of_persists (Store.Persists.await _ _ _))
  | leaveOff hf hr hq hlead hqs he => exact .inl (.of_persists (Store.Persists.await _ _ _))
  | hold hf hr hpos => exact .inl (.of_persists (Store.Persists.holdModule _ _))
  | runAsync hf hr h0 hw => exact .inl (.of_persists (Store.Persists.startAsync _ _))
  | search hf =>
    have := ((he.tours _ List.mem_cons_self).frames _ (hf ▸ List.mem_cons_self)).1
    contradiction
  | done hf => exact .inl (.finish _ _)
  | @fail s goal st w T F X G J H e _ _ =>
    refine .inl (.fail (List.nodup_append.1 hs.stacked).1 (fun x hx hover ↦ ?_) e goal)
    obtain ⟨r, hr, hst⟩ := Store.source?_of_status? hover
    have := hs.evaluating_of_mem_stack List.mem_cons_self hx hr (he.status x r hr)
    exact absurd (this.symm.trans hst) (by simp)
  | take hj => exact .inl (.of_modules rfl)
  | @fulfill s m r H hm hst =>
    obtain ⟨p, hp, -⟩ := hv.ledger.job m (.ok ()) (by simp)
    exact .inl (.finishModule fun q hq ↦ hs.settling_of_begun ⟨_, hp⟩ hq)
  | @reject s m e H => exact .inl (.of_fails (Store.fails_rejectModule s m e))
  | lessen hF hb hm h0 => exact .inl (.of_persists (Store.Persists.lessen _ _))
  | release hF hb hm h0 => exact .inl (.of_persists (Store.Persists.lessen _ _))
  | @pastSearched s m r F H hm hw hst =>
    have := he.status m r hm
    simp [hst, Status.isSearched] at this
  | freeAsync hm hst hw => exact .inl (.of_persists (Store.Persists.startAsync _ _))
  | @freed s m F H =>
    obtain ⟨-, -, -, hb⟩ := hs.lone m (List.mem_singleton.2 rfl)
    exact .inl (.finishModule fun q hq ↦ hs.settling_of_begun hb hq)
  | @freedError s m e F H => exact .inl (.of_fails (Store.fails_rejectModule s m e))
  | _ => exact .inl (.refl _)

/-- What a move does to the modules, if nothing is searched and nobody comes to stand for itself. -/
theorem Move.keeps {mode : Mode} {S S' : Scene} (hmove : Move mode S S') (hmode : ¬mode.detaches)
    (hv : Valid S) (he : S.Eager) (hrep : S.store.Represented) :
    S.store.Keeps S'.store ∨ S.Starts S' ∨ S.Completes S' := by
  rcases hmove.keeps_or_passes hv he with h | h | h |
    ⟨goal, w, T, d, t, r, -, hd, ha, hroots, hstore⟩
  · exact .inl h
  · exact .inr (.inl h)
  · exact .inr (.inr h)
  · rw [hstore] at hroots ⊢
    refine .inl (.of_source fun x ↦ ?_)
    replace hroots := hroots.resolve_left hmode
    split at hroots
    · next ht =>
      rw [if_pos ht]
      exact Store.detach_eq hd ha hrep hroots x
    · next ht => rw [if_neg ht]

/-- In every move but those that complete a component modules rest. -/
theorem Move.rests {mode : Mode} {S S' : Scene} (hmove : Move mode S S') (hmode : ¬mode.detaches)
    (hv : Valid S) (he : S.Eager) (hrep : S.store.Represented) :
    S.store.Rests S'.store ∨ S.Completes S' := by
  rcases hmove.keeps hmode hv he hrep with h | ⟨m, root, -, -, hcap, -, -, hstore⟩ | h
  · exact .inl h.toRests
  · rw [hstore]
    exact .inl (.newCapability hcap)
  · exact .inr h

/-- When a component is complete, its modules have evolved. -/
theorem Scene.Completes.evolves {S S' : Scene} (h : S.Completes S') (hv : Valid S)
    (he : S.Eager) : S.store.Evolves S'.store := by
  obtain ⟨goal, w, T, above, m, below, hT, ⟨hstack, -, -⟩, -, hstore⟩ := h
  have hs := hv.sound
  rw [hT] at hs
  have hsub : (above ++ [m]).Sublist w.stack := by
    rw [hstack]
    exact (List.append_sublist_append_left above).2
      (List.singleton_sublist.2 List.mem_cons_self)
  rw [hstore]
  refine .completeMembers (hsub.nodup (List.nodup_append.1 hs.stacked).1) (fun x hx r hr ↦ ?_) m
  exact hs.evaluating_of_mem_stack List.mem_cons_self (hsub.subset hx) hr (he.status x r hr)

/-- In every move modules evolve. -/
theorem Move.evolves {mode : Mode} {S S' : Scene} (hmove : Move mode S S') (hmode : ¬mode.detaches)
    (hv : Valid S) (he : S.Eager) (hrep : S.store.Represented) : S.store.Evolves S'.store := by
  rcases hmove.rests hmode hv he hrep with h | h
  · exact h.evolves
  · exact h.evolves hv he

/-- In every move modules request what they did, and none comes to be searched. -/
theorem Move.unsearched {mode : Mode} {S S' : Scene} (hmove : Move mode S S') (hv : Valid S)
    (he : S.Eager) : S.store.Each (fun r r' ↦ r'.entries = r.entries ∧
      (r'.status.isSearched = true → r.status.isSearched = true)) S'.store := by
  have hevolved : S.store.Evolves S'.store → S.store.Each (fun r r' ↦ r'.entries = r.entries ∧
      (r'.status.isSearched = true → r.status.isSearched = true)) S'.store := fun h ↦
    h.mono fun _ _ hr ↦ ⟨hr.entries, hr.searched⟩
  rcases hmove.keeps_or_passes hv he with h | ⟨m, root, -, -, hcap, -, -, hstore⟩ | h |
    ⟨goal, w, T, d, t, r, -, -, -, -, hstore⟩
  · exact hevolved h.toRests.evolves
  · exact hevolved (hstore ▸ (Store.Rests.newCapability hcap).evolves)
  · exact hevolved (h.evolves hv he)
  · have hstands : S.store.Stands S'.store := by
      rw [hstore]
      split
      · exact .detach _ w d
      · exact .refl _
    exact hstands.mono fun _ _ hr ↦ ⟨hr.entries, fun h ↦ hr.status ▸ h⟩

/-- A walk goes on to nothing but what it was on the way to. -/
theorem Tour.Eager.keep {τ τ' : Tour} (h : τ.Eager)
    (hframes : ∀ f ∈ τ'.walk.frames, ∃ f₀ ∈ τ.walk.frames, f.traversal = f₀.traversal ∧
      f.requests ⊆ f₀.requests)
    (hcoming : ∀ d t, τ'.stance = .coming d t → t = .executing) : τ'.Eager := by
  refine ⟨fun f hf ↦ ?_, hcoming⟩
  obtain ⟨f₀, hf₀, ht, hq⟩ := hframes f hf
  obtain ⟨ht₀, hq₀⟩ := h.frames f₀ hf₀
  exact ⟨ht.trans ht₀, fun q hmem ↦ hq₀ q (hq hmem)⟩

theorem Tour.Eager.stance {goal : EvaluationGoal} {st st' : Stance} {w : EvaluationWalk}
    {stack : List ModuleId} (h : Tour.Eager ⟨goal, st, w⟩) (hst : ∀ d t, st' ≠ .coming d t) :
    Tour.Eager ⟨goal, st', { w with stack := stack }⟩ :=
  h.keep (fun f hf ↦ ⟨f, hf, rfl, List.Subset.refl _⟩) fun d t hd ↦ absurd hd (hst d t)

/-- Every move keeps it that nothing is searched. -/
theorem Move.eager {mode : Mode} {S S' : Scene} (hmove : Move mode S S') (hv : Valid S)
    (he : S.Eager) : S'.Eager := by
  have hunsearched := hmove.unsearched hv he
  refine ⟨fun x r' hr' q hq ↦ ?_, fun x r' hr' ↦ ?_, ?_⟩
  · obtain ⟨r, hr, hentries, -⟩ := hunsearched.before hr'
    exact he.requests x r hr q (hentries ▸ hq)
  · obtain ⟨r, hr, -, hx⟩ := hunsearched.before hr'
    have := he.status x r hr
    rw [← Bool.not_eq_true] at this ⊢
    exact fun hsearched ↦ this (hx hsearched)
  have htours := he.tours
  have hpush : ∀ {τ τ' : Tour} {T : List Tour}, (∀ τ₀ ∈ τ :: T, τ₀.Eager) →
      (τ.Eager → τ'.Eager) → ∀ τ₀ ∈ τ' :: T, τ₀.Eager := by
    intro τ τ' T h h'
    obtain ⟨htop, htail⟩ := List.forall_mem_cons.1 h
    exact List.forall_mem_cons.2 ⟨h' htop, htail⟩
  have hrest : ∀ {f : EvaluationFrame} {rest : List EvaluationFrame} {goal : EvaluationGoal}
      {st st' : Stance} {w : EvaluationWalk}, w.frames = f :: rest → (∀ d t, st' ≠ .coming d t) →
      Tour.Eager ⟨goal, st, w⟩ → Tour.Eager ⟨goal, st', { w with frames := rest }⟩ := by
    intro f rest goal st st' w hf hst h
    refine h.keep (fun g hg ↦ ⟨g, ?_, rfl, List.Subset.refl _⟩) fun d t hd ↦ absurd hd (hst d t)
    exact (show w.frames = f :: rest from hf) ▸ List.mem_cons_of_mem f hg
  clear hunsearched
  induction hmove with
  | aside _ _ => exact htours
  | note _ _ => exact htours
  | evaluate _ _ _ _ =>
    refine List.forall_mem_singleton.2 ⟨nofun, fun d t hd ↦ ?_⟩
    cases hd
    rfl
  | force _ _ _ _ _ _ =>
    refine List.forall_mem_cons.2 ⟨⟨nofun, fun d t hd ↦ ?_⟩, htours⟩
    cases hd
    rfl
  | @request s goal w m t r rs rest T F X G J H d hf hd =>
    refine hpush htours fun h ↦ ?_
    obtain ⟨ht, hq⟩ := h.frames ⟨m, t, r :: rs⟩ (hf ▸ List.mem_cons_self)
    obtain rfl : t = .executing := ht
    have hphase : r.phase = .evaluation := hq r List.mem_cons_self
    refine h.keep (fun f hmem ↦ ?_) fun e t' he' ↦ ?_
    · rw [show (⟨goal, .here, w⟩ : Tour).walk.frames = _ from hf]
      rcases List.mem_cons.1 hmem with rfl | hmem
      · exact ⟨_, List.mem_cons_self, rfl, List.subset_cons_self r rs⟩
      · exact ⟨f, List.mem_cons_of_mem _ hmem, rfl, List.Subset.refl _⟩
    · cases he'
      simp [EvaluationWalk.nextTraversal, hphase]
  | @unloaded s goal w m t r rs rest T F X G J H hf hd _ =>
    refine hpush htours fun h ↦ h.keep (fun f hmem ↦ ?_) nofun
    rw [show (⟨goal, .here, w⟩ : Tour).walk.frames = _ from hf]
    rcases List.mem_cons.1 hmem with rfl | hmem
    · exact ⟨_, List.mem_cons_self, rfl, List.subset_cons_self r rs⟩
    · exact ⟨f, List.mem_cons_of_mem _ hmem, rfl, List.Subset.refl _⟩
  | @enter s goal w t t' T F X G J H d r hd ha hnot hmode =>
    refine hpush htours fun h ↦ ⟨fun f hmem ↦ ?_, nofun⟩
    obtain rfl := SourceText.traversal_of_enter (h.coming d t rfl ▸ ha)
    rcases List.mem_cons.1 hmem with rfl | hmem
    · refine ⟨rfl, fun q hq ↦ he.requests d r hd q ?_⟩
      simpa [Store.entries, hd] using hq
    · exact h.frames f hmem
  | hold hf _ _ => exact hpush htours (hrest hf nofun)
  | run hf _ _ _ => exact hpush htours (hrest hf nofun)
  | runAsync hf _ _ _ => exact hpush htours (hrest hf nofun)
  | search hf => exact hpush htours (hrest hf nofun)
  | done _ => exact (List.forall_mem_cons.1 htours).2
  | fail _ _ _ => exact (List.forall_mem_cons.1 htours).2
  | failed _ _ => exact htours
  | drop _ => exact htours
  | freedAsync _ => exact htours
  | synthetic _ => exact hpush htours fun h ↦ h.stance nofun
  | pass _ _ _ => exact hpush htours fun h ↦ h.stance nofun
  | leaveLast _ => exact hpush htours fun h ↦ h.stance nofun
  | leaveBack _ _ _ _ _ => exact hpush htours fun h ↦ h.stance nofun
  | leaveSearched _ _ _ _ _ _ => exact hpush htours fun h ↦ h.stance nofun
  | leaveOff _ _ _ _ _ _ => exact hpush htours fun h ↦ h.stance nofun
  | ended _ _ => exact hpush htours fun h ↦ h.stance nofun
  | pop _ _ _ => exact hpush htours fun h ↦ h.stance nofun
  | _ => exact nofun

end EcmaModules
