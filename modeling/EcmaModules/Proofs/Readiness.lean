import EcmaModules.Proofs.Fading
import Mathlib

/-!
# Where forced walks lead

A walk that is started by reading an export leads only to modules that can be evaluated without
waiting: that is what was asked before it started. What has to be shown of the question is that the
bound on the number of steps in which it is answered is never reached.

For evaluation it matters that such a walk keeps away from the modules that were set free and have
not been executed yet: they still stand for others that wait.
-/

namespace EcmaModules

/-! ## The question -/

/-- The number of requests of a module that were loaded. -/
def Module.loadedLength (m : Module) : Nat :=
  match m.content with
  | .sourceText r => r.loaded.length
  | .synthetic _ => 0

namespace Store

/-- The modules can be evaluated without waiting for anything but each other. -/
def Ready (s : Store) (U : List ModuleId) : Prop :=
  ∀ x ∈ U, ∀ r, s.source? x = some r → r.readiness ≠ .waits ∧
    (r.readiness = .asRequested → ∀ i ∈ r.loaded, i.module ∈ U)

/-- The number of requests of the module at a place that were loaded. -/
def loadedOf (s : Store) (m : ModuleId) : Nat := ((s.source? m).map (·.loaded.length)).getD 0

/-- The modules that were met need nothing but what was met, or is still to be gone through. -/
def MetReady (s : Store) (met todo : List ModuleId) : Prop :=
  ∀ x ∈ met, ∀ r, s.source? x = some r → r.readiness ≠ .waits ∧
    (r.readiness = .asRequested → ∀ i ∈ r.loaded, i.module ∈ met ∨ i.module ∈ todo)

theorem MetReady.meet {s : Store} {met rest todo : List ModuleId} {m : ModuleId}
    (h : s.MetReady met (m :: rest)) (hrest : rest ⊆ todo)
    (hm : ∀ r, s.source? m = some r → r.readiness ≠ .waits ∧
      (r.readiness = .asRequested → ∀ i ∈ r.loaded, i.module ∈ todo)) :
    s.MetReady (m :: met) todo := by
  intro x hx r hr
  rcases List.mem_cons.1 hx with rfl | hx
  · exact ⟨(hm r hr).1, fun ha i hi ↦ .inr ((hm r hr).2 ha i hi)⟩
  · refine ⟨(h x hx r hr).1, fun ha i hi ↦ ?_⟩
    rcases (h x hx r hr).2 ha i hi with hi | hi
    · exact .inl (List.mem_cons_of_mem m hi)
    · rcases List.mem_cons.1 hi with hi | hi
      · exact .inl (hi ▸ List.mem_cons_self)
      · exact .inr (hrest hi)

/-- The modules that were not met have room for all that is still to be gone through. -/
def Unmet (s : Store) (left : Nat) (met todo : List ModuleId) : Prop :=
  ∃ l : List ModuleId, (∀ x, (s.source? x).isSome → x ∉ met → x ∈ l) ∧
    todo.length + (l.map s.loadedOf).sum < left

/-- If the answer is yes, the modules that are met in the end are ready. -/
theorem ready_of_readyFrom {s : Store} (left : Nat) (met todo : List ModuleId)
    (h : s.readyFrom left met todo = true) (hmet : s.MetReady met todo)
    (hleft : s.Unmet left met todo) : ∃ U, met ⊆ U ∧ todo ⊆ U ∧ s.Ready U := by
  induction left generalizing met todo with
  | zero =>
    obtain ⟨l, -, hlt⟩ := hleft
    exact absurd hlt (Nat.not_lt_zero _)
  | succ left ih =>
    rcases todo with _ | ⟨m, rest⟩
    · refine ⟨met, List.Subset.refl _, List.nil_subset _, fun x hx r hr ↦ ?_⟩
      refine ⟨(hmet x hx r hr).1, fun ha i hi ↦ ?_⟩
      exact ((hmet x hx r hr).2 ha i hi).resolve_right List.not_mem_nil
    obtain ⟨l, hl, hlt⟩ := hleft
    rw [List.length_cons] at hlt
    rw [readyFrom] at h
    by_cases hm : met.contains m = true
    · rw [if_pos hm] at h
      have hm : m ∈ met := by simpa using hm
      have hmet' : s.MetReady met rest := fun x hx r hr ↦ by
        refine ⟨(hmet x hx r hr).1, fun ha i hi ↦ ?_⟩
        rcases (hmet x hx r hr).2 ha i hi with hi | hi
        · exact .inl hi
        · refine (List.mem_cons.1 hi).imp (fun heq ↦ ?_) id
          rwa [heq]
      obtain ⟨U, hU, hrest, hready⟩ := ih met rest h hmet' ⟨l, hl, by omega⟩
      exact ⟨U, hU, List.cons_subset.2 ⟨hU hm, hrest⟩, hready⟩
    rw [if_neg hm] at h
    -- once the module has been met it counts no more
    have hunmet : ∀ x, (s.source? x).isSome → x ∉ m :: met → x ∈ l.erase m := fun x hx hn ↦ by
      rw [List.mem_cons, not_or] at hn
      exact (List.mem_erase_of_ne hn.1).2 (hl x hx hn.2)
    have hsum : s.loadedOf m + ((l.erase m).map s.loadedOf).sum ≤ (l.map s.loadedOf).sum := by
      by_cases hml : m ∈ l
      · exact Nat.le_of_eq (List.sum_map_erase s.loadedOf hml)
      · have hnone : s.source? m = none := by
          by_contra hsome
          refine hml (hl m (Option.isSome_iff_ne_none.2 hsome) fun hmem ↦ hm ?_)
          simpa using hmem
        simp [loadedOf, hnone, List.erase_of_not_mem hml]
    have hdone : ∀ todo', s.readyFrom left (m :: met) todo' = true → rest ⊆ todo' →
        todo'.length ≤ rest.length + s.loadedOf m →
        (∀ r, s.source? m = some r → r.readiness ≠ .waits ∧
          (r.readiness = .asRequested → ∀ i ∈ r.loaded, i.module ∈ todo')) →
        ∃ U, met ⊆ U ∧ m :: rest ⊆ U ∧ s.Ready U := by
      intro todo' h' hsub hlength hself
      obtain ⟨U, hU, htodo, hready⟩ := ih (m :: met) todo' h' (hmet.meet hsub hself)
        ⟨_, hunmet, by omega⟩
      obtain ⟨hmU, hmetU⟩ := List.cons_subset.1 hU
      exact ⟨U, hmetU, List.cons_subset.2 ⟨hmU, List.Subset.trans hsub htodo⟩, hready⟩
    rcases hr : s.source? m with _ | r
    · rw [hr] at h
      exact hdone rest h (List.Subset.refl _) (by omega) fun q hq ↦ nomatch hr.symm.trans hq
    rw [hr] at h
    dsimp only at h
    have hself : ∀ {q}, s.source? m = some q → q = r := fun hq ↦ Option.some.inj (hq.symm.trans hr)
    rcases hready : r.readiness with _ | _ | _
    · rw [hready] at h
      refine hdone rest h (List.Subset.refl _) (by omega) fun q hq ↦ ?_
      obtain rfl := hself hq
      simp [hready]
    · rw [hready] at h
      exact nomatch h
    · rw [hready] at h
      refine hdone _ h (List.subset_append_right _ _) ?_ fun q hq ↦ ?_
      · simp [loadedOf, hr, Nat.add_comm]
      · obtain rfl := hself hq
        refine ⟨by simp [hready], fun _ i hi ↦ List.mem_append_left _ ?_⟩
        exact List.mem_map_of_mem hi

/-- What is counted is the loaded requests of all modules. -/
theorem loadedCount_eq (s : Store) :
    (((List.range s.modules.size).map ModuleId.mk).map s.loadedOf).sum = s.loadedCount := by
  have hfold : ∀ (f : Nat → Module → Nat), (∀ n m, f n m = n + m.loadedLength) →
      ∀ (l : List Module) (n : Nat), l.foldl f n = n + (l.map Module.loadedLength).sum := by
    intro f hf l
    induction l with
    | nil => exact fun n ↦ rfl
    | cons m l ih =>
      intro n
      rw [List.foldl_cons, ih, hf, List.map_cons, List.sum_cons, Nat.add_assoc]
  have hcount : s.loadedCount = (s.modules.toList.map Module.loadedLength).sum := by
    unfold loadedCount
    rw [← Array.foldl_toList, hfold _ fun n m ↦ ?_, Nat.zero_add]
    obtain ⟨_ | _, _, _, _, _, _⟩ := m <;> rfl
  rw [hcount, List.map_map]
  congr 1
  refine List.ext_getElem (by simp) fun i hi _ ↦ ?_
  have hlt : i < s.modules.size := by simpa using hi
  rcases hm : s.modules[i] with ⟨_ | _, _, _, _, _, _⟩ <;>
    simp [loadedOf, source?, module?, hlt, hm, Module.loadedLength]

/-- A module that is ready is among modules that are. -/
theorem ready_of_isReady {s : Store} {m : ModuleId} (h : s.isReady m = true) :
    ∃ U, m ∈ U ∧ s.Ready U := by
  have hunmet : s.Unmet (s.loadedCount + 2) [] [m] := by
    refine ⟨(List.range s.modules.size).map ModuleId.mk, fun x hx _ ↦ ?_, ?_⟩
    · exact List.mem_map.2 ⟨x.index, List.mem_range.2 (index_lt_of_source hx), rfl⟩
    · rw [loadedCount_eq, List.length_singleton]
      omega
  obtain ⟨U, -, hm, hready⟩ := ready_of_readyFrom _ [] [m] h nofun hunmet
  exact ⟨U, hm List.mem_cons_self, hready⟩

end Store

/-! ## Keeping away -/

/-- A walk has none of the modules on its stack, and will not come to one of them that it might
enter. -/
structure Clears (s : Store) (F : List ModuleId) (τ : Tour) : Prop where
  stack : ∀ y ∈ F, y ∉ τ.walk.stack
  way : ∃ U : ModuleId → Prop, (∀ d t, τ.stance = .coming d t → U d) ∧
    (∀ f ∈ τ.walk.frames, ∀ r d, s.imported? f.module r = some d → U d) ∧
    ∀ x q, U x → s.source? x = some q → q.status.isOpen = true →
      x ∉ F ∧ ∀ r d, s.imported? x r = some d → U d

namespace Clears

variable {s s' : Store} {F F' : List ModuleId} {τ τ' : Tour} {goal : EvaluationGoal}
  {w : EvaluationWalk} {d : ModuleId}

theorem nil (s : Store) (τ : Tour) : Clears s [] τ :=
  ⟨nofun, fun _ ↦ True, fun _ _ _ ↦ trivial, fun _ _ _ _ _ ↦ trivial,
    fun _ _ _ _ _ ↦ ⟨List.not_mem_nil, fun _ _ _ ↦ trivial⟩⟩

/-- The walk goes on to nothing but what it was on the way to. -/
theorem keep (h : Clears s F τ) (hs : s.Narrows s') (hi : SameImports s s') (hF : F' ⊆ F)
    (hstack : τ'.walk.stack ⊆ τ.walk.stack)
    (hcoming : ∀ d t, τ'.stance = .coming d t → τ.stance = .coming d t ∨
      ∃ f ∈ τ.walk.frames, ∃ r, s.imported? f.module r = some d)
    (hframes : ∀ f ∈ τ'.walk.frames, ∃ f₀ ∈ τ.walk.frames, f₀.module = f.module) :
    Clears s' F' τ' := by
  obtain ⟨U, hU, hU', hopen⟩ := h.way
  refine ⟨fun y hy hmem ↦ h.stack y (hF hy) (hstack hmem), U, fun d t hd ↦ ?_,
    fun f hf r d hd ↦ ?_, fun x q' hx hq' ho ↦ ?_⟩
  · rcases hcoming d t hd with hd | ⟨f, hf, r, hr⟩
    · exact hU d t hd
    · exact hU' f hf r d hr
  · obtain ⟨f₀, hf₀, heq⟩ := hframes f hf
    rw [hi, ← heq] at hd
    exact hU' f₀ hf₀ r d hd
  · obtain ⟨q, hq, hs⟩ := hs.before hq'
    obtain ⟨hnot, hx'⟩ := hopen x q hx hq (hs ho)
    refine ⟨fun hmem ↦ hnot (hF hmem), fun r d hd ↦ ?_⟩
    rw [hi] at hd
    exact hx' r d hd

/-- A walk that goes on elsewhere is not concerned. -/
theorem apart (h : Clears s F τ) (hs : s.Narrows s') (hi : SameImports s s') (hF : F' ⊆ F) :
    Clears s' F' τ :=
  h.keep hs hi hF (List.Subset.refl _) (fun _ _ ↦ .inl) fun f hf ↦ ⟨f, hf, rfl⟩

/-- What a walk may enter was not set free. -/
theorem not_mem {t : Traversal} {q : SourceText} (h : Clears s F ⟨goal, .coming d t, w⟩)
    (hd : s.source? d = some q) (ho : q.status.isOpen = true) : d ∉ F := by
  obtain ⟨U, hU, -, hopen⟩ := h.way
  exact (hopen d q (hU d t rfl) hd ho).1

/-- The walk enters a module. -/
theorem enter {t : Traversal} {q : SourceText} {f : EvaluationFrame} {i : Nat}
    (h : Clears s F ⟨goal, .coming d t, w⟩) (hd : s.source? d = some q)
    (ho : q.status.isOpen = true) (hs : s.Narrows s') (hi : SameImports s s')
    (hf : f.module = d) : Clears s' F ⟨goal, .here, ⟨f :: w.frames, d :: w.stack, i⟩⟩ := by
  obtain ⟨U, hU, hU', hopen⟩ := h.way
  have hUd : U d := hU d t rfl
  refine ⟨fun y hy hmem ↦ ?_, U, nofun, fun f' hf' r x hx ↦ ?_, fun x q' hx hq' ho' ↦ ?_⟩
  · rcases List.mem_cons.1 hmem with rfl | hmem
    · exact h.not_mem hd ho hy
    · exact h.stack y hy hmem
  · rw [hi] at hx
    rcases List.mem_cons.1 hf' with rfl | hf'
    · exact (hopen d q hUd hd ho).2 r x (hf ▸ hx)
    · exact hU' f' hf' r x hx
  · obtain ⟨q₀, hq₀, hs⟩ := hs.before hq'
    obtain ⟨hnot, hx'⟩ := hopen x q₀ hx hq₀ (hs ho')
    refine ⟨hnot, fun r e he ↦ ?_⟩
    rw [hi] at he
    exact hx' r e he

/-- A walk starts at a module that can be evaluated without waiting. -/
theorem start {T : List Tour} {X : List ModuleId} {H : List Event} (t : Traversal)
    (h : Sound s.outline T F X [] H) (hready : s.isReady d = true) :
    Clears s F ⟨goal, .coming d t, {}⟩ := by
  obtain ⟨U, hd, hU⟩ := Store.ready_of_isReady hready
  refine ⟨by simp, (· ∈ U), ?_, by simp, fun x q hx hq ho ↦ ?_⟩
  · rintro e t' he
    cases he
    exact hd
  · obtain ⟨hwaits, hrequests⟩ := hU x hx q hq
    refine ⟨fun hmem ↦ ?_, fun r e he ↦ ?_⟩
    · -- it would be waiting, as whatever was set free and is still open
      have hfree := (h.lawful x _ (Store.outline_eq_some hq)).free hmem
      simp only [SourceText.outline_status, Status.outline_eq_evaluated,
        Status.outline_eq_evaluatingAsync, Status.outline_eq_searchingAsync,
        Status.outline_eq_evaluating] at hfree
      rcases hfree with hs | ⟨hs, -⟩ | ⟨hs, -⟩ | ⟨hs, -⟩ <;> rw [hs] at ho
      · contradiction
      · contradiction
      · simp [SourceText.readiness, hs] at hwaits
      · contradiction
    · have hasked : q.readiness = .asRequested := by
        unfold SourceText.readiness at hwaits ⊢
        cases hs : q.status <;> simp_all [Status.isOpen]
      obtain ⟨i, hi, rfl⟩ : ∃ i ∈ q.loaded, i.module = e := by
        simp only [Store.imported?, hq, Option.bind_some, Option.map_eq_some_iff] at he
        obtain ⟨i, hi, heq⟩ := he
        exact ⟨i, List.mem_of_find?_eq_some hi, heq⟩
      exact hrequests hasked i hi

end Clears

/-! ### What moves do -/

namespace Store.Narrows

theorem refl (s : Store) : s.Narrows s := Each.refl (fun _ ↦ id) s

theorem trans {s s' s'' : Store} (h : s.Narrows s') (h' : s'.Narrows s'') : s.Narrows s'' :=
  Each.trans (fun _ _ _ hr hr' ↦ hr ∘ hr') h h'

theorem push {s : Store} {m : ModuleId} {r : SourceText} {t₀ t : Traversal} (w : EvaluationWalk)
    (hm : s.source? m = some r) (ha : r.arrival t₀ = .enter t) :
    s.Narrows (EvaluationWalk.push s w m t).1 := by
  refine Each.modifySource (fun _ ↦ id) s m fun q hq _ ↦ ?_
  obtain rfl : r = q := Option.some.inj (hm.symm.trans hq)
  obtain ⟨-, hs⟩ := SourceText.arrival_eq_enter ha
  cases hr : r.status <;> simp [hr, Status.outline, Status.isOpen] at hs ⊢

theorem await (s : Store) (m d : ModuleId) : s.Narrows (EvaluationWalk.await s m d) := by
  rcases EvaluationWalk.await_cases s m d with h | ⟨_, _, _, _, _, _, h⟩
  · rw [h]
    exact refl s
  · rw [h]
    refine trans (Each.modifySource (fun _ ↦ id) s m ?_) (Each.modifySource (fun _ ↦ id) _ d ?_)
    all_goals exact fun _ _ ↦ id

theorem lessen (s : Store) (m : ModuleId) : s.Narrows (s.lessen m) :=
  Each.modifySource (fun _ ↦ id) s m fun _ _ ↦ id

end Store.Narrows

namespace SameImports

variable {s s' s'' : Store}

theorem refl (s : Store) : SameImports s s := fun _ _ ↦ rfl

theorem trans (h : SameImports s s') (h' : SameImports s' s'') : SameImports s s'' :=
  fun m r ↦ (h' m r).trans (h m r)

theorem modifySource (s : Store) (m : ModuleId) {f : SourceText → SourceText}
    (hf : ∀ r, (f r).loaded = r.loaded) : SameImports s (s.modifySource m f) :=
  .of_each <| Store.Each.modifySource (R := fun r r' ↦ r'.loaded = r.loaded) (fun _ ↦ rfl) s m
    fun r _ ↦ hf r

theorem await (s : Store) (m d : ModuleId) : SameImports s (EvaluationWalk.await s m d) := by
  rcases EvaluationWalk.await_cases s m d with h | ⟨_, _, _, _, _, _, h⟩
  · rw [h]
    exact refl s
  · rw [h]
    refine trans (modifySource s m ?_) (modifySource _ d ?_)
    all_goals exact fun _ ↦ rfl

end SameImports

/-- All walks keep away from the modules that were set free. -/
def Scene.Clear (S : Scene) : Prop := ∀ τ ∈ S.tours, Clears S.store S.queue τ

/-- The walk on top goes on to nothing but what it was on the way to. -/
theorem Clears.step {s s' : Store} {F : List ModuleId} {τ τ' : Tour} {T : List Tour}
    (h : ∀ τ₀ ∈ τ :: T, Clears s F τ₀) (hs : s.Narrows s') (hi : SameImports s s')
    (hstack : τ'.walk.stack ⊆ τ.walk.stack)
    (hcoming : ∀ d t, τ'.stance = .coming d t → τ.stance = .coming d t ∨
      ∃ f ∈ τ.walk.frames, ∃ r, s.imported? f.module r = some d)
    (hframes : ∀ f ∈ τ'.walk.frames, ∃ f₀ ∈ τ.walk.frames, f₀.module = f.module) :
    ∀ τ₀ ∈ τ' :: T, Clears s' F τ₀ := by
  obtain ⟨htop, htail⟩ := List.forall_mem_cons.1 h
  refine List.forall_mem_cons.2 ⟨htop.keep hs hi (List.Subset.refl _) hstack hcoming hframes, ?_⟩
  exact fun τ₀ hτ₀ ↦ (htail τ₀ hτ₀).apart hs hi (List.Subset.refl _)

/-- Every move keeps walks away from the modules that were set free. -/
theorem Move.clear {mode : Mode} {S S' : Scene} (hmove : Move mode S S') (hv : Valid S)
    (h : S.Clear) : S'.Clear := by
  have hsame : ∀ {fs : List EvaluationFrame}, ∀ f ∈ fs, ∃ f₀ ∈ fs, f₀.module = f.module :=
    fun f hf ↦ ⟨f, hf, rfl⟩
  induction hmove with
  | @aside s s' T F X G J H ha hi =>
    rcases hi with ⟨rfl, -⟩ | hi
    · rintro _ ⟨⟩
    · have hs : s.Narrows s' := (Store.Each.of_outline ha.outline).mono fun _ _ heq ↦
        (SourceText.Fades.of_outline heq).isOpen
      exact fun τ hτ ↦ (h τ hτ).apart hs hi (List.Subset.refl _)
  | note a r => exact h
  | evaluate hm hroot hcap _ => exact List.forall_mem_cons.2 ⟨.nil _ _, by simp⟩
  | force hm h1 h2 h3 hready _ => exact List.forall_mem_cons.2 ⟨.start _ hv.sound hready, h⟩
  | @request s goal w m t r rs rest T F X G J H d hf hd =>
    refine Clears.step h (.refl s) (.refl s) (List.Subset.refl _) ?_ ?_
    · rintro e t' he
      cases he
      exact .inr ⟨_, hf ▸ List.mem_cons_self, r, hd⟩
    · rw [hf]
      exact List.forall_mem_cons.2 ⟨⟨_, List.mem_cons_self, rfl⟩,
        fun f hf ↦ ⟨f, List.mem_cons_of_mem _ hf, rfl⟩⟩
  | @unloaded s goal w m t r rs rest T F X G J H hf hd _ =>
    refine Clears.step h (.refl s) (.refl s) (List.Subset.refl _) (by simp) ?_
    rw [hf]
    exact List.forall_mem_cons.2 ⟨⟨_, List.mem_cons_self, rfl⟩,
      fun f hf ↦ ⟨f, List.mem_cons_of_mem _ hf, rfl⟩⟩
  | @synthetic s goal w t T F X G J H d hd =>
    exact Clears.step h (.refl s) (.refl s) (List.Subset.refl _) (by simp) hsame
  | @pass s goal w t T F X G J H d r hd ha _ =>
    have hs : s.Fades (if r.traversal t = .executing then EvaluationWalk.detach s w d else s) := by
      split
      · exact .of_stands (.detach s w d)
      · exact .refl s
    exact Clears.step h hs.narrows hs.imports (List.Subset.refl _) (by simp) hsame
  | @enter s goal w t t' T F X G J H d r hd ha hnot hmode =>
    have hopen : r.status.isOpen = true := by
      obtain ⟨-, hs⟩ := SourceText.arrival_eq_enter ha
      cases hr : r.status <;> simp [hr, Status.outline, Status.isOpen] at hs ⊢
    have hs : s.Narrows (EvaluationWalk.push s w d t').1 := .push w hd ha
    have hi : SameImports s (EvaluationWalk.push s w d t').1 :=
      .modifySource s d fun _ ↦ rfl
    obtain ⟨htop, htail⟩ := List.forall_mem_cons.1 h
    refine List.forall_mem_cons.2 ⟨htop.enter hd hopen hs hi rfl, fun τ hτ ↦ ?_⟩
    exact (htail τ hτ).apart hs hi (List.Subset.refl _)
  | leaveLast hf =>
    exact Clears.step h (.refl _) (.refl _) (List.Subset.refl _) (by simp) hsame
  | @leaveBack s goal st w f rest T F X G J H d r q hst hf hr hq hlead =>
    have hs : s.Fades (s.lowerAncestor f.module q.dfsAncestorIndex) :=
      .of_stands (.lowerAncestor s _ _)
    exact Clears.step h (hs.narrows.trans (.await _ _ _)) (hs.imports.trans (.await _ _ _))
      (List.Subset.refl _) (by simp) hsame
  | leaveSearched hst hf hr hq hlead hqs =>
    exact Clears.step h (.await _ _ _) (.await _ _ _) (List.Subset.refl _) (by simp) hsame
  | leaveOff hf hr hq hlead hqs he =>
    exact Clears.step h (.await _ _ _) (.await _ _ _) (List.Subset.refl _) (by simp) hsame
  | @hold s goal w m rest T F X G J H r hf hr hpos =>
    have hs : s.Fades (s.holdModule m) := .of_stands (.holdModule s m)
    refine Clears.step h hs.narrows hs.imports (List.Subset.refl _) (by simp) fun f hf' ↦ ?_
    exact ⟨f, hf ▸ List.mem_cons_of_mem _ hf', rfl⟩
  | run hf hr h0 hw =>
    refine Clears.step h (.refl _) (.refl _) (List.Subset.refl _) (by simp) fun f hf' ↦ ?_
    exact ⟨f, hf ▸ List.mem_cons_of_mem _ hf', rfl⟩
  | @runAsync s goal w m rest T F X G J H r hf hr h0 hw =>
    have hs : s.Fades (s.startAsync m).2 := .of_stands (.startAsync s m)
    refine Clears.step h hs.narrows hs.imports (List.Subset.refl _) (by simp) fun f hf' ↦ ?_
    exact ⟨f, hf ▸ List.mem_cons_of_mem _ hf', rfl⟩
  | @search s goal w m rest T F X G J H hf =>
    have hs : s.Fades (s.holdSearched m) := .of_stands (.holdSearched s m)
    refine Clears.step h hs.narrows hs.imports (List.Subset.refl _) (by simp) fun f hf' ↦ ?_
    exact ⟨f, hf ▸ List.mem_cons_of_mem _ hf', rfl⟩
  | ended hb hc =>
    exact Clears.step h (.refl _) (.refl _) (List.Subset.refl _) (by simp) hsame
  | @pop s goal w m above below T F X G J H hstack hnot hroot =>
    have hs : s.Fades (s.completeMembers m (above ++ [m])) := .completeMembers s m _
    refine Clears.step h hs.narrows hs.imports ?_ (by simp) hsame
    rw [show w.stack = above ++ m :: below from hstack]
    exact fun x hx ↦ List.mem_append_right _ (List.mem_cons_of_mem _ hx)
  | @done s goal w T F X G J H hf =>
    have hs : s.Fades (goal.finish s).1 := .of_stands (.finish s goal)
    exact fun τ hτ ↦ (h τ (List.mem_cons_of_mem _ hτ)).apart hs.narrows hs.imports
      (List.Subset.refl _)
  | @fail s goal st w T F X G J H e _ _ =>
    have hs : s.Fades (goal.fail s w.stack e).1 := .fail s w.stack e goal
    exact fun τ hτ ↦ (h τ (List.mem_cons_of_mem _ hτ)).apart hs.narrows hs.imports
      (List.Subset.refl _)
  | failed e hb => exact h
  | drop hj => exact h
  | freedAsync hb => rintro _ ⟨⟩
  | _ => rintro _ ⟨⟩

end EcmaModules
