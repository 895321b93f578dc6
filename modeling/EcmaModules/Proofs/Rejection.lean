import EcmaModules.Proofs.Freeing

/-!
# What failing spreads to

When a module fails, so do those that wait for it, and those that wait for these. The depth to which
this goes is bounded by the number of modules, and that bound is never reached: each step down has
marked another module. So in the end nobody waits for a module that has failed without being over.
-/

namespace EcmaModules

/-- The module is over since the change. -/
def NewlyOver (s s' : Store) (d : ModuleId) : Prop :=
  s.status? d ≠ some .evaluated ∧ s'.status? d = some .evaluated

/-- Some modules, and those that wait for them, are over after the change. -/
structure Spreads (e : ErrorId) (ms : List ModuleId) (s s' : Store) : Prop where
  fails : Fails e s s'
  settled : ∀ m ∈ ms, (s.source? m).isSome → s'.status? m = some .evaluated
  parents : ∀ d, NewlyOver s s' d → ∀ x ∈ s.parents d, (s.source? x).isSome →
    s'.status? x = some .evaluated
  /-- No more modules fail than have to. -/
  within : ∀ P : ModuleId → Prop, (∀ m ∈ ms, s.status? m ≠ some .evaluated → P m) →
    (∀ z x, P z → x ∈ s.parents z → s.status? x ≠ some .evaluated → P x) →
    ∀ d, NewlyOver s s' d → P d

namespace Fails

variable {e : ErrorId} {s s' : Store}

theorem isSome (h : Fails e s s') (x : ModuleId) :
    (s'.source? x).isSome = (s.source? x).isSome := by
  rcases h x with hx | ⟨r, hr, -, hx⟩
  · rw [hx]
  · rw [hr, hx]
    rfl

theorem parents (h : Fails e s s') (x : ModuleId) : s'.parents x = s.parents x := by
  unfold Store.parents
  rcases h x with hx | ⟨r, hr, -, hx⟩
  · rw [hx]
  · rw [hr, hx]
    rfl

theorem evaluated (h : Fails e s s') {x : ModuleId} (hx : s.status? x = some .evaluated) :
    s'.status? x = some .evaluated := by
  obtain ⟨r, hr, hs⟩ := Option.map_eq_some_iff.1 hx
  simp [Store.status?, h.of_evaluated hr hs, hs]

end Fails

namespace Spreads

variable {e : ErrorId} {ms : List ModuleId} {m : ModuleId} {s s' s'' : Store}

theorem nil (e : ErrorId) (s : Store) : Spreads e [] s s where
  fails := .refl s
  settled _ hm := absurd hm List.not_mem_nil
  parents _ hd := absurd hd.2 hd.1
  within _ _ _ _ hd := absurd hd.2 hd.1

theorem cons (h : Spreads e [m] s s') (h' : Spreads e ms s' s'') :
    Spreads e (m :: ms) s s'' where
  fails := h.fails.trans h'.fails
  settled x hx hsome := by
    rcases List.mem_cons.1 hx with rfl | hx
    · exact h'.fails.evaluated (h.settled x (List.mem_singleton.2 rfl) hsome)
    · exact h'.settled x hx (by rwa [h.fails.isSome])
  parents d hd x hx hsome := by
    by_cases hd' : s'.status? d = some .evaluated
    · exact h'.fails.evaluated (h.parents d ⟨hd.1, hd'⟩ x hx hsome)
    · exact h'.parents d ⟨hd', hd.2⟩ x (by rwa [h.fails.parents]) (by rwa [h.fails.isSome])
  within P hms hP d hd := by
    have hlater : ∀ {x}, s'.status? x ≠ some .evaluated → s.status? x ≠ some .evaluated :=
      fun hx hx' ↦ hx (h.fails.evaluated hx')
    by_cases hd' : s'.status? d = some .evaluated
    · refine h.within P (fun x hx hs ↦ hms x ?_ hs) hP d ⟨hd.1, hd'⟩
      exact List.mem_cons.2 (.inl (List.mem_singleton.1 hx))
    · refine h'.within P (fun x hx hs ↦ hms x (List.mem_cons_of_mem m hx) (hlater hs))
        (fun z x hz hx hs ↦ ?_) d ⟨hd', hd.2⟩
      rw [h.fails.parents] at hx
      exact hP z x hz hx (hlater hs)

end Spreads

/-- There are no more modules with source text than the number. -/
def Store.Bounded (s : Store) (n : Nat) : Prop :=
  ∀ l : List ModuleId, l.Nodup → (∀ x ∈ l, (s.source? x).isSome) → l.length ≤ n

theorem Store.Bounded.of_fails {e : ErrorId} {s s' : Store} {n : Nat} (h : s.Bounded n)
    (hf : Fails e s s') : s'.Bounded n :=
  fun l hl hsome ↦ h l hl fun x hx ↦ (hf.isSome x).symm ▸ hsome x hx

/-- At the given depth there is room for all modules that are not over. -/
def Store.Roomy (s : Store) (depth n : Nat) : Prop :=
  ∃ l : List ModuleId, l.Nodup ∧ (∀ x ∈ l, s.status? x = some .evaluated) ∧
    n + 1 ≤ depth + l.length

theorem Store.Roomy.of_fails {e : ErrorId} {s s' : Store} {depth n : Nat} (h : s.Roomy depth n)
    (hf : Fails e s s') : s'.Roomy depth n := by
  obtain ⟨l, hl, hover, hlength⟩ := h
  exact ⟨l, hl, fun x hx ↦ hf.evaluated (hover x hx), hlength⟩

theorem Store.status?_markFailed_self {s : Store} {m : ModuleId} (e : ErrorId)
    (hm : (s.source? m).isSome) : (s.markFailed m e).status? m = some .evaluated := by
  obtain ⟨r, hr⟩ := Option.isSome_iff_exists.1 hm
  rw [Store.markFailed, Store.status?_modifySource, if_pos rfl, hr]
  rfl

/-- At depth zero there is no room. -/
theorem Store.Roomy.ne_zero {s : Store} {depth n : Nat} (h : s.Roomy depth n) (hn : s.Bounded n) :
    depth ≠ 0 := by
  rintro rfl
  obtain ⟨l, hl, hover, hlength⟩ := h
  have := hn l hl fun x hx ↦ Option.isSome_map.symm.trans (by
    rw [show (s.source? x).map (·.status) = some .evaluated from hover x hx]
    rfl)
  omega

/-- A module that was marked makes up for a step down. -/
theorem Store.Roomy.markFailed {s : Store} {m : ModuleId} {depth n : Nat}
    (h : s.Roomy (depth + 1) n) (e : ErrorId) (hm : (s.source? m).isSome)
    (hs : s.status? m ≠ some .evaluated) : (s.markFailed m e).Roomy depth n := by
  obtain ⟨l, hl, hover, hlength⟩ := h
  refine ⟨m :: l, List.nodup_cons.2 ⟨fun hmem ↦ hs (hover m hmem), hl⟩, ?_, ?_⟩
  · refine List.forall_mem_cons.2 ⟨status?_markFailed_self e hm, fun x hx ↦ ?_⟩
    exact (fails_markFailed e hs).evaluated (hover x hx)
  · rw [List.length_cons]
    omega

/-- Failing one module after the other. -/
theorem Spreads.foldl {e : ErrorId} {depth n : Nat}
    (hdown : ∀ (s : Store) (m : ModuleId), s.Bounded n → s.Roomy depth n →
      Spreads e [m] s (s.rejectFrom depth m e))
    (ms : List ModuleId) (s : Store) (hn : s.Bounded n) (hroom : s.Roomy depth n) :
    Spreads e ms s (ms.foldl (fun s m ↦ s.rejectFrom depth m e) s) := by
  induction ms generalizing s with
  | nil => exact .nil e s
  | cons m ms ih =>
    have hm := hdown s m hn hroom
    exact hm.cons (ih _ (hn.of_fails hm.fails) (hroom.of_fails hm.fails))

/-- The bound on the depth is never reached. -/
theorem spreads_rejectFrom {e : ErrorId} {n : Nat} (depth : Nat) (s : Store) (m : ModuleId)
    (hn : s.Bounded n) (hroom : s.Roomy depth n) : Spreads e [m] s (s.rejectFrom depth m e) := by
  induction depth generalizing s m with
  | zero => exact absurd rfl (hroom.ne_zero hn)
  | succ depth ih =>
    have hself := Store.fails_rejectFrom (depth + 1) s m e
    unfold Store.rejectFrom at hself ⊢
    by_cases hs : s.status? m = some .evaluated
    · rw [if_pos hs]
      refine ⟨.refl s, fun x hx _ ↦ ?_, fun _ hd ↦ absurd hd.2 hd.1, fun _ _ _ _ hd ↦ absurd hd.2 hd.1⟩
      rwa [List.mem_singleton.1 hx]
    rw [if_neg hs] at hself ⊢
    have hmark : Fails e s (s.markFailed m e) := Store.fails_markFailed e hs
    have hne : ∀ x, x ≠ m → (s.markFailed m e).status? x = s.status? x := fun x hx ↦ by
      unfold Store.status?
      rw [Store.markFailed, Store.source?_modifySource, if_neg hx]
    have hm := s.status?_markFailed_self (m := m) e
    have hfold : Spreads e ((s.markFailed m e).parents m) (s.markFailed m e)
        (((s.markFailed m e).parents m).foldl (fun s x ↦ s.rejectFrom depth x e)
          (s.markFailed m e)) := by
      rcases hsource : s.source? m with _ | r
      · have hnil : (s.markFailed m e).parents m = [] := by
          rw [hmark.parents, Store.parents, hsource]
          rfl
        rw [hnil]
        exact .nil e _
      · exact Spreads.foldl ih _ _ (hn.of_fails hmark) (hroom.markFailed e (by simp [hsource]) hs)
    have hlast : ∀ x, (((s.markFailed m e).parents m).foldl (fun s x ↦ s.rejectFrom depth x e)
        (s.markFailed m e) |>.rejectCapability m e).status? x =
          (((s.markFailed m e).parents m).foldl (fun s x ↦ s.rejectFrom depth x e)
            (s.markFailed m e)).status? x := fun x ↦ by
      unfold Store.status?
      rw [Store.source?_congr (Store.modules_rejectCapability _ _ _)]
    refine ⟨hself, fun x hx hsome ↦ ?_, fun d hd x hx hsome ↦ ?_, fun P hP hclosed d hd ↦ ?_⟩
    · obtain rfl := List.mem_singleton.1 hx
      exact (hlast x).trans (hfold.fails.evaluated (hm hsome))
    · refine (hlast x).trans ?_
      have hd₂ := (hlast d).symm.trans hd.2
      by_cases hdm : d = m
      · subst hdm
        exact hfold.settled x (by rwa [hmark.parents]) (by rwa [hmark.isSome])
      · exact hfold.parents d ⟨by rw [hne d hdm]; exact hd.1, hd₂⟩ x (by rwa [hmark.parents])
          (by rwa [hmark.isSome])
    · have hd₂ := (hlast d).symm.trans hd.2
      have hPm : P m := hP m (List.mem_singleton.2 rfl) hs
      have hlater : ∀ {x}, (s.markFailed m e).status? x ≠ some .evaluated →
          s.status? x ≠ some .evaluated := fun hx hx' ↦ hx (hmark.evaluated hx')
      by_cases hdm : d = m
      · rwa [hdm]
      · refine hfold.within P (fun x hx hsx ↦ ?_) (fun z x hz hx hsx ↦ ?_) d
          ⟨by rw [hne d hdm]; exact hd.1, hd₂⟩
        · rw [hmark.parents] at hx
          exact hclosed m x hPm hx (hlater hsx)
        · rw [hmark.parents] at hx
          exact hclosed z x hz hx (hlater hsx)

/-- A module fails, and so do those that wait for it, and those that wait for these. -/
theorem spreads_rejectModule (s : Store) (m : ModuleId) (e : ErrorId) :
    Spreads e [m] s (s.rejectModule m e) := by
  refine spreads_rejectFrom (n := s.modules.size) _ s m (fun l hl hsome ↦ ?_)
    ⟨[], List.nodup_nil, nofun, by simp⟩
  exact Store.length_le_size hl hsome

end EcmaModules
