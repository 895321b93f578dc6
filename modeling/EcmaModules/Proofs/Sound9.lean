import EcmaModules.Proofs.Sound8

namespace EcmaModules

/-- A module that has failed with another one. -/
def SourceText.failed (e : ErrorId) (r : SourceText) : SourceText :=
  { r with evaluationError := some e, asyncState := .settled, status := .evaluated }

/-- Modules that were not over may have failed; nothing else has changed. -/
def Fails (e : ErrorId) (s s' : Store) : Prop :=
  ∀ x, s'.source? x = s.source? x ∨ ∃ r, s.source? x = some r ∧ r.status ≠ .evaluated ∧
    s'.source? x = some (r.failed e)

namespace Fails

variable {e : ErrorId} {s s' s'' : Store}

theorem refl (s : Store) : Fails e s s := fun _ ↦ .inl rfl

theorem trans (h : Fails e s s') (h' : Fails e s' s'') : Fails e s s'' := fun x ↦ by
  rcases h x with hx | ⟨r, hr, hs, hx⟩
  · rcases h' x with hx' | ⟨r, hr, hs, hx'⟩
    · exact .inl (hx'.trans hx)
    · exact .inr ⟨r, hx ▸ hr, hs, hx'⟩
  · rcases h' x with hx' | ⟨r', hr', hs', -⟩
    · exact .inr ⟨r, hr, hs, hx'.trans hx⟩
    · obtain rfl : r.failed e = r' := by simpa [hx] using hr'
      exact absurd rfl hs'

theorem foldl {α : Type} {f : Store → α → Store} (hf : ∀ s a, Fails e s (f s a)) (l : List α)
    (s : Store) : Fails e s (l.foldl f s) := by
  induction l generalizing s with
  | nil => exact .refl s
  | cons a l ih => exact (hf s a).trans (ih _)

/-- A module that is over stays as it is. -/
theorem of_evaluated (h : Fails e s s') {x : ModuleId} {r : SourceText} (hr : s.source? x = some r)
    (hs : r.status = .evaluated) : s'.source? x = some r := by
  rcases h x with hx | ⟨r', hr', hs', -⟩
  · rw [hx, hr]
  · obtain rfl : r = r' := by simpa [hr] using hr'
    exact absurd hs hs'

theorem of_modules (h : s'.modules = s.modules) : Fails e s s' := fun x ↦ .inl (by
  simp only [Store.source?, Store.module?, h])

end Fails

namespace Store

theorem fails_markFailed {s : Store} {m : ModuleId} (e : ErrorId)
    (hm : s.status? m ≠ some .evaluated) : Fails e s (s.markFailed m e) := fun x ↦ by
  rw [markFailed, source?_modifySource]
  split
  · next hx =>
    subst hx
    rcases hr : s.source? x with _ | r
    · exact .inl rfl
    · refine .inr ⟨r, rfl, fun h ↦ hm ?_, rfl⟩
      simp [status?, hr, h]
  · exact .inl rfl

/-- Failing goes from a module to those that wait for it. -/
theorem fails_rejectFrom (depth : Nat) (s : Store) (m : ModuleId) (e : ErrorId) :
    Fails e s (s.rejectFrom depth m e) := by
  induction depth generalizing s m with
  | zero => exact .refl s
  | succ depth ih =>
    unfold rejectFrom
    split
    · exact .refl s
    · next hm =>
      exact ((fails_markFailed e hm).trans (.foldl (fun s p ↦ ih s p) _ _)).trans
        (.of_modules (modules_rejectCapability _ _ _))

theorem fails_rejectModule (s : Store) (m : ModuleId) (e : ErrorId) :
    Fails e s (s.rejectModule m e) := fails_rejectFrom _ s m e

/-- A module that is failed is over. -/
theorem status_rejectModule {s : Store} {m : ModuleId} {e : ErrorId} {r : SourceText}
    (hm : s.source? m = some r) :
    ∃ r', (s.rejectModule m e).source? m = some r' ∧ r'.status = .evaluated := by
  unfold rejectModule rejectFrom
  split
  · next hs => exact ⟨r, hm, by simpa [status?, hm] using hs⟩
  · have hself : (s.markFailed m e).source? m = some (r.failed e) := by
      rw [markFailed, source?_modifySource, if_pos rfl, hm]
      rfl
    have hfold := (Fails.foldl (e := e) (fun t p ↦ fails_rejectFrom s.modules.size t p e)
      ((((s.markFailed m e).source? m).map (·.asyncParents)).getD []) (s.markFailed m e))
    refine ⟨r.failed e, ?_, rfl⟩
    rw [source?_congr (modules_rejectCapability _ _ _)]
    exact hfold.of_evaluated hself rfl

theorem outline_of_fails {e : ErrorId} {s s' : Store} (h : Fails e s s') (x : ModuleId) :
    s'.outline x = s.outline x ∨
      ∃ r, s.source? x = some r ∧ s'.outline x = some (r.failed e).outline := by
  rcases h x with hx | ⟨r, hr, -, hx⟩
  · exact .inl (by simp only [outline, hx])
  · exact .inr ⟨r, hr, outline_eq_some hx⟩

end Store
end EcmaModules
