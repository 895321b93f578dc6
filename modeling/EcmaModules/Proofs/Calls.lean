import EcmaModules.Proofs.Execution

/-!
# Runs in which reading evaluates nothing

A walk starts when a module is evaluated by a call, or when an export of a deferred namespace is
read whose module has not been evaluated yet. If there is nothing of the second kind, there is one
walk at a time, and it is at the bottom of everything: nothing is being linked below it.
-/

namespace EcmaModules

namespace Machine

variable {M : Machine} {H : List Event} {s : Store} {t : Task} {fs : List Frame} {f : Frame}
  {r : Result}

theorem linkTours_of_isLoad (h : ∀ f ∈ fs, f.isLoad = true) : fs.flatMap Frame.linkTours = [] := by
  refine List.flatMap_eq_nil_iff.2 fun f hf ↦ ?_
  have hload := h f hf
  cases f <;> first | rfl | exact nomatch hload

/-- Tasks that are nothing to walks keep the status of modules, unless they load. -/
theorem status?_advance (s : Store) (ht : t.isWalk = false) (hl : t.isLoad = false)
    (x : ModuleId) : (t.advance s).1.status? x = s.status? x := by
  cases t with
  | synthetic m => rw [Store.status?, Task.source?_synthetic, Store.status?]
  | body b => exact (b.advance_apart s).steady.status x
  | read n name => exact (s.read_quiet n name).1.steady.status x
  | _ => simp [Task.isWalk, Task.isLoad] at ht hl

theorem status?_resume (s : Store) (r : Result) (hf : f.isWalk = false) (x : ModuleId) :
    (f.resume s r).1.status? x = s.status? x := by
  cases f with
  | syntheticSteps m =>
    simp only [Frame.resume, Store.finishSynthetic, Store.status?, Store.source?_modifySynthetic]
  | _ => exact ((Frame.resume_quiet s r hf).2.2 (by simp)).steady.status x

/-- All walks are those of calls. So nothing is being linked below a walk. -/
theorem keepsLinking (hfit : M.Fit H) (hforces : ∀ m, M.control ≠ .run (.force m))
    (heval : ∀ m, M.control = .run (.evaluate m) → M.frames = [])
    (hgoals : ∀ τ ∈ M.tours, ∃ root p, τ.goal = .promise root p) :
    M.links ∨ M.store.KeepsLinking M.step.store M.linkTours := by
  have hnil : M.linkTours = [] → M.links ∨ M.store.KeepsLinking M.step.store M.linkTours :=
    fun h ↦ .inr fun τ hτ ↦ absurd (h ▸ hτ) List.not_mem_nil
  obtain ⟨s, control, fs⟩ := M
  rcases control with t | r
  · have htail : t.linkTours = [] → fs = [] → (Machine.mk s (.run t) fs).linkTours = [] := by
      rintro ht rfl
      simp [linkTours, ht]
    cases ht : t.isWalk with
    | false =>
      have hown : t.linkTours = [] := by
        cases t <;> first | rfl | contradiction
      cases hl : t.isLoad with
      | true =>
        refine hnil ?_
        simp [linkTours, hown, linkTours_of_isLoad (hfit.current.load hl)]
      | false =>
        refine .inr fun τ _ x _ hx ↦ ?_
        have hstep : (Machine.mk s (.run t) fs).step = apply fs (t.advance s) := by
          cases t <;> rfl
        rw [hstep, store_apply, status?_advance s ht hl]
        exact hx
    | true =>
      cases t with
      | force m => exact absurd rfl (hforces m)
      | evaluate m => exact hnil (htail rfl (heval m rfl))
      | evaluation goal w =>
        obtain ⟨root, p, rfl⟩ := hgoals ⟨goal, .here, w⟩ List.mem_cons_self
        exact hnil (htail rfl (hfit.current.base rfl))
      | free ms => exact hnil (htail rfl (hfit.current.base rfl))
      | job j => exact hnil (htail rfl (hfit.current.base rfl))
      | link m =>
        obtain ⟨-, -, -, hl⟩ := Task.link_inside (L := fs.flatMap Frame.linkTours) hfit.linkage m
        refine .inr fun τ hτ x hx _ ↦ ?_
        change (apply fs (Task.advance s (.link m))).store.status? x = _
        rw [store_apply]
        exact hl.linking τ (List.mem_append_right _ hτ) x hx
      | linking w => exact .inl (.inl ⟨w, rfl⟩)
      | _ => contradiction
  · rcases fs with _ | ⟨f, fs⟩
    · exact hnil rfl
    have hstep : (Machine.mk s (.give r) (f :: fs)).step = apply fs (f.resume s r) := rfl
    have htail : f.linkTours = [] → fs = [] →
        (Machine.mk s (.give r) (f :: fs)).linkTours = [] := by
      rintro hf rfl
      simp [linkTours, hf]
    cases hf : f.isWalk with
    | false =>
      refine .inr fun τ _ x _ hx ↦ ?_
      rw [hstep, store_apply, status?_resume s r hf]
      exact hx
    | true =>
      cases f with
      | executed goal m c w =>
        obtain ⟨root, p, rfl⟩ := hgoals ⟨goal, .running m, w⟩ List.mem_cons_self
        exact hnil (htail rfl (hfit.piled.base [] _ fs rfl rfl))
      | passed goal w =>
        obtain ⟨root, p, rfl⟩ := hgoals ⟨goal, .here, w⟩ List.mem_cons_self
        exact hnil (htail rfl (hfit.piled.base [] _ fs rfl rfl))
      | freed m c rest => exact hnil (htail rfl (hfit.piled.base [] _ fs rfl rfl))
      | setUp m w => exact .inl (.inr ⟨r, m, w, fs, rfl, rfl⟩)
      | _ => contradiction

/-- The step starts no walk by reading from a namespace. -/
def Unforced (M _ : Machine) : Prop := ∀ m, M.control ≠ .run (.force m)

/-- Whether that is so can be checked. -/
def checkUnforced (M _ : Machine) : Bool :=
  match M.control with
  | .run (.force _) => false
  | _ => true

theorem unforced_of_check {M M' : Machine} (h : M.checkUnforced M' = true) : M.Unforced M' := by
  intro m hm
  simp [checkUnforced, hm] at h

end Machine

end EcmaModules
