import EcmaModules.Machine

/-!
# Outlines

What evaluation can tell about the modules of a store: of each module with source text, its entries
and the fields that evaluation works with. How far a module has come before its evaluation does not
matter here, nor does the point at which a walk came to it once it is off the stack of that walk.

Running bodies, reading, linking and loading change a store a lot, but not its outline.
-/

namespace EcmaModules

/-! ## Looking up after a change -/

namespace Store

theorem module?_modifyModule (s : Store) (m : ModuleId) (f : Module → Module) (x : ModuleId) :
    (s.modifyModule m f).module? x = if x = m then (s.module? x).map f else s.module? x := by
  obtain ⟨i⟩ := m
  obtain ⟨j⟩ := x
  simp only [module?, modifyModule, Array.getElem?_modify, ModuleId.mk.injEq, eq_comm]

theorem source?_congr {s s' : Store} (h : s'.modules = s.modules) (x : ModuleId) :
    s'.source? x = s.source? x := by
  simp only [source?, module?, h]

theorem synthetic?_congr {s s' : Store} (h : s'.modules = s.modules) (x : ModuleId) :
    s'.synthetic? x = s.synthetic? x := by
  simp only [synthetic?, module?, h]

theorem source?_modifySource (s : Store) (m : ModuleId) (f : SourceText → SourceText)
    (x : ModuleId) :
    (s.modifySource m f).source? x = if x = m then (s.source? x).map f else s.source? x := by
  unfold source? modifySource
  rw [module?_modifyModule]
  by_cases h : x = m
  · simp only [if_pos h]
    rcases s.module? x with _ | ⟨_ | _, _, _, _, _, _⟩ <;> rfl
  · simp only [if_neg h]

theorem synthetic?_modifySource (s : Store) (m : ModuleId) (f : SourceText → SourceText)
    (x : ModuleId) : (s.modifySource m f).synthetic? x = s.synthetic? x := by
  unfold synthetic? modifySource
  rw [module?_modifyModule]
  by_cases h : x = m
  · simp only [if_pos h]
    rcases s.module? x with _ | ⟨_ | _, _, _, _, _, _⟩ <;> rfl
  · simp only [if_neg h]

theorem source?_modifySynthetic (s : Store) (m : ModuleId) (f : Synthetic → Synthetic)
    (x : ModuleId) : (s.modifySynthetic m f).source? x = s.source? x := by
  unfold source? modifySynthetic
  rw [module?_modifyModule]
  by_cases h : x = m
  · simp only [if_pos h]
    rcases s.module? x with _ | ⟨_ | _, _, _, _, _, _⟩ <;> rfl
  · simp only [if_neg h]

theorem synthetic?_modifySynthetic (s : Store) (m : ModuleId) (f : Synthetic → Synthetic)
    (x : ModuleId) :
    (s.modifySynthetic m f).synthetic? x =
      if x = m then (s.synthetic? x).map f else s.synthetic? x := by
  unfold synthetic? modifySynthetic
  rw [module?_modifyModule]
  by_cases h : x = m
  · simp only [if_pos h]
    rcases s.module? x with _ | ⟨_ | _, _, _, _, _, _⟩ <;> rfl
  · simp only [if_neg h]

/-- A change that leaves the content of modules alone cannot be told by looking up modules. -/
theorem source?_modifyModule_of_content {s : Store} {m : ModuleId} {f : Module → Module}
    (hf : ∀ r, (f r).content = r.content) (x : ModuleId) :
    (s.modifyModule m f).source? x = s.source? x := by
  unfold source?
  rw [module?_modifyModule]
  by_cases h : x = m
  · simp only [if_pos h]
    rcases s.module? x with _ | r
    · rfl
    · have := hf r
      rcases hr : f r with ⟨c, _, _, _, _, _⟩
      obtain ⟨c', _, _, _, _, _⟩ := r
      obtain rfl : c = c' := by simpa [hr] using this
      cases c <;> simp [hr]
  · simp only [if_neg h]

theorem synthetic?_modifyModule_of_content {s : Store} {m : ModuleId} {f : Module → Module}
    (hf : ∀ r, (f r).content = r.content) (x : ModuleId) :
    (s.modifyModule m f).synthetic? x = s.synthetic? x := by
  unfold synthetic?
  rw [module?_modifyModule]
  by_cases h : x = m
  · simp only [if_pos h]
    rcases s.module? x with _ | r
    · rfl
    · have := hf r
      rcases hr : f r with ⟨c, _, _, _, _, _⟩
      obtain ⟨c', _, _, _, _, _⟩ := r
      obtain rfl : c = c' := by simpa [hr] using this
      cases c <;> simp [hr]
  · simp only [if_neg h]

end Store

/-! ## The outline of a module -/

/-- The part of a status that evaluation can tell: before a module is evaluated, it might as well be
linked. -/
def Status.outline : Status → Status
  | .new | .unlinked | .linking | .linked => .linked
  | s => s

/-- A walk has the module on its stack. -/
def Status.isWalked : Status → Bool
  | .evaluating | .asyncSubgraphsSearching => true
  | _ => false

/-- The module may be waited for, and may wait for others. -/
def Status.isWaiting : Status → Bool
  | .evaluating | .evaluatingAsync | .asyncSubgraphsSearching | .asyncSubgraphsSearchingAsync =>
    true
  | _ => false

/-- The module waits for something, and is on no stack. -/
def Status.isParked : Status → Bool
  | .evaluatingAsync | .asyncSubgraphsSearchingAsync => true
  | _ => false

/-- The part of a module that evaluation can tell. -/
def SourceText.outline (r : SourceText) : SourceText where
  entries := r.entries
  status := r.status.outline
  evaluationError := r.evaluationError
  dfsIndex := if r.status.isWalked then r.dfsIndex else 0
  dfsAncestorIndex := if r.status.isWalked then r.dfsAncestorIndex else 0
  cycleRoot := r.cycleRoot
  asyncState := r.asyncState
  capability := r.capability
  asyncParents := r.asyncParents
  pendingAsync := r.pendingAsync

namespace SourceText

@[simp] theorem outline_entries (r : SourceText) : r.outline.entries = r.entries := rfl

@[simp] theorem outline_status (r : SourceText) : r.outline.status = r.status.outline := rfl

@[simp] theorem outline_evaluationError (r : SourceText) :
    r.outline.evaluationError = r.evaluationError := rfl

@[simp] theorem outline_cycleRoot (r : SourceText) : r.outline.cycleRoot = r.cycleRoot := rfl

@[simp] theorem outline_asyncState (r : SourceText) : r.outline.asyncState = r.asyncState := rfl

@[simp] theorem outline_capability (r : SourceText) : r.outline.capability = r.capability := rfl

@[simp] theorem outline_asyncParents (r : SourceText) :
    r.outline.asyncParents = r.asyncParents := rfl

@[simp] theorem outline_pendingAsync (r : SourceText) :
    r.outline.pendingAsync = r.pendingAsync := rfl

end SourceText

namespace Status

attribute [local simp] outline isWalked isWaiting

@[simp] theorem outline_outline (s : Status) : s.outline.outline = s.outline := by
  cases s <;> rfl

@[simp] theorem isWalked_outline (s : Status) : s.outline.isWalked = s.isWalked := by
  cases s <;> rfl

@[simp] theorem isWaiting_outline (s : Status) : s.outline.isWaiting = s.isWaiting := by
  cases s <;> rfl

@[simp] theorem isParked_outline (s : Status) : s.outline.isParked = s.isParked := by
  cases s <;> rfl

@[simp] theorem isSettling_outline (s : Status) : s.outline.isSettling = s.isSettling := by
  cases s <;> rfl

@[simp] theorem outline_eq_evaluating (s : Status) : s.outline = .evaluating ↔ s = .evaluating := by
  cases s <;> simp

@[simp] theorem outline_eq_evaluatingAsync (s : Status) :
    s.outline = .evaluatingAsync ↔ s = .evaluatingAsync := by
  cases s <;> simp

@[simp] theorem outline_eq_evaluated (s : Status) : s.outline = .evaluated ↔ s = .evaluated := by
  cases s <;> simp

@[simp] theorem outline_eq_searching (s : Status) :
    s.outline = .asyncSubgraphsSearching ↔ s = .asyncSubgraphsSearching := by
  cases s <;> simp

@[simp] theorem outline_eq_searchingAsync (s : Status) :
    s.outline = .asyncSubgraphsSearchingAsync ↔ s = .asyncSubgraphsSearchingAsync := by
  cases s <;> simp

@[simp] theorem outline_eq_subgraphsEvaluated (s : Status) :
    s.outline = .asyncSubgraphsEvaluated ↔ s = .asyncSubgraphsEvaluated := by
  cases s <;> simp

theorem isWaiting_of_isWalked {s : Status} (h : s.isWalked) : s.isWaiting := by
  cases s <;> simp_all

theorem isWaiting_of_isParked {s : Status} (h : s.isParked = true) : s.isWaiting = true := by
  cases s <;> first | rfl | exact nomatch h

theorem outline_of_isWalked {s : Status} (h : s.isWalked) : s.outline = s := by
  cases s <;> simp_all

end Status

namespace SourceText

theorem outline_dfsIndex {r : SourceText} (h : r.status.isWalked) :
    r.outline.dfsIndex = r.dfsIndex := by simp [outline, h]

theorem outline_dfsAncestorIndex {r : SourceText} (h : r.status.isWalked) :
    r.outline.dfsAncestorIndex = r.dfsAncestorIndex := by simp [outline, h]

@[simp] theorem outline_outline (r : SourceText) : r.outline.outline = r.outline := by
  cases h : r.status.isWalked <;> simp [outline, h]

/-- Only what the outline shows decides what a walk does with a module. -/
@[simp] theorem arrival_outline (r : SourceText) (t : Traversal) :
    r.outline.arrival t = r.arrival t := by
  unfold arrival traversal
  rw [outline_entries, outline_status, outline_evaluationError]
  cases r.entries.awaits <;> cases t <;> cases r.status <;> rfl

end SourceText

/-! ## The outline of a store -/

/-- What evaluation can tell about the modules with source text. -/
abbrev Outline := ModuleId → Option SourceText

/-- The outline of a store. -/
def Store.outline (s : Store) : Outline := fun m ↦ (s.source? m).map (·.outline)

namespace Store

theorem outline_eq_some {s : Store} {m : ModuleId} {r : SourceText} (h : s.source? m = some r) :
    s.outline m = some r.outline := by simp [outline, h]

theorem source?_of_outline {s : Store} {m : ModuleId} {r : SourceText} (h : s.outline m = some r) :
    ∃ r', s.source? m = some r' ∧ r'.outline = r := by
  simpa [outline] using h

theorem outline_modifySource_self {s : Store} {m : ModuleId} {r : SourceText}
    (h : s.source? m = some r) (f : SourceText → SourceText) :
    (s.modifySource m f).outline m = some (f r).outline := by
  simp [outline, source?_modifySource, h]

theorem outline_modifySource_of_ne (s : Store) {m x : ModuleId} (h : x ≠ m)
    (f : SourceText → SourceText) : (s.modifySource m f).outline x = s.outline x := by
  simp [outline, source?_modifySource, h]

theorem outline_modifyModule {s : Store} {m : ModuleId} {f : Module → Module}
    (hf : ∀ r, (f r).content = r.content) : (s.modifyModule m f).outline = s.outline := by
  funext x
  simp only [outline, source?_modifyModule_of_content hf]

/-- A change that the outline does not show. -/
theorem outline_modifySource_of_outline {s : Store} {m : ModuleId} {f : SourceText → SourceText}
    (hf : ∀ r, s.source? m = some r → (f r).outline = r.outline) :
    (s.modifySource m f).outline = s.outline := by
  funext x
  simp only [outline, source?_modifySource]
  split
  · next h =>
    subst h
    rcases hx : s.source? x with _ | r
    · rfl
    · simp [hf r hx]
  · rfl

theorem outline_congr {s s' : Store} (h : s'.modules = s.modules) : s'.outline = s.outline := by
  funext x
  simp only [outline, source?, module?, h]

/-- The same change of several modules. -/
theorem source?_foldl_modifySource (f : SourceText → SourceText) {ms : List ModuleId}
    (hms : ms.Nodup) (s : Store) (x : ModuleId) :
    (ms.foldl (fun s m ↦ s.modifySource m f) s).source? x =
      if x ∈ ms then (s.source? x).map f else s.source? x := by
  induction ms generalizing s with
  | nil => simp
  | cons m ms ih =>
    rw [List.nodup_cons] at hms
    rw [List.foldl_cons, ih hms.2, source?_modifySource]
    by_cases hx : x = m
    · subst hx
      simp [hms.1]
    · simp [hx]

theorem outline_foldl_modifySource_of_mem (f : SourceText → SourceText) {ms : List ModuleId}
    (hms : ms.Nodup) {s : Store} {x : ModuleId} {r : SourceText} (hx : x ∈ ms)
    (hr : s.source? x = some r) :
    (ms.foldl (fun s m ↦ s.modifySource m f) s).outline x = some (f r).outline := by
  simp [outline, source?_foldl_modifySource f hms, hx, hr]

theorem outline_foldl_modifySource_of_not_mem (f : SourceText → SourceText) {ms : List ModuleId}
    (hms : ms.Nodup) (s : Store) {x : ModuleId} (hx : x ∉ ms) :
    (ms.foldl (fun s m ↦ s.modifySource m f) s).outline x = s.outline x := by
  simp [outline, source?_foldl_modifySource f hms, hx]

end Store

end EcmaModules
