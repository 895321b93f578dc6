import EcmaModules.Proofs.Rejection

/-!
# What becomes of modules

How the modules of a store are related to those of a later one. Most of what evaluation does lets
modules only fade: they wait no more than before, are no more open to walks than before, and have
failed if they had. They still know the same modules that wait for them, and wait for as many.
-/

namespace EcmaModules

/-! ## Module by module -/

/-- Each module with source text is related to what it is after a change. -/
def Store.Each (R : SourceText → SourceText → Prop) (s s' : Store) : Prop :=
  ∀ x, Option.Rel R (s.source? x) (s'.source? x)

namespace Store.Each

variable {R : SourceText → SourceText → Prop} {s s' s'' : Store}

theorem after (h : s.Each R s') {x : ModuleId} {r : SourceText} (hr : s.source? x = some r) :
    ∃ r', s'.source? x = some r' ∧ R r r' := by
  have hx := h x
  rw [hr] at hx
  cases hx' : s'.source? x <;> rw [hx'] at hx <;> cases hx
  exact ⟨_, rfl, by assumption⟩

theorem before (h : s.Each R s') {x : ModuleId} {r' : SourceText} (hr' : s'.source? x = some r') :
    ∃ r, s.source? x = some r ∧ R r r' := by
  have hx := h x
  rw [hr'] at hx
  cases hx' : s.source? x <;> rw [hx'] at hx <;> cases hx
  exact ⟨_, rfl, by assumption⟩

theorem none (h : s.Each R s') {x : ModuleId} (hx : s.source? x = none) : s'.source? x = none := by
  rcases hx' : s'.source? x with _ | r'
  · rfl
  · obtain ⟨r, hr, -⟩ := h.before hx'
    exact nomatch hx.symm.trans hr

theorem mono {R' : SourceText → SourceText → Prop} (h : s.Each R s')
    (hR : ∀ r r', R r r' → R' r r') : s.Each R' s' := fun x ↦ by
  have hx := h x
  revert hx
  cases s.source? x <;> cases s'.source? x <;> rintro ⟨⟩
  · exact .none
  · exact .some (hR _ _ (by assumption))

theorem refl (hR : ∀ r, R r r) (s : Store) : s.Each R s := fun x ↦ by
  cases s.source? x
  · exact .none
  · exact .some (hR _)

theorem of_modules (hR : ∀ r, R r r) (h : s'.modules = s.modules) : s.Each R s' := fun x ↦ by
  rw [Store.source?_congr h]
  exact refl hR s x

theorem trans (hR : ∀ r r' r'', R r r' → R r' r'' → R r r'') (h : s.Each R s')
    (h' : s'.Each R s'') : s.Each R s'' := fun x ↦ by
  have hx := h x
  have hx' := h' x
  revert hx hx'
  cases s.source? x <;> cases s'.source? x <;> cases s''.source? x <;> rintro ⟨⟩ ⟨⟩
  · exact .none
  · exact .some (hR _ _ _ (by assumption) (by assumption))

/-- A change of one module. -/
theorem modifySource (hR : ∀ r, R r r) (s : Store) (m : ModuleId) {f : SourceText → SourceText}
    (hf : ∀ r, s.source? m = some r → R r (f r)) : s.Each R (s.modifySource m f) := fun x ↦ by
  rw [Store.source?_modifySource]
  split
  · next hx =>
    subst hx
    cases hr : s.source? x
    · exact .none
    · exact .some (hf _ hr)
  · exact refl hR s x

theorem foldl {α : Type} (hR : ∀ r, R r r) (hR' : ∀ r r' r'', R r r' → R r' r'' → R r r'')
    {f : Store → α → Store} (hf : ∀ (s : Store) a, s.Each R (f s a)) (l : List α) (s : Store) :
    s.Each R (l.foldl f s) := by
  induction l generalizing s with
  | nil => exact refl hR s
  | cons a l ih => exact trans hR' (hf s a) (ih _)

theorem of_outline (h : s'.outline = s.outline) :
    s.Each (fun r r' ↦ r'.outline = r.outline) s' := fun x ↦ by
  have hx := congrFun h x
  unfold Store.outline at hx
  revert hx
  cases s.source? x <;> cases s'.source? x <;> intro hx
  · exact .none
  · exact nomatch hx
  · exact nomatch hx
  · exact .some (Option.some.inj hx)

end Store.Each

/-! ## Fading -/

/-- A walk may still enter the module, now or after it was searched. -/
def Status.isOpen : Status → Bool
  | .evaluating | .evaluatingAsync | .evaluated => false
  | _ => true

@[simp] theorem Status.isOpen_outline (s : Status) : s.outline.isOpen = s.isOpen := by
  cases s <;> rfl

/-- The module is over, with an error. -/
def SourceText.hasFailed (r : SourceText) : Prop :=
  r.status = .evaluated ∧ r.evaluationError.isSome

/-- What matters to the modules that wait is the same. -/
structure SourceText.Stands (r r' : SourceText) : Prop where
  entries : r'.entries = r.entries
  asyncParents : r'.asyncParents = r.asyncParents
  pendingAsync : r'.pendingAsync = r.pendingAsync
  status : r'.status = r.status
  evaluationError : r'.evaluationError = r.evaluationError
  loaded : r'.loaded = r.loaded

/-- What may become of a module. -/
structure SourceText.Fades (r r' : SourceText) : Prop where
  entries : r'.entries = r.entries
  asyncParents : r'.asyncParents = r.asyncParents
  pendingAsync : r'.pendingAsync = r.pendingAsync
  waiting : r'.status.isWaiting = true → r.status.isWaiting = true
  isOpen : r'.status.isOpen = true → r.status.isOpen = true
  hasFailed : r.hasFailed → r'.hasFailed

namespace SourceText.Fades

variable {r r' r'' : SourceText}

theorem refl (r : SourceText) : r.Fades r := ⟨rfl, rfl, rfl, id, id, id⟩

theorem trans (h : r.Fades r') (h' : r'.Fades r'') : r.Fades r'' where
  entries := h'.entries.trans h.entries
  asyncParents := h'.asyncParents.trans h.asyncParents
  pendingAsync := h'.pendingAsync.trans h.pendingAsync
  waiting hw := h.waiting (h'.waiting hw)
  isOpen ho := h.isOpen (h'.isOpen ho)
  hasFailed hf := h'.hasFailed (h.hasFailed hf)

theorem of_outline (h : r'.outline = r.outline) : r.Fades r' := by
  have hstatus : r'.status.outline = r.status.outline := congrArg (·.status) h
  refine ⟨(congrArg (·.entries) h :), (congrArg (·.asyncParents) h :),
    (congrArg (·.pendingAsync) h :), ?_, ?_, ?_⟩
  · rw [← Status.isWaiting_outline, hstatus, Status.isWaiting_outline]
    exact id
  · rw [← Status.isOpen_outline, hstatus, Status.isOpen_outline]
    exact id
  · rintro ⟨hs, he⟩
    refine ⟨?_, ?_⟩
    · rw [← Status.outline_eq_evaluated, hstatus, Status.outline_eq_evaluated, hs]
    · rwa [show r'.evaluationError = r.evaluationError from congrArg (·.evaluationError) h]

theorem of_stands (h : r.Stands r') : r.Fades r' := by
  refine ⟨h.entries, h.asyncParents, h.pendingAsync, ?_, ?_, ?_⟩
  · rw [h.status]
    exact id
  · rw [h.status]
    exact id
  · unfold SourceText.hasFailed
    rw [h.status, h.evaluationError]
    exact id

theorem complete (root : ModuleId) (r : SourceText) : r.Fades (r.complete root) := by
  refine ⟨rfl, rfl, rfl, ?_, ?_, ?_⟩
  · change (EvaluationWalk.completeStatus r).isWaiting = true → _
    cases hs : r.status <;> simp [EvaluationWalk.completeStatus, hs, Status.isWaiting]
  · change (EvaluationWalk.completeStatus r).isOpen = true → _
    by_cases hp : r.asyncState = .pending <;> cases hs : r.status <;>
      simp [EvaluationWalk.completeStatus, hs, hp, Status.isOpen]
  · rintro ⟨hs, he⟩
    exact ⟨by simp [SourceText.complete, EvaluationWalk.completeStatus, hs], he⟩

/-- The module is over, with an error if it had one. -/
theorem settled (h : r'.entries = r.entries ∧ r'.asyncParents = r.asyncParents ∧
    r'.pendingAsync = r.pendingAsync) (hs : r'.status = .evaluated)
    (he : r.evaluationError.isSome → r'.evaluationError.isSome) : r.Fades r' := by
  obtain ⟨h1, h2, h3⟩ := h
  refine ⟨h1, h2, h3, ?_, ?_, fun hf ↦ ⟨hs, he hf.2⟩⟩ <;> rw [hs] <;> exact nofun

theorem fail (e : ErrorId) (r : SourceText) : r.Fades (r.fail e) :=
  settled ⟨rfl, rfl, rfl⟩ rfl fun _ ↦ rfl

end SourceText.Fades

/-- What matters to the modules that wait stands. -/
def Store.Stands : Store → Store → Prop := Store.Each SourceText.Stands

/-- The modules of a store fade, and what was loaded for their requests is the same. -/
def Store.Fades : Store → Store → Prop :=
  Store.Each fun r r' ↦ r.Fades r' ∧ r'.loaded = r.loaded

/-- No module of a store becomes open. -/
def Store.Narrows : Store → Store → Prop :=
  Store.Each fun r r' ↦ r'.status.isOpen = true → r.status.isOpen = true

theorem SameImports.of_each {s s' : Store} (h : s.Each (fun r r' ↦ r'.loaded = r.loaded) s') :
    SameImports s s' := by
  intro m r
  unfold Store.imported?
  rcases hm : s.source? m with _ | q
  · have hm' := h m
    rw [hm] at hm'
    cases hq : s'.source? m with
    | none => rfl
    | some q => rw [hq] at hm'; cases hm'
  · obtain ⟨q', hq', hs⟩ := h.after hm
    rw [hq', Option.bind_some, Option.bind_some, hs]

namespace Store.Stands

variable {s s' s'' : Store}

theorem refl (s : Store) : s.Stands s := Each.refl (fun _ ↦ ⟨rfl, rfl, rfl, rfl, rfl, rfl⟩) s

theorem trans (h : s.Stands s') (h' : s'.Stands s'') : s.Stands s'' :=
  Each.trans (fun _ _ _ hr hr' ↦ ⟨hr'.entries.trans hr.entries,
    hr'.asyncParents.trans hr.asyncParents, hr'.pendingAsync.trans hr.pendingAsync,
    hr'.status.trans hr.status, hr'.evaluationError.trans hr.evaluationError,
    hr'.loaded.trans hr.loaded⟩) h h'

theorem of_modules (h : s'.modules = s.modules) : s.Stands s' :=
  Each.of_modules (fun _ ↦ ⟨rfl, rfl, rfl, rfl, rfl, rfl⟩) h

theorem modifySource (s : Store) (m : ModuleId) {f : SourceText → SourceText}
    (hf : ∀ r : SourceText, r.Stands (f r)) : s.Stands (s.modifySource m f) :=
  Each.modifySource (fun _ ↦ ⟨rfl, rfl, rfl, rfl, rfl, rfl⟩) s m fun r _ ↦ hf r

theorem newCapability (s : Store) (m : ModuleId) : s.Stands (s.newCapability m).2 := by
  have hpromise : s.Stands s.newPromise.2 := of_modules rfl
  exact hpromise.trans (modifySource _ m fun _ ↦ ⟨rfl, rfl, rfl, rfl, rfl, rfl⟩)

theorem detach (s : Store) (w : EvaluationWalk) (m : ModuleId) :
    s.Stands (EvaluationWalk.detach s w m) := by
  unfold EvaluationWalk.detach
  split
  · exact modifySource s m fun _ ↦ ⟨rfl, rfl, rfl, rfl, rfl, rfl⟩
  · exact refl s

theorem lowerAncestor (s : Store) (m : ModuleId) (i : Nat) : s.Stands (s.lowerAncestor m i) :=
  modifySource s m fun _ ↦ ⟨rfl, rfl, rfl, rfl, rfl, rfl⟩

theorem holdModule (s : Store) (m : ModuleId) : s.Stands (s.holdModule m) :=
  modifySource s m fun _ ↦ ⟨rfl, rfl, rfl, rfl, rfl, rfl⟩

theorem holdSearched (s : Store) (m : ModuleId) : s.Stands (s.holdSearched m) :=
  modifySource s m fun r ↦ by split <;> exact ⟨rfl, rfl, rfl, rfl, rfl, rfl⟩

theorem startAsync (s : Store) (m : ModuleId) : s.Stands (s.startAsync m).2 :=
  (holdModule s m).trans (of_modules (Store.modules_react _ _ _))

theorem finish (s : Store) (goal : EvaluationGoal) : s.Stands (goal.finish s).1 := by
  cases goal with
  | promise root p =>
    simp only [EvaluationGoal.finish, Store.finishEvaluation]
    split
    · exact of_modules (Store.modules_settle _ _ _)
    · exact refl s
  | force m =>
    simp only [EvaluationGoal.finish, Store.finishForced]
    split <;> exact of_modules rfl

end Store.Stands

namespace Store.Fades

variable {s s' s'' : Store}

theorem imports (h : s.Fades s') : SameImports s s' :=
  .of_each (h.mono fun _ _ hr ↦ hr.2)

theorem narrows (h : s.Fades s') : s.Narrows s' := h.mono fun _ _ hr ↦ hr.1.isOpen

theorem refl (s : Store) : s.Fades s := Each.refl (fun r ↦ ⟨.refl r, rfl⟩) s

theorem trans (h : s.Fades s') (h' : s'.Fades s'') : s.Fades s'' :=
  Each.trans (fun _ _ _ hr hr' ↦ ⟨hr.1.trans hr'.1, hr'.2.trans hr.2⟩) h h'

theorem of_stands (h : s.Stands s') : s.Fades s' :=
  h.mono fun _ _ hr ↦ ⟨.of_stands hr, hr.loaded⟩

theorem of_modules (h : s'.modules = s.modules) : s.Fades s' :=
  Each.of_modules (fun r ↦ ⟨.refl r, rfl⟩) h

theorem modifySource (s : Store) (m : ModuleId) {f : SourceText → SourceText}
    (hf : ∀ r, s.source? m = some r → r.Fades (f r) ∧ (f r).loaded = r.loaded) :
    s.Fades (s.modifySource m f) :=
  Each.modifySource (fun r ↦ ⟨.refl r, rfl⟩) s m hf

theorem foldl {α : Type} {f : Store → α → Store} (hf : ∀ (s : Store) a, s.Fades (f s a))
    (l : List α) (s : Store) : s.Fades (l.foldl f s) :=
  Each.foldl (fun r ↦ ⟨.refl r, rfl⟩) (fun _ _ _ hr hr' ↦ ⟨hr.1.trans hr'.1, hr'.2.trans hr.2⟩)
    hf l s

/-! ### What evaluation does -/

theorem completeMembers (s : Store) (root : ModuleId) (ms : List ModuleId) :
    s.Fades (s.completeMembers root ms) :=
  foldl (fun s m ↦ modifySource s m fun r _ ↦ ⟨.complete root r, rfl⟩) ms s

theorem failModules (s : Store) (stack : List ModuleId) (e : ErrorId) :
    s.Fades (s.failModules stack e) :=
  foldl (fun s m ↦ modifySource s m fun r _ ↦ ⟨.fail e r, rfl⟩) stack s

theorem fail (s : Store) (stack : List ModuleId) (e : ErrorId) (goal : EvaluationGoal) :
    s.Fades (goal.fail s stack e).1 := by
  cases goal with
  | promise root p => exact (failModules s stack e).trans (of_modules (Store.modules_settle _ _ _))
  | force m => exact failModules s stack e

theorem of_fails {e : ErrorId} (h : EcmaModules.Fails e s s') : s.Fades s' := fun x ↦ by
  rcases h x with hx | ⟨r, hr, -, hx⟩
  · rw [hx]
    exact refl s x
  · rw [hr, hx]
    exact .some ⟨.settled ⟨rfl, rfl, rfl⟩ rfl fun _ ↦ rfl, rfl⟩

theorem finishModule (s : Store) (m : ModuleId) : s.Fades (s.finishModule m) := by
  have hover : s.Fades ((s.settleAsync m).setStatus m .evaluated) := by
    rw [Store.setStatus, Store.settleAsync, Store.modifySource_modifySource]
    exact modifySource s m fun r _ ↦ ⟨.settled ⟨rfl, rfl, rfl⟩ rfl id, rfl⟩
  exact hover.trans (of_modules (Store.modules_resolveCapability _ _))

/-- A module that was only searched, and waited, no longer does. -/
theorem finishSearched {m : ModuleId} {r : SourceText} (hm : s.source? m = some r)
    (hs : r.status = .asyncSubgraphsSearchingAsync) : s.Fades (s.finishSearched m) := by
  have hover : s.Fades ((s.setStatus m .asyncSubgraphsEvaluated).settleAsync m) := by
    rw [Store.setStatus, Store.settleAsync, Store.modifySource_modifySource]
    refine modifySource s m fun q hq ↦ ?_
    obtain rfl : r = q := Option.some.inj (hm.symm.trans hq)
    refine ⟨⟨rfl, rfl, rfl, by rintro ⟨⟩, fun _ ↦ ?_, fun hf ↦ ?_⟩, rfl⟩
    · rw [hs]
      rfl
    · exact absurd (hs.symm.trans hf.1) (by simp)
  exact hover.trans (of_modules (Store.modules_resolveCapability _ _))

end Store.Fades

end EcmaModules
