import EcmaModules.Proofs.Components

/-!
# Walks of graphs without circles

In a graph in which no module requests itself, directly or not, a walk never comes back to a module
that it is still at. So the modules on its stack are those on its path, each requested by the one
below it, and each is complete as soon as the walk is through with it. Every module stands for
itself, and whoever waits for a module requests it.

All that is about runs in which nothing fails, and in which reading from namespaces starts no walks.
Loading must be over when evaluation starts.
-/

namespace EcmaModules

open EvaluationWalk (await leadsBack detach push)

/-! ## Graphs without circles -/

/-- A walk has come to the module. -/
def Status.isEntered (s : Status) : Bool := !s.isOpen || s.isSearched

@[simp] theorem Status.isEntered_outline (s : Status) : s.outline.isEntered = s.isEntered := by
  cases s <;> rfl

theorem Status.isEntered_of_isWaiting {s : Status} (h : s.isWaiting = true) :
    s.isEntered = true := by
  cases s <;> simp [isWaiting] at h <;> rfl

theorem Status.isOpen_of_isSettling {s : Status} (h : s.isSettling = true) : s.isOpen = false := by
  cases s <;> simp [isSettling] at h <;> rfl

theorem EvaluationWalk.isWalked_of_leadsBack {s t : Status} (h : leadsBack s t = true) :
    s.isWalked = true := by
  cases s <;> cases t <;> first | rfl | exact nomatch h

theorem Status.isEntered_of_isWalked {s : Status} (h : s.isWalked = true) : s.isEntered = true := by
  cases s <;> simp [isWalked] at h <;> rfl

namespace Store

/-- Everything that is requested was loaded, and no module requests itself, directly or not. -/
structure Acyclic (s : Store) : Prop where
  loaded : ∀ x, ∀ q ∈ (s.entries x).requests, (s.imported? x q).isSome
  irreflexive : ∀ x, ¬Relation.TransGen s.Requests x x

/-- No walk has come to any module. -/
def Untouched (s : Store) : Prop := ∀ x r, s.source? x = some r → r.status.isEntered = false

/-- Every module stands for itself. -/
def Own (s : Store) : Prop := ∀ x, s.cycleRoot x = x

/-- Whoever waits for a module requests it. -/
def Known (s : Store) : Prop :=
  ∀ x r, s.source? x = some r → ∀ y ∈ r.asyncParents, r.status.isEntered = true ∧ s.Requests y x

/-- No module on the stack of a walk leads back to an earlier one. -/
def Level (s : Store) : Prop :=
  ∀ x r, s.source? x = some r → r.status.isWalked = true → r.dfsAncestorIndex = r.dfsIndex

/-- Modules request the same modules as before. -/
structure SameGraph (s s' : Store) : Prop where
  entries : ∀ x, s'.entries x = s.entries x
  imports : SameImports s s'

theorem SameGraph.requests {s s' : Store} (h : s.SameGraph s') : s'.Requests = s.Requests := by
  funext x y
  simp only [Requests, h.entries, h.imports x]

theorem SameGraph.acyclic {s s' : Store} (h : s.SameGraph s') (hs : s.Acyclic) : s'.Acyclic := by
  refine ⟨fun x q hq ↦ ?_, h.requests ▸ hs.irreflexive⟩
  rw [h.imports x]
  exact hs.loaded x q (h.entries x ▸ hq)

end Store

/-! ## What becomes of modules -/

/-- What may become of a module to which no walk comes and which does not fail. -/
structure SourceText.Abides (r r' : SourceText) : Prop where
  entries : r'.entries = r.entries
  isOpen : r'.status.isOpen = r.status.isOpen
  isSearched : r'.status.isSearched = r.status.isSearched
  searching : r'.status = .asyncSubgraphsSearching → r.status = .asyncSubgraphsSearching
  evaluationError : r'.evaluationError = r.evaluationError
  walked : r'.status.isWalked = true → r.status.isWalked = true
  level : r'.status.isWalked = true → r.dfsAncestorIndex = r.dfsIndex →
    r'.dfsAncestorIndex = r'.dfsIndex

/-- Moreover, neither its component is complete nor does anybody come to wait for it. -/
structure SourceText.Idles (r r' : SourceText) : Prop extends r.Abides r' where
  loaded : r'.loaded = r.loaded
  capability : r'.capability = r.capability
  cycleRoot : r'.cycleRoot = r.cycleRoot
  asyncParents : r'.asyncParents = r.asyncParents

namespace SourceText

variable {r r' r'' : SourceText}

theorem Abides.isEntered (h : r.Abides r') : r'.status.isEntered = r.status.isEntered := by
  rw [Status.isEntered, Status.isEntered, h.isOpen, h.isSearched]

theorem Abides.of_fields (h : r'.entries = r.entries ∧ r'.status = r.status ∧
    r'.evaluationError = r.evaluationError ∧ r'.dfsIndex = r.dfsIndex ∧
      r'.dfsAncestorIndex = r.dfsAncestorIndex) : r.Abides r' := by
  obtain ⟨h1, h2, h3, h4, h5⟩ := h
  refine ⟨h1, ?_, ?_, ?_, h3, ?_, ?_⟩ <;> simp only [h2, h4, h5]
  exacts [id, id, fun _ ↦ id]

theorem Abides.refl (r : SourceText) : r.Abides r := of_fields ⟨rfl, rfl, rfl, rfl, rfl⟩

theorem Abides.trans (h : r.Abides r') (h' : r'.Abides r'') : r.Abides r'' where
  entries := h'.entries.trans h.entries
  isOpen := h'.isOpen.trans h.isOpen
  isSearched := h'.isSearched.trans h.isSearched
  searching := h.searching ∘ h'.searching
  evaluationError := h'.evaluationError.trans h.evaluationError
  walked := h.walked ∘ h'.walked
  level hw hl := h'.level hw (h.level (h'.walked hw) hl)

theorem Abides.of_outline (h : r'.outline = r.outline) : r.Abides r' := by
  have hstatus : r'.status.outline = r.status.outline := congrArg (·.status) h
  have hwalked : r'.status.isWalked = r.status.isWalked := by
    rw [← Status.isWalked_outline, hstatus, Status.isWalked_outline]
  refine ⟨(congrArg (·.entries) h :), ?_, ?_, fun hs ↦ ?_, (congrArg (·.evaluationError) h :), ?_,
    fun hw hl ↦ ?_⟩
  · rw [← Status.isOpen_outline, hstatus, Status.isOpen_outline]
  · rw [← Status.isSearched_outline, hstatus, Status.isSearched_outline]
  · rw [hs] at hstatus
    cases hr : r.status <;> rw [hr] at hstatus <;> first | rfl | exact nomatch hstatus
  · rw [hwalked]
    exact id
  · have hw₀ := hwalked ▸ hw
    rw [← outline_dfsIndex hw₀, ← outline_dfsAncestorIndex hw₀, ← h] at hl
    rwa [outline_dfsIndex hw, outline_dfsAncestorIndex hw] at hl

/-- The component of a module is complete. -/
theorem Abides.complete (root : ModuleId) (r : SourceText) : r.Abides (r.complete root) := by
  have hstatus : (r.complete root).status = EvaluationWalk.completeStatus r := rfl
  refine ⟨rfl, ?_, ?_, ?_, rfl, ?_, fun _ hl ↦ hl⟩ <;> rw [hstatus] <;>
    by_cases hp : r.asyncState = .pending <;> cases hs : r.status <;>
    simp [EvaluationWalk.completeStatus, hs, hp, Status.isOpen, Status.isSearched, Status.isWalked]

theorem Idles.of_fields (h : r'.entries = r.entries ∧ r'.status = r.status ∧
      r'.evaluationError = r.evaluationError ∧ r'.dfsIndex = r.dfsIndex ∧
      r'.dfsAncestorIndex = r.dfsAncestorIndex)
    (hl : r'.loaded = r.loaded ∧ r'.capability = r.capability)
    (hc : r'.cycleRoot = r.cycleRoot) (hp : r'.asyncParents = r.asyncParents) : r.Idles r' :=
  ⟨.of_fields h, hl.1, hl.2, hc, hp⟩

theorem Idles.refl (r : SourceText) : r.Idles r := ⟨.refl r, rfl, rfl, rfl, rfl⟩

end SourceText

namespace Store

theorem Each.newCapability {R : SourceText → SourceText → Prop} {s : Store} {root : ModuleId}
    (hR : ∀ r, R r r) (hR' : ∀ r, R r { r with capability := some (s.newCapability root).1 }) :
    s.Each R (s.newCapability root).2 :=
  Each.modifySource hR s.newPromise.2 root fun r _ ↦ hR' r

/-- No walk comes to a module or starts, and none fails. -/
structure Abides (s s' : Store) : Prop where
  each : s.Each SourceText.Abides s'
  imports : SameImports s s'
  capability : ∀ x, s'.capability? x = s.capability? x
  own : s.Own → s'.Own
  known : s.Known → s'.Known

namespace Abides

variable {s s' s'' : Store} {m d : ModuleId} {r : SourceText}

theorem entries_of_each (h : s.Each SourceText.Abides s') (x : ModuleId) :
    s'.entries x = s.entries x := by
  have hx := h x
  unfold Store.entries
  revert hx
  cases s.source? x <;> cases s'.source? x <;> rintro ⟨⟩
  · rfl
  · next hr => exact hr.entries

theorem graph (h : s.Abides s') : s.SameGraph s' := ⟨entries_of_each h.each, h.imports⟩

theorem trans (h : s.Abides s') (h' : s'.Abides s'') : s.Abides s'' :=
  ⟨Each.trans (fun _ _ _ ↦ .trans) h.each h'.each, h.imports.trans h'.imports,
    fun x ↦ (h'.capability x).trans (h.capability x), h'.own ∘ h.own, h'.known ∘ h.known⟩

theorem level (h : s.Each SourceText.Abides s') (hs : s.Level) : s'.Level := by
  intro x r' hr' hw
  obtain ⟨r, hr, habides⟩ := h.before hr'
  exact habides.level hw (hs x r hr (habides.walked hw))

theorem untouched (h : s.Each SourceText.Abides s') (hs : s.Untouched) : s'.Untouched := by
  intro x r' hr'
  obtain ⟨r, hr, habides⟩ := h.before hr'
  exact habides.isEntered.trans (hs x r hr)

theorem evaluationError? (h : s.Each SourceText.Abides s') (x : ModuleId) :
    s'.evaluationError? x = s.evaluationError? x := by
  have hx := h x
  unfold Store.evaluationError?
  revert hx
  cases s.source? x <;> cases s'.source? x <;> rintro ⟨⟩
  · rfl
  · next hr => exact hr.evaluationError

/-- Whoever waits for a module waits for the same one as before. -/
theorem known_of_each (hs : s.Each SourceText.Abides s') (hi : SameImports s s')
    (hp : s.Each (fun r r' ↦ r'.asyncParents = r.asyncParents) s') (h : s.Known) : s'.Known := by
  intro x r' hr' y hy
  obtain ⟨r, hr, habides⟩ := hs.before hr'
  obtain ⟨r₀, hr₀, heq⟩ := hp.before hr'
  obtain rfl : r = r₀ := Option.some.inj (hr.symm.trans hr₀)
  have hgraph : s.SameGraph s' := ⟨entries_of_each hs, hi⟩
  rw [hgraph.requests, habides.isEntered]
  exact h x r hr y (heq ▸ hy)

/-- Modules stand for themselves if they did. -/
theorem own_of_roots (h : SameRoots s s') (ho : s.Own) : s'.Own := fun x ↦ (h x).trans (ho x)

theorem of_idles (h : s.Each SourceText.Idles s') : s.Abides s' := by
  have heach := h.mono fun _ _ hr ↦ hr.toAbides
  have himports : SameImports s s' := .of_each (h.mono fun _ _ hr ↦ hr.loaded)
  refine ⟨heach, himports, capability?_of_each (h.mono fun _ _ hr ↦ hr.capability),
    own_of_roots fun x ↦ ?_, known_of_each heach himports (h.mono fun _ _ hr ↦ hr.asyncParents)⟩
  have hx := h x
  unfold Store.cycleRoot
  revert hx
  cases s.source? x <;> cases s'.source? x <;> rintro ⟨⟩
  · rfl
  · next hr =>
    change (Option.getD (SourceText.cycleRoot _) x) = _
    rw [hr.cycleRoot]
    rfl

theorem of_modules (h : s'.modules = s.modules) : s.Abides s' :=
  of_idles (Each.of_modules .refl h)

theorem refl (s : Store) : s.Abides s := of_modules rfl

theorem modifySource (s : Store) (m : ModuleId) {f : SourceText → SourceText}
    (hf : ∀ r, s.source? m = some r → r.Idles (f r)) : s.Abides (s.modifySource m f) :=
  of_idles (Each.modifySource .refl s m hf)

theorem roots_of_outline (ho : s'.outline = s.outline) : SameRoots s s' := by
  intro x
  have hx := Each.of_outline ho x
  unfold Store.cycleRoot
  revert hx
  cases s.source? x <;> cases s'.source? x <;> rintro ⟨⟩
  · rfl
  · next hr =>
    have hroot := congrArg (·.cycleRoot) hr
    change (Option.getD (SourceText.cycleRoot _) x) = (Option.getD (SourceText.cycleRoot _) x)
    exact congrArg (Option.getD · x) hroot

theorem of_outline (ho : s'.outline = s.outline) (hi : SameImports s s') : s.Abides s' := by
  have h := Each.of_outline ho
  have heach := h.mono fun _ _ hr ↦ SourceText.Abides.of_outline hr
  refine ⟨heach, hi, capability?_of_each (h.mono fun _ _ hr ↦ (congrArg (·.capability) hr :)),
    own_of_roots (roots_of_outline ho), known_of_each heach hi ?_⟩
  exact h.mono fun _ _ hr ↦ (congrArg (·.asyncParents) hr :)

/-! ### What evaluation does -/

theorem holdModule (s : Store) (m : ModuleId) : s.Abides (s.holdModule m) :=
  modifySource s m fun _ _ ↦ .of_fields ⟨rfl, rfl, rfl, rfl, rfl⟩ ⟨rfl, rfl⟩ rfl rfl

theorem holdSearched (s : Store) (m : ModuleId) : s.Abides (s.holdSearched m) := by
  refine modifySource s m fun r _ ↦ ?_
  split
  · exact .refl r
  · exact .of_fields ⟨rfl, rfl, rfl, rfl, rfl⟩ ⟨rfl, rfl⟩ rfl rfl

theorem startAsync (s : Store) (m : ModuleId) : s.Abides (s.startAsync m).2 :=
  (holdModule s m).trans (of_modules (modules_react _ _ _))

theorem lessen (s : Store) (m : ModuleId) : s.Abides (s.lessen m) :=
  modifySource s m fun _ _ ↦ .of_fields ⟨rfl, rfl, rfl, rfl, rfl⟩ ⟨rfl, rfl⟩ rfl rfl

theorem finishModule (hm : s.source? m = some r) (hr : r.status.isOpen = false) :
    s.Abides (s.finishModule m) := by
  have hover : s.Abides ((s.settleAsync m).setStatus m .evaluated) := by
    rw [setStatus, settleAsync, modifySource_modifySource]
    refine modifySource s m fun q hq ↦ ?_
    obtain rfl : r = q := Option.some.inj (hm.symm.trans hq)
    refine ⟨⟨rfl, hr.symm, ?_, by simp, rfl, by rintro ⟨⟩, by simp⟩, rfl, rfl, rfl, rfl⟩
    cases hs : r.status <;> simp [hs, Status.isOpen] at hr <;> rfl
  exact hover.trans (of_modules (modules_resolveCapability _ _))

theorem finishSearched (hm : s.source? m = some r)
    (hr : r.status = .asyncSubgraphsSearchingAsync) : s.Abides (s.finishSearched m) := by
  have hover : s.Abides ((s.setStatus m .asyncSubgraphsEvaluated).settleAsync m) := by
    rw [setStatus, settleAsync, modifySource_modifySource]
    refine modifySource s m fun q hq ↦ ?_
    obtain rfl : r = q := Option.some.inj (hm.symm.trans hq)
    exact ⟨⟨rfl, by rw [hr]; rfl, by rw [hr]; rfl, by simp, rfl, by rintro ⟨⟩, by simp⟩,
      rfl, rfl, rfl, rfl⟩
  exact hover.trans (of_modules (modules_resolveCapability _ _))

theorem finish (s : Store) (goal : EvaluationGoal) : s.Abides (goal.finish s).1 := by
  refine of_modules ?_
  cases goal with
  | promise root p =>
    simp only [EvaluationGoal.finish, finishEvaluation]
    split
    · exact modules_settle _ _ _
    · rfl
  | force m =>
    simp only [EvaluationGoal.finish, finishForced]
    split <;> rfl

/-- A module comes to stand for itself. -/
theorem represent (s : Store) (m : ModuleId) {f : SourceText → SourceText}
    (hf : ∀ r : SourceText, r.Abides (f r) ∧ (f r).loaded = r.loaded ∧
      (f r).capability = r.capability ∧ (f r).asyncParents = r.asyncParents ∧
        (f r).cycleRoot = some m) :
    s.Abides (s.modifySource m f) := by
  have heach : s.Each SourceText.Abides (s.modifySource m f) :=
    Each.modifySource .refl s m fun r _ ↦ (hf r).1
  have himports : SameImports s (s.modifySource m f) := .modifySource s m fun r ↦ (hf r).2.1
  have hparents := Each.modifySource (R := fun r r' ↦ r'.asyncParents = r.asyncParents)
    (fun _ ↦ rfl) s m fun r _ ↦ (hf r).2.2.2.1
  have hcapability := Each.modifySource (R := fun r r' ↦ r'.capability = r.capability)
    (fun _ ↦ rfl) s m fun r _ ↦ (hf r).2.2.1
  refine ⟨heach, himports, capability?_of_each hcapability, fun ho x ↦ ?_,
    known_of_each heach himports hparents⟩
  unfold Store.cycleRoot
  rw [source?_modifySource]
  split
  · next hx =>
    subst hx
    rcases s.source? x with _ | r
    · rfl
    · simp [(hf r).2.2.2.2]
  · exact ho x

theorem detach (s : Store) (w : EvaluationWalk) (m : ModuleId) :
    s.Abides (EvaluationWalk.detach s w m) := by
  unfold EvaluationWalk.detach
  split
  · exact represent s m fun _ ↦ ⟨.of_fields ⟨rfl, rfl, rfl, rfl, rfl⟩, rfl, rfl, rfl, rfl⟩
  · exact refl s

/-- A module is a component of its own. -/
theorem completeMember (s : Store) (m : ModuleId) : s.Abides (s.completeMembers m [m]) :=
  represent s m fun r ↦ ⟨.complete m r, rfl, rfl, rfl, rfl⟩

/-- A module comes to know one that requests it. -/
theorem addParent (h : s.Requests m d)
    (hd : ∀ q, s.source? d = some q → q.status.isEntered = true) :
    s.Abides (s.modifySource d fun q ↦ { q with asyncParents := q.asyncParents ++ [m] }) := by
  have heach := Each.modifySource (R := SourceText.Abides) .refl s d
    (f := fun q ↦ { q with asyncParents := q.asyncParents ++ [m] })
    fun _ _ ↦ .of_fields ⟨rfl, rfl, rfl, rfl, rfl⟩
  have himports := SameImports.modifySource s d
    (f := fun q ↦ { q with asyncParents := q.asyncParents ++ [m] }) fun _ ↦ rfl
  have hcapability := Each.modifySource (R := fun r r' ↦ r'.capability = r.capability)
    (fun _ ↦ rfl) s d (f := fun q ↦ { q with asyncParents := q.asyncParents ++ [m] })
    fun _ _ ↦ rfl
  refine ⟨heach, himports, capability?_of_each hcapability,
    own_of_roots (.modifySource s d fun _ ↦ rfl), fun hk x q' hq' y hy ↦ ?_⟩
  have hgraph : s.SameGraph _ := ⟨entries_of_each heach, himports⟩
  rw [hgraph.requests]
  rw [source?_modifySource] at hq'
  split at hq'
  · next hx =>
    subst hx
    obtain ⟨q, hq, rfl⟩ := Option.map_eq_some_iff.1 hq'
    rcases List.mem_append.1 hy with hy | hy
    · exact hk x q hq y hy
    · obtain rfl := List.mem_singleton.1 hy
      exact ⟨hd q hq, h⟩
  · exact hk x q' hq' y hy

/-- A module comes to wait for one that it requests. -/
theorem await (h : s.Requests m d)
    (hd : ∀ q, s.source? d = some q → q.asyncState = .pending → q.status.isEntered = true) :
    s.Abides (EvaluationWalk.await s m d) := by
  rcases EvaluationWalk.await_cases s m d with heq | ⟨r, q, hr, hq, hpending, -, heq⟩
  · rw [heq]
    exact refl s
  have hcount : s.Abides (s.modifySource m fun r ↦ { r with pendingAsync := r.pendingAsync + 1 }) :=
    modifySource s m fun _ _ ↦ .of_fields ⟨rfl, rfl, rfl, rfl, rfl⟩ ⟨rfl, rfl⟩ rfl rfl
  rw [heq]
  refine hcount.trans (addParent (hcount.graph.requests ▸ h) fun q' hq' ↦ ?_)
  obtain ⟨q₀, hq₀, habides⟩ := hcount.each.before hq'
  obtain rfl : q = q₀ := Option.some.inj (hq.symm.trans hq₀)
  rw [habides.isEntered]
  exact hd q hq hpending

end Abides

end Store

/-! ## Coming to a module -/

section

variable {s : Store} {w : EvaluationWalk} {d : ModuleId} {t t' : Traversal} {r : SourceText}

theorem EvaluationWalk.graph_push (s : Store) (w : EvaluationWalk) (d : ModuleId) (t : Traversal) :
    s.SameGraph (push s w d t).1 := by
  refine ⟨fun x ↦ ?_, .modifySource s d fun _ ↦ rfl⟩
  unfold Store.entries push
  rw [Store.source?_modifySource]
  split
  · cases s.source? x <;> rfl
  · rfl

theorem EvaluationWalk.own_push (h : s.Own) : (push s w d t).1.Own :=
  Store.Abides.own_of_roots (.modifySource s d fun _ ↦ rfl) h

theorem EvaluationWalk.level_push (h : s.Level) : (push s w d t).1.Level := by
  intro x r' hr' hw
  rw [push, Store.source?_modifySource] at hr'
  split at hr'
  · obtain ⟨r, -, rfl⟩ := Option.map_eq_some_iff.1 hr'
    rfl
  · exact h x r' hr' hw

/-- A module that is entered keeps those who wait for it only if it was entered before. -/
theorem EvaluationWalk.known_push (h : s.Known) : (push s w d t).1.Known := by
  intro x r' hr' y hy
  rw [(graph_push s w d t).requests]
  rw [push, Store.source?_modifySource] at hr'
  split at hr'
  · next hx =>
    subst hx
    obtain ⟨r, hr, rfl⟩ := Option.map_eq_some_iff.1 hr'
    refine ⟨by cases t <;> rfl, ?_⟩
    simp only [SourceText.entered] at hy
    split at hy
    · exact (h x r hr y hy).2
    · exact absurd hy List.not_mem_nil
  · exact h x r' hr' y hy

theorem EvaluationWalk.errorless_push (h : ∀ x, s.evaluationError? x = none) (x : ModuleId) :
    (push s w d t).1.evaluationError? x = none := by
  rw [← h x]
  unfold Store.evaluationError? push
  rw [Store.source?_modifySource]
  split
  · cases s.source? x <;> rfl
  · rfl

end

/-! ## Paths -/

/-- The module that the walk has to do with, apart from those that it goes on with. -/
def Stance.focus : Stance → List ModuleId
  | .here => []
  | .coming d _ | .back d => [d]
  | .running m | .through m => [m]

/-- The walk is at a path of modules, each of which requests the next one, and only these are on its
stack. -/
structure Course (s : Store) (τ : Tour) : Prop where
  stack : τ.walk.stack = τ.path
  chain : (τ.stance.focus ++ τ.walk.frames.map (·.module)).IsChain fun x y ↦ s.Requests y x
  requests : ∀ f ∈ τ.walk.frames, f.requests ⊆ (s.entries f.module).requests

namespace Course

variable {s s' : Store} {τ : Tour} {goal : EvaluationGoal} {st : Stance} {w : EvaluationWalk}
  {d m : ModuleId} {f : EvaluationFrame} {rest : List EvaluationFrame}

theorem of_graph (h : Course s τ) (hs : s.SameGraph s') : Course s' τ := by
  refine ⟨h.stack, ?_, fun f hf ↦ ?_⟩
  · rw [hs.requests]
    exact h.chain
  · rw [hs.entries]
    exact h.requests f hf

/-- What is below a module on a path leads to it. -/
theorem reaches_of_chain {l : List ModuleId} (h : (d :: l).IsChain fun x y ↦ s.Requests y x) :
    ∀ x ∈ l, Relation.TransGen s.Requests x d := by
  induction l generalizing d with
  | nil => exact nofun
  | cons y l ih =>
    obtain ⟨hy, htail⟩ := List.isChain_cons_cons.1 h
    intro x hx
    rcases List.mem_cons.1 hx with rfl | hx
    · exact .single hy
    · exact (ih htail x hx).tail hy

/-- A walk never has to do with a module that it is still at. -/
theorem not_mem_frames (h : Course s ⟨goal, st, w⟩) (hs : s.Acyclic) (hd : st.focus = [d]) :
    d ∉ w.frames.map (·.module) := by
  have hchain := h.chain
  change (st.focus ++ _).IsChain _ at hchain
  rw [hd] at hchain
  exact fun hmem ↦ hs.irreflexive d (reaches_of_chain hchain d hmem)

/-- The module on top of the path of a walk requests the one that the walk has to do with. -/
theorem requests_focus (h : Course s ⟨goal, st, w⟩) (hd : st.focus = [d])
    (hf : w.frames = f :: rest) : s.Requests f.module d := by
  have hchain := h.chain
  change (st.focus ++ w.frames.map _).IsChain _ at hchain
  rw [hd, hf] at hchain
  exact (List.isChain_cons_cons.1 hchain).1

/-- The walk turns to the next request. -/
theorem request {t : Traversal} {r : Request} {requests : List Request}
    (h : Course s ⟨goal, .here, w⟩) (hf : w.frames = ⟨m, t, r :: requests⟩ :: rest)
    (hd : s.imported? m r = some d) (t' : Traversal) :
    Course s ⟨goal, .coming d t', { w with frames := ⟨m, t, requests⟩ :: rest }⟩ := by
  have hstack := h.stack
  have hchain := h.chain
  have hrequests := h.requests
  simp only [Tour.path, Stance.top, Stance.focus, List.nil_append, hf, List.map_cons] at hstack hchain hrequests
  obtain ⟨hhead, htail⟩ := List.forall_mem_cons.1 hrequests
  refine ⟨hstack, ?_, List.forall_mem_cons.2 ⟨fun q hq ↦ hhead (List.mem_cons_of_mem r hq), htail⟩⟩
  exact List.isChain_cons_cons.2 ⟨⟨r, hhead List.mem_cons_self, hd⟩, hchain⟩

/-- The walk goes on with the module on top of its path. -/
theorem here (h : Course s ⟨goal, st, w⟩) (hst : st.top = []) : Course s ⟨goal, .here, w⟩ := by
  refine ⟨h.stack.trans ?_, (List.isChain_append.1 h.chain).2.1, h.requests⟩
  change st.top ++ w.frames.map (·.module) = _
  rw [hst]
  rfl

/-- The walk has to do with the same module. -/
theorem turn (h : Course s ⟨goal, st, w⟩) {st' : Stance} (hfocus : st'.focus = st.focus)
    (htop : st'.top = st.top) : Course s ⟨goal, st', w⟩ := by
  refine ⟨h.stack.trans ?_, ?_, h.requests⟩
  · simp [Tour.path, htop]
  · change (st'.focus ++ _).IsChain _
    rw [hfocus]
    exact h.chain

/-- The walk has gone through the requests of the module on top of its path. -/
theorem through {t : Traversal} {st : Stance} (h : Course s ⟨goal, .here, w⟩)
    (hf : w.frames = ⟨m, t, []⟩ :: rest) (hst : st = .through m ∨ st = .running m) :
    Course s ⟨goal, st, { w with frames := rest }⟩ := by
  have hstack := h.stack
  have hchain := h.chain
  have hrequests := h.requests
  simp only [Tour.path, Stance.top, Stance.focus, List.nil_append, hf, List.map_cons] at hstack hchain hrequests
  rcases hst with rfl | rfl
  all_goals exact ⟨hstack, hchain, (List.forall_mem_cons.1 hrequests).2⟩

/-- The module that a walk is through with is on top of its stack. -/
theorem pop {above below : List ModuleId} (h : Course s ⟨goal, .through m, w⟩)
    (hstack : w.stack = above ++ m :: below) (hm : m ∉ above) :
    above = [] ∧ Course s ⟨goal, .back m, { w with stack := below }⟩ := by
  have heq : above ++ m :: below = m :: w.frames.map (·.module) := hstack.symm.trans h.stack
  rcases above with _ | ⟨a, above⟩
  · exact ⟨rfl, ⟨(List.cons.inj heq).2, h.chain, h.requests⟩⟩
  · exact absurd ((List.cons.inj heq).1 ▸ List.mem_cons_self) hm

/-- The walk enters the module that it comes to. -/
theorem enter {t t' : Traversal} {i : Nat} (h : Course s ⟨goal, .coming d t, w⟩) :
    Course s ⟨goal, .here, ⟨⟨d, t', (s.entries d).requests⟩ :: w.frames, d :: w.stack, i⟩⟩ := by
  refine ⟨?_, h.chain, List.forall_mem_cons.2 ⟨List.Subset.refl _, h.requests⟩⟩
  exact congrArg (d :: ·) h.stack

end Course

/-! ## Scenes -/

/-- Loading and evaluating take turns only once, evaluation starts in graphs without circles, reading
starts no walks, and nothing fails. -/
def Mode.smooth : Mode :=
  ⟨Store.Untouched, Store.Acyclic, True, False, True, False, False, False, False⟩

/-- What holds of walks and modules in graphs without circles. -/
structure Scene.Straight (S : Scene) : Prop where
  acyclic : S.tours ≠ [] ∨ ¬S.store.Untouched → S.store.Acyclic
  own : S.store.Own
  known : S.store.Known
  level : S.store.Level
  errorless : ∀ x, S.store.evaluationError? x = none
  single : S.tours.length ≤ 1
  alone : S.tours ≠ [] → S.queue = [] ∧ S.lone = [] ∧ S.due = []
  courses : ∀ τ ∈ S.tours, Course S.store τ
  goals : ∀ τ ∈ S.tours, ∃ root p, τ.goal = .promise root p

namespace Scene.Straight

variable {s s' : Store} {τ τ' : Tour} {T : List Tour} {F F' X X' G G' : List ModuleId}
  {J J' : List Job} {H H' : List Event}

/-- Walks stay where they are, or end. -/
theorem still (h : Straight ⟨s, T, F, X, G, J, H⟩) (hs : s.Abides s') :
    Straight ⟨s', T, F, X, G, J', H'⟩ where
  acyclic hstarted := by
    refine hs.graph.acyclic (h.acyclic (hstarted.imp id fun htouched huntouched ↦ ?_))
    exact htouched (Store.Abides.untouched hs.each huntouched)
  own := hs.own h.own
  known := hs.known h.known
  level := Store.Abides.level hs.each h.level
  errorless x := (Store.Abides.evaluationError? hs.each x).trans (h.errorless x)
  single := h.single
  alone := h.alone
  courses τ hτ := (h.courses τ hτ).of_graph hs.graph
  goals := h.goals

/-- There are no walks. -/
theorem quiet (h : Straight ⟨s, T, F, X, G, J, H⟩) (hs : s.Abides s') :
    Straight ⟨s', [], F', X', G', J', H'⟩ where
  acyclic hstarted := by
    refine hs.graph.acyclic (h.acyclic (.inr fun huntouched ↦ ?_))
    exact hstarted.resolve_left (not_not_intro rfl) (Store.Abides.untouched hs.each huntouched)
  own := hs.own h.own
  known := hs.known h.known
  level := Store.Abides.level hs.each h.level
  errorless x := (Store.Abides.evaluationError? hs.each x).trans (h.errorless x)
  single := Nat.zero_le _
  alone := nofun
  courses := nofun
  goals := nofun

/-- The walk goes on. -/
theorem walk (h : Straight ⟨s, τ :: T, F, X, G, J, H⟩) (hs : s.Abides s')
    (hcourse : Course s τ') (hgoal : τ'.goal = τ.goal) :
    Straight ⟨s', τ' :: T, F, X, G, J, H'⟩ where
  acyclic _ := hs.graph.acyclic (h.acyclic (.inl (List.cons_ne_nil _ _)))
  own := hs.own h.own
  known := hs.known h.known
  level := Store.Abides.level hs.each h.level
  errorless x := (Store.Abides.evaluationError? hs.each x).trans (h.errorless x)
  single := h.single
  alone _ := h.alone (List.cons_ne_nil _ _)
  courses := by
    refine List.forall_mem_cons.2 ⟨hcourse.of_graph hs.graph, fun τ₀ hτ₀ ↦ ?_⟩
    exact (h.courses τ₀ (List.mem_cons_of_mem _ hτ₀)).of_graph hs.graph
  goals := by
    obtain ⟨hhead, htail⟩ := List.forall_mem_cons.1 h.goals
    exact List.forall_mem_cons.2 ⟨hgoal ▸ hhead, htail⟩

theorem tours_eq (h : Straight ⟨s, τ :: T, F, X, G, J, H⟩) : T = [] := by
  have hsingle : (τ :: T).length ≤ 1 := h.single
  exact List.length_eq_zero_iff.1 (by simpa using hsingle)

theorem course (h : Straight ⟨s, τ :: T, F, X, G, J, H⟩) : Course s τ :=
  h.courses τ List.mem_cons_self

theorem graph (h : Straight ⟨s, τ :: T, F, X, G, J, H⟩) : s.Acyclic :=
  h.acyclic (.inl (List.cons_ne_nil _ _))

/-- The module that a walk comes to, or is back from, is on the stack of no walk. -/
theorem not_walked {goal : EvaluationGoal} {st : Stance} {w : EvaluationWalk} {d : ModuleId}
    {q : SourceText} (h : Straight ⟨s, ⟨goal, st, w⟩ :: T, F, X, G, J, H⟩)
    (hsound : Sound s.outline (⟨goal, st, w⟩ :: T) F X G H) (hfocus : st.focus = [d])
    (htop : st.top = []) (hq : s.source? d = some q) : q.status.isWalked = false := by
  obtain rfl := h.tours_eq
  rw [← Bool.not_eq_true]
  intro hw
  obtain ⟨τ, hτ, hmem⟩ := (hsound.lawful d _ (Store.outline_eq_some hq)).stacked.2 (by simpa using hw)
  obtain rfl := List.mem_singleton.1 hτ
  rw [h.course.stack] at hmem
  change d ∈ st.top ++ w.frames.map (·.module) at hmem
  rw [htop] at hmem
  exact h.course.not_mem_frames h.graph hfocus hmem

/-- A walk has taken a module off its stack before it goes back to the one below. -/
theorem not_led {goal : EvaluationGoal} {st : Stance} {w : EvaluationWalk} {d : ModuleId}
    {q : SourceText} (h : Straight ⟨s, ⟨goal, st, w⟩ :: T, F, X, G, J, H⟩)
    (hsound : Sound s.outline (⟨goal, st, w⟩ :: T) F X G H)
    (hst : st = .back d ∨ st = .through d ∧ s.isComponentRoot d = false)
    (hq : s.source? d = some q) : q.status.isWalked = false := by
  rcases hst with rfl | ⟨rfl, hroot⟩
  · exact h.not_walked hsound rfl rfl hq
  · have hmem : d ∈ w.stack := h.course.stack ▸ List.mem_cons_self
    have hwalked := (hsound.lawful d _ (Store.outline_eq_some hq)).stacked.1
      ⟨_, List.mem_cons_self, hmem⟩
    have hlevel := h.level d q hq (by simpa using hwalked)
    simp [Store.isComponentRoot, hq, hlevel] at hroot

/-- Modules are loaded. -/
theorem load (h : Straight ⟨s, [], F, X, G, J, H⟩) (hs : s.Untouched)
    (ho : s'.outline = s.outline) : Straight ⟨s', [], F, X, G, J, H⟩ := by
  have heach := (Store.Each.of_outline ho).mono fun _ _ hr ↦ SourceText.Abides.of_outline hr
  have huntouched := Store.Abides.untouched heach hs
  refine ⟨fun hstarted ↦ ?_, Store.Abides.own_of_roots (Store.Abides.roots_of_outline ho) h.own,
    fun x r' hr' y hy ↦ ?_, Store.Abides.level heach h.level,
    fun x ↦ (Store.Abides.evaluationError? heach x).trans (h.errorless x), h.single, h.alone,
    nofun, nofun⟩
  · exact absurd huntouched (hstarted.resolve_left (not_not_intro rfl))
  · obtain ⟨r, hr, hparents⟩ := (Store.Each.of_outline ho).before hr'
    have hy₀ : y ∈ r.asyncParents := (congrArg (·.asyncParents) hparents :) ▸ hy
    have hentered := (h.known x r hr y hy₀).1
    rw [hs x r hr] at hentered
    exact nomatch hentered

/-- A walk starts. -/
theorem start (h : Straight ⟨s, [], [], [], [], J, H⟩) (hs : s.Acyclic) (root : ModuleId)
    (p : PromiseId) : Straight ⟨(s.newCapability root).2,
      [⟨.promise root p, .coming root .executing, {}⟩], [], [], [], J, H⟩ := by
  have heach : s.Each SourceText.Abides (s.newCapability root).2 :=
    .newCapability .refl fun _ ↦ .of_fields ⟨rfl, rfl, rfl, rfl, rfl⟩
  have himports : SameImports s (s.newCapability root).2 := .of_each <|
    Store.Each.newCapability (fun _ ↦ rfl) fun _ ↦ rfl
  have hroots : SameRoots s (s.newCapability root).2 :=
    (SameRoots.of_modules rfl : SameRoots s s.newPromise.2).trans
      (.modifySource _ root fun _ ↦ rfl)
  exact {
    acyclic := fun _ ↦ Store.SameGraph.acyclic ⟨Store.Abides.entries_of_each heach, himports⟩ hs
    own := Store.Abides.own_of_roots hroots h.own
    known := Store.Abides.known_of_each heach himports
      (Store.Each.newCapability (fun _ ↦ rfl) fun _ ↦ rfl) h.known
    level := Store.Abides.level heach h.level
    errorless := fun x ↦ (Store.Abides.evaluationError? heach x).trans (h.errorless x)
    single := Nat.le_refl _
    alone := fun _ ↦ ⟨rfl, rfl, rfl⟩
    courses := List.forall_mem_singleton.2 ⟨rfl, .singleton _, nofun⟩
    goals := List.forall_mem_singleton.2 ⟨root, p, rfl⟩ }

/-- A walk enters a module. -/
theorem enter {goal : EvaluationGoal} {w : EvaluationWalk} {d : ModuleId} {t t' : Traversal}
    (h : Straight ⟨s, ⟨goal, .coming d t, w⟩ :: T, F, X, G, J, H⟩) :
    Straight ⟨(push s w d t').1, ⟨goal, .here, (push s w d t').2⟩ :: T, F, X, G, J, H⟩ := by
  obtain rfl := h.tours_eq
  have hgraph := EvaluationWalk.graph_push s w d t'
  have hgoal : ∃ root p, goal = .promise root p := h.goals _ List.mem_cons_self
  exact {
    acyclic := fun _ ↦ hgraph.acyclic h.graph
    own := EvaluationWalk.own_push h.own
    known := EvaluationWalk.known_push h.known
    level := EvaluationWalk.level_push h.level
    errorless := EvaluationWalk.errorless_push h.errorless
    single := Nat.le_refl _
    alone := fun _ ↦ h.alone (List.cons_ne_nil _ _)
    courses := List.forall_mem_singleton.2 (h.course.enter.of_graph hgraph)
    goals := fun τ hτ ↦ List.mem_singleton.1 hτ ▸ hgoal }

end Scene.Straight

/-- Every move keeps walks straight. -/
theorem Move.straight {S S' : Scene} (hmove : Move .smooth S S') (hv : Valid S) (h : S.Straight) :
    S'.Straight := by
  have hs := hv.sound
  cases hmove with
  | @aside s s' T F X G J H ha hi =>
    rcases hi with ⟨rfl, huntouched⟩ | hi
    · exact h.load huntouched ha.outline
    · exact h.still (.of_outline ha.outline hi)
  | note a r => exact h.still (.refl _)
  | @evaluate s m root H hm hroot hcap hacyclic =>
    exact h.start hacyclic root _
  | force _ _ _ _ _ hforces => exact absurd hforces.1 id
  | @request s goal w m t r rs rest T F X G J H d hf hd =>
    exact h.walk (.refl s) (h.course.request hf hd _) rfl
  | unloaded _ _ hskips => exact absurd hskips id
  | @synthetic s goal w t T F X G J H d hd => exact h.walk (.refl s) (h.course.here rfl) rfl
  | @pass s goal w t T F X G J H d r hd ha _ =>
    refine h.walk ?_ (h.course.turn rfl rfl) rfl
    split
    · exact .detach s w d
    · exact .refl s
  | enter hd ha hnot _ => exact h.enter
  | @leaveLast s goal w T F X G J H d hf => exact h.walk (.refl s) (h.course.here rfl) rfl
  | leaveBack hst hf hr hq hlead =>
    exact nomatch (h.not_led hs hst hq).symm.trans (EvaluationWalk.isWalked_of_leadsBack hlead)
  | leaveSearched hst hf hr hq hlead hqs =>
    exact nomatch (h.not_led hs hst hq).symm.trans (congrArg Status.isWalked hqs)
  | @leaveOff s goal w f rest T F X G J H d r q hf hr hq hlead hqs he =>
    rw [h.own d]
    refine h.walk (.await (h.course.requests_focus rfl hf) fun q' hq' hpending ↦ ?_)
      (h.course.here rfl) rfl
    have := (hs.lawful d _ (Store.outline_eq_some hq')).pending hpending
    exact Status.isEntered_of_isWaiting (by simpa using this)
  | @hold s goal w m rest T F X G J H r hf hr hpos =>
    exact h.walk (.holdModule s m) (h.course.through hf (.inl rfl)) rfl
  | @run s goal w m rest T F X G J H r hf hr h0 hw =>
    exact h.walk (.refl s) (h.course.through hf (.inr rfl)) rfl
  | @runAsync s goal w m rest T F X G J H r hf hr h0 hw =>
    exact h.walk (.startAsync s m) (h.course.through hf (.inr rfl)) rfl
  | @search s goal w m rest T F X G J H hf =>
    exact h.walk (.holdSearched s m) (h.course.through hf (.inl rfl)) rfl
  | ended hb hc => exact h.walk (.refl _) (h.course.turn rfl rfl) rfl
  | @pop s goal w m above below T F X G J H hstack hnot hroot =>
    obtain ⟨rfl, hcourse⟩ := h.course.pop hstack hnot
    exact h.walk (.completeMember s m) hcourse rfl
  | @done s goal w T F X G J H hf =>
    obtain rfl := h.tours_eq
    exact h.quiet (.finish s goal)
  | fail e _ _ hfails => exact absurd hfails id
  | failed e _ hfails => exact absurd hfails id
  | take hj => exact h.quiet (.of_modules rfl)
  | drop hj => exact h.still (.refl _)
  | late hst => exact h.quiet (.refl _)
  | @fulfill s m r H hm hst =>
    obtain ⟨p, hp, -⟩ := hv.ledger.job m (.ok ()) (by simp)
    have hsettling := hs.settling_of_begun ⟨_, hp⟩ hm
    exact h.quiet (.finishModule hm (Status.isOpen_of_isSettling hsettling))
  | reject hfails => exact absurd hfails id
  | skip _ => exact h.quiet (.refl _)
  | lessen hF hb hm h0 => exact h.quiet (.lessen _ _)
  | release hF hb hm h0 => exact h.quiet (.lessen _ _)
  | past _ => exact h.quiet (.refl _)
  | pastSearched hm hw hst => exact h.quiet (.finishSearched hm hst)
  | free hm hst hw hst' => exact h.quiet (.refl _)
  | freeAsync hm hst hw => exact h.quiet (.startAsync _ _)
  | @freed s m F H =>
    obtain ⟨q, hq, -, hb⟩ := hs.lone m (List.mem_singleton.2 rfl)
    obtain ⟨r, hm, -⟩ := Store.source?_of_outline hq
    have hsettling := hs.settling_of_begun hb hm
    exact h.quiet (.finishModule hm (Status.isOpen_of_isSettling hsettling))
  | freedError hfails => exact absurd hfails id
  | freedAsync hb => exact h.quiet (.refl _)

end EcmaModules
