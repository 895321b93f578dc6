import EcmaModules.Proofs.Closure
import EcmaModules.Proofs.Keys

/-!
# Namespaces list what can be imported

A namespace has the keys that it was made with, and what a name stands for does not depend on how far
its module has come. So the keys of a namespace are the names that stand for something, not only when
it is made but ever after.

The module has to be loaded when its namespace is made. Of a module that is still being loaded a star
export may lead nowhere yet, and the names behind it are missing then.

Steps that load make no namespaces. All others leave alone what was loaded, so what matters for the
keys stays the same even within a step (`Store.Furnishes`), and several namespaces may be made in one.
-/

namespace EcmaModules

variable {s s' s'' : Store} {m x : ModuleId} {n : NamespaceId} {r : Namespace}

/-! ## What names stand for -/

namespace Store

/-- The exports of a synthetic module. -/
def exports? (s : Store) (m : ModuleId) : Option (List String) :=
  (s.synthetic? m).map (·.exportNames)

/-- Texts and exports are the same, and requests that stood for a module stand for it still. -/
structure Echoes (s s' : Store) : Prop where
  isSome : ∀ m, (s'.module? m).isSome = (s.module? m).isSome
  entries : ∀ m, s'.entries m = s.entries m
  exports : ∀ m, s'.exports? m = s.exports? m
  grows : Grows s s'

theorem exports?_eq_none_iff (hm : (s.module? m).isSome) :
    s.exports? m = none ↔ (s.source? m).isSome := by
  obtain ⟨⟨t | t, _, _, _, _, _⟩, ht⟩ := Option.isSome_iff_exists.1 hm <;>
    simp [exports?, synthetic?, source?, ht]

/-- A module with source text has the same text. -/
theorem source?_of_entries (hsome : ∀ m, (s'.module? m).isSome = (s.module? m).isSome)
    (hentries : ∀ m, s'.entries m = s.entries m) (hexports : ∀ m, s'.exports? m = s.exports? m)
    {t : SourceText} (ht : s.source? m = some t) :
    ∃ t', s'.source? m = some t' ∧ t'.entries = t.entries := by
  have hm : (s.module? m).isSome := by
    unfold source? at ht
    split at ht
    · next heq => rw [heq]; rfl
    · contradiction
  have hm' := (hsome m).trans hm
  have hsource : (s'.source? m).isSome := by
    rw [← exports?_eq_none_iff hm', hexports, exports?_eq_none_iff hm, ht]
    rfl
  obtain ⟨t', ht'⟩ := Option.isSome_iff_exists.1 hsource
  refine ⟨t', ht', ?_⟩
  simpa [entries, ht, ht'] using hentries m

/-- What a name denotes in one store it denotes in the other one as well, if from the module on requests
stand for the same. -/
theorem Denotes.transfer {K : ModuleId → Prop}
    (hsource : ∀ {m t}, s.source? m = some t →
      ∃ t', s'.source? m = some t' ∧ t'.entries = t.entries)
    (hexports : ∀ m, s'.exports? m = s.exports? m)
    (himported : ∀ m q d, K m → q ∈ (s.entries m).asked → s.imported? m q = some d →
      s'.imported? m q = some d ∧ K d)
    {p : ModuleId × String} {v : Denotation} (hp : K p.1) (hv : s.Denotes p v) : s'.Denotes p v := by
  have hentries : ∀ {m t}, s.source? m = some t → s.entries m = t.entries := fun hm ↦ by
    rw [Store.entries, hm, Option.map_some, Option.getD_some]
  have hindirect : ∀ {m t name e d}, K m → s.source? m = some t →
      t.entries.indirectExports.find? (·.exported == name) = some e →
        s.imported? m e.request = some d → s'.imported? m e.request = some d ∧ K d :=
    fun {m t name e d} hm ht he ↦ by
      have hmem := List.mem_of_find?_eq_some he
      refine himported m e.request d hm ?_
      simp only [Entries.asked, hentries ht, List.mem_append, List.mem_map]
      exact .inl (.inr ⟨e, hmem, rfl⟩)
  induction hv with
  | offer hv =>
    refine .offer ?_
    cases hv with
    | @synthetic m t name hm hname =>
      have heq := hexports m
      rw [exports?, exports?, hm, Option.map_some] at heq
      obtain ⟨t', hm', heq⟩ := Option.map_eq_some_iff.1 heq
      exact .synthetic hm' (heq ▸ hname)
    | own hm hown =>
      obtain ⟨t', hm', heq⟩ := hsource hm
      exact .own hm' (by rwa [heq])
    | namespaceOf hm hown he hall ht =>
      obtain ⟨t', hm', heq⟩ := hsource hm
      exact .namespaceOf hm' (by rwa [heq]) (by rwa [heq]) hall (hindirect hp hm he ht).1
  | follow hq _ ih =>
    cases hq with
    | renamed hm hown he hname ht =>
      obtain ⟨t', hm', heq⟩ := hsource hm
      obtain ⟨ht', hd⟩ := hindirect hp hm he ht
      exact .follow (.renamed hm' (by rwa [heq]) (by rwa [heq]) hname ht') (ih hd)
    | star hm hown he hdefault hq ht =>
      obtain ⟨t', hm', heq⟩ := hsource hm
      obtain ⟨ht', hd⟩ := himported _ _ _ hp (List.mem_append_right _ (hentries hm ▸ hq)) ht
      exact .follow (.star hm' (by rwa [heq]) (by rwa [heq]) hdefault (by rwa [heq]) ht') (ih hd)

theorem Echoes.denotes (h : s.Echoes s') {p : ModuleId × String} {v : Denotation}
    (hv : s.Denotes p v) : s'.Denotes p v :=
  hv.transfer (K := fun _ ↦ True) (source?_of_entries h.isSome h.entries h.exports) h.exports
    (fun m q d _ _ hd ↦ ⟨h.grows m q d hd, trivial⟩) trivial

/-- What a name of a loaded module denotes, it denoted before. -/
theorem Echoes.denotes_of_old (h : s.Echoes s') (hf : s.Filed) (hr : s.Rounded)
    {p : ModuleId × String} {v : Denotation} (hp : s.Old p.1) (hv : s'.Denotes p v) :
    s.Denotes p v := by
  refine hv.transfer (source?_of_entries (fun m ↦ (h.isSome m).symm) (fun m ↦ (h.entries m).symm)
    fun m ↦ (h.exports m).symm) (fun m ↦ (h.exports m).symm) (fun m q d hm hq hd ↦ ?_) hp
  rw [h.entries] at hq
  obtain ⟨d', hd', hold⟩ := hf.imported hr hm hq
  obtain rfl := Option.some.inj (hd.symm.trans (h.grows _ _ _ hd'))
  exact ⟨hd', hold⟩

theorem Echoes.symm (h : s.Echoes s') (hloaded : ∀ m, s'.loaded? m = s.loaded? m) :
    s'.Echoes s :=
  ⟨fun m ↦ (h.isSome m).symm, fun m ↦ (h.entries m).symm, fun m ↦ (h.exports m).symm,
    fun m q d hd ↦ by rwa [imported?_eq, ← hloaded, ← imported?_eq]⟩

theorem Echoes.refl (s : Store) : s.Echoes s :=
  ⟨fun _ ↦ rfl, fun _ ↦ rfl, fun _ ↦ rfl, fun _ _ _ ↦ id⟩

theorem Echoes.trans (h : s.Echoes s') (h' : s'.Echoes s'') : s.Echoes s'' :=
  ⟨fun m ↦ (h'.isSome m).trans (h.isSome m), fun m ↦ (h'.entries m).trans (h.entries m),
    fun m ↦ (h'.exports m).trans (h.exports m), h.grows.trans h'.grows⟩

/-- A name of a loaded module stands for the same as before. -/
theorem Echoes.resolveExport_of_old (h : s.Echoes s') (hf : s.Filed) (hr : s.Rounded)
    (hm : s.Old m) (name : String) : s'.resolveExport m name = s.resolveExport m name :=
  resolveExport_congr (Set.ext fun _ ↦ ⟨h.denotes_of_old hf hr hm, h.denotes⟩)

/-- While nothing is loaded, every name stands for the same as before. -/
theorem Echoes.resolveExport (h : s.Echoes s') (hloaded : ∀ m, s'.loaded? m = s.loaded? m)
    (m : ModuleId) (name : String) : s'.resolveExport m name = s.resolveExport m name :=
  resolveExport_congr (Set.ext fun _ ↦ ⟨(h.symm hloaded).denotes, h.denotes⟩)

end Store

/-! ## Namespaces are made once -/

/-- The phase of the requests that a namespace is for. -/
def Namespace.phase (r : Namespace) : Phase := if r.deferred then .defer else .evaluation

/-- The keys of the namespace are in order, and they are the names that stand for something. -/
structure Namespace.Lists (s : Store) (r : Namespace) : Prop where
  ordered : Store.Increasing r.keys
  mem : ∀ name, name ∈ r.keys ↔ (s.resolveExport r.module name).isBinding = true

theorem Namespace.Lists.congr (h : r.Lists s)
    (hs : ∀ name, s'.resolveExport r.module name = s.resolveExport r.module name) : r.Lists s' :=
  ⟨h.ordered, fun name ↦ by rw [h.mem, hs]⟩

namespace Store

theorem exports?_eq (s : Store) (m : ModuleId) :
    s.exports? m = ((s.module? m).map (·.shelf)).bind (·.2.2) := by
  unfold exports? synthetic?
  rcases s.module? m with _ | ⟨t | t, _, _, _, _, _⟩ <;> rfl

theorem madeNamespace?_eq (s : Store) (m : ModuleId) (phase : Phase) :
    s.madeNamespace? m phase = ((s.module? m).map (·.shelf)).bind fun t ↦
      match phase with
      | .defer => t.2.1
      | .evaluation => t.1 := by
  unfold madeNamespace?
  cases s.module? m <;> cases phase <;> rfl

/-- Namespaces stay as they are, and so do the exports of synthetic modules. -/
structure Preserves (s s' : Store) : Prop where
  isSome : ∀ m, (s'.module? m).isSome = (s.module? m).isSome
  exports : ∀ m, s'.exports? m = s.exports? m
  keeps : ∀ n r, s.namespace? n = some r → s'.namespace? n = some r
  made : ∀ m phase n, s.madeNamespace? m phase = some n → s'.madeNamespace? m phase = some n

theorem Preserves.trans (h : s.Preserves s') (h' : s'.Preserves s'') : s.Preserves s'' :=
  ⟨fun m ↦ (h'.isSome m).trans (h.isSome m), fun m ↦ (h'.exports m).trans (h.exports m),
    fun n r hr ↦ h'.keeps n r (h.keeps n r hr),
    fun m phase n hn ↦ h'.made m phase n (h.made m phase n hn)⟩

theorem Shelved.preserves (h : s.Shelved s') : s.Preserves s' := by
  refine ⟨fun m ↦ ?_, fun m ↦ ?_, fun n r hr ↦ ?_, fun m phase n hn ↦ ?_⟩
  · simpa using congrArg Option.isSome (h.shelf m)
  · rw [exports?_eq, h.shelf, ← exports?_eq]
  · rwa [namespace?, h.namespaces]
  · rwa [madeNamespace?_eq, h.shelf, ← madeNamespace?_eq]

theorem module?_makeNamespace (s : Store) (m : ModuleId) (phase : Phase) (x : ModuleId) :
    (s.makeNamespace m phase).2.module? x = if x = m then (s.module? x).map fun r ↦
      match phase with
      | .defer => { r with deferredId := some ⟨s.namespaces.size⟩ }
      | .evaluation => { r with namespaceId := some ⟨s.namespaces.size⟩ }
    else s.module? x :=
  module?_modifyModule _ m _ x

theorem namespace?_makeNamespace (s : Store) (m : ModuleId) (phase : Phase) (n : NamespaceId) :
    (s.makeNamespace m phase).2.namespace? n =
      if n.index = s.namespaces.size then some ⟨m, s.namespaceKeys m, phase = .defer⟩
      else s.namespace? n :=
  Array.getElem?_push

theorem madeNamespace?_makeNamespace (hm : (s.module? m).isSome) (phase : Phase) :
    (s.makeNamespace m phase).2.madeNamespace? m phase = some ⟨s.namespaces.size⟩ := by
  obtain ⟨t, ht⟩ := Option.isSome_iff_exists.1 hm
  rw [madeNamespace?, module?_makeNamespace, if_pos rfl, ht]
  cases phase <;> rfl

theorem makeNamespace_preserves {phase : Phase} (hnone : s.madeNamespace? m phase = none) :
    s.Preserves (s.makeNamespace m phase).2 := by
  refine ⟨fun x ↦ ?_, fun x ↦ ?_, fun n r hr ↦ ?_, fun x other n hn ↦ ?_⟩
  · rw [module?_makeNamespace]
    split
    · exact Option.isSome_map
    · rfl
  · rw [exports?_eq, module?_makeNamespace, exports?_eq]
    split
    · rw [Option.map_map]
      cases phase <;> cases s.module? x <;> rfl
    · rfl
  · rw [namespace?_makeNamespace, if_neg, hr]
    exact ((Array.getElem?_eq_some_iff.1 hr).1).ne
  · rw [madeNamespace?, module?_makeNamespace]
    split
    · next hx =>
      subst hx
      have hne : other ≠ phase := by
        rintro rfl
        exact nomatch hnone.symm.trans hn
      rw [← hn, madeNamespace?]
      rcases s.module? x with _ | t
      · rfl
      · cases phase <;> cases other <;> first | rfl | exact absurd rfl hne
    · exact hn

theorem Furnishes.preserves (h : s.Furnishes s') : s.Preserves s' := by
  induction h with
  | keep h => exact h.preserves
  | make s m phase hnone => exact makeNamespace_preserves hnone
  | trans _ _ ih ih' => exact ih.trans ih'

theorem source?_makeNamespace (s : Store) (m : ModuleId) (phase : Phase) (x : ModuleId) :
    (s.makeNamespace m phase).2.source? x = s.source? x :=
  source?_modifyModule_of_content (fun _ ↦ by cases phase <;> rfl) x

theorem Furnishes.loaded (h : s.Furnishes s') (m : ModuleId) : s'.loaded? m = s.loaded? m := by
  induction h with
  | keep _ hloaded => exact hloaded m
  | make s x phase => rw [loaded?, source?_makeNamespace, loaded?]
  | trans _ _ ih ih' => exact ih'.trans ih

theorem Furnishes.entries (h : s.Furnishes s') (m : ModuleId) : s'.entries m = s.entries m := by
  induction h with
  | keep _ _ hscript => rw [entries_eq, hscript, ← entries_eq]
  | make s x phase => rw [Store.entries, source?_makeNamespace, Store.entries]
  | trans _ _ ih ih' => exact ih'.trans ih

theorem Furnishes.resolveExport (h : s.Furnishes s') (m : ModuleId) (name : String) :
    s'.resolveExport m name = s.resolveExport m name :=
  Echoes.resolveExport ⟨h.preserves.isSome, h.entries, h.preserves.exports, fun m q d hd ↦ by
    rwa [imported?_eq, h.loaded, ← imported?_eq]⟩ h.loaded m name

theorem makeNamespace_lists (s : Store) (m : ModuleId) (phase : Phase) :
    Namespace.Lists s ⟨m, s.namespaceKeys m, phase = .defer⟩ :=
  ⟨increasing_sortKeys _, fun _ ↦ mem_namespaceKeys⟩

/-- A namespace that was not there before has the right keys. -/
theorem Furnishes.lists (h : s.Furnishes s') (hr : s'.namespace? n = some r) :
    s.namespace? n = some r ∨ r.Lists s' := by
  induction h with
  | keep h =>
    rw [namespace?, h.namespaces] at hr
    exact .inl hr
  | make s m phase hnone =>
    rw [namespace?_makeNamespace] at hr
    split at hr
    · obtain rfl := Option.some.inj hr
      exact .inr ((s.makeNamespace_lists m phase).congr ((Furnishes.make s m phase hnone).resolveExport m))
    · exact .inl hr
  | trans _ h' ih ih' =>
    rcases ih' hr with hr | hlists
    · exact (ih hr).imp_right fun h ↦ h.congr (h'.resolveExport r.module)
    · exact .inr hlists

/-- A module has each of its namespaces as the one that was made for the phase. -/
def Housed (s : Store) : Prop :=
  ∀ n r, s.namespace? n = some r → (s.module? r.module).isSome →
    s.madeNamespace? r.module r.phase = some n

theorem Housed.of_preserves (h : s.Housed) (hs : s.Preserves s')
    (hr : s.namespace? n = some r) (hm : (s'.module? r.module).isSome) :
    s'.madeNamespace? r.module r.phase = some n :=
  hs.made _ _ _ (h n r hr (by rwa [← hs.isSome]))

theorem Housed.shelved (h : s.Housed) (hs : s.Shelved s') : s'.Housed := fun n r hr hm ↦ by
  rw [namespace?, hs.namespaces] at hr
  exact h.of_preserves hs.preserves hr hm

theorem Housed.furnishes (h : s.Housed) (hs : s.Furnishes s') : s'.Housed := by
  induction hs with
  | keep hs => exact h.shelved hs
  | make s m phase hnone =>
    intro n r hr hm
    have hpreserves := makeNamespace_preserves hnone
    rw [namespace?_makeNamespace] at hr
    split at hr
    · next hn =>
      obtain rfl := Option.some.inj hr
      have hphase : Namespace.phase ⟨m, s.namespaceKeys m, decide (phase = .defer)⟩ = phase := by
        cases phase <;> rfl
      obtain rfl : n = ⟨s.namespaces.size⟩ := congrArg NamespaceId.mk hn
      rw [hphase]
      exact madeNamespace?_makeNamespace (by rwa [← hpreserves.isSome]) phase
    · exact h.of_preserves hpreserves hr hm
  | trans _ _ ih ih' => exact ih' (ih h)

/-- A module has at most one namespace for each phase. -/
theorem Housed.eq (h : s.Housed) {n' : NamespaceId} {r' : Namespace}
    (hr : s.namespace? n = some r) (hr' : s.namespace? n' = some r')
    (hm : (s.module? r.module).isSome) (hmodule : r'.module = r.module)
    (hdeferred : r'.deferred = r.deferred) : n' = n := by
  have hmade := h n' r' hr' (hmodule ▸ hm)
  rw [Namespace.phase, hmodule, hdeferred] at hmade
  exact Option.some.inj (hmade.symm.trans (h n r hr hm))

end Store

/-! ## Steps -/

/-! ### Loading -/

namespace Store.Shelved

theorem settle (s : Store) (p : PromiseId) (c : Completion) : s.Shelved (s.settle p c) :=
  .of_modules (s.modules_settle p c) (s.namespaces_settle p c)

theorem finishDescent (s : Store) (l : LoadingId) : s.Shelved (s.finishDescent l) := by
  have hmark : ∀ (ms : List ModuleId) (s : Store), s.Shelved (ms.foldl markLoaded s) := fun ms ↦ by
    induction ms with
    | nil => exact fun s ↦ .of_modules rfl rfl
    | cons m ms ih => exact fun s ↦ .trans (.modifySource s m _) (ih _)
  unfold Store.finishDescent
  split
  · exact .of_modules rfl rfl
  · dsimp only
    split
    · refine .trans (.of_modules ?_ ?_) (.trans (hmark _ _) (settle _ _ _)) <;> rfl
    · exact .of_modules rfl rfl

theorem failLoading (s : Store) (l : LoadingId) (e : ErrorId) : s.Shelved (s.failLoading l e) := by
  unfold Store.failLoading
  split
  · exact .of_modules rfl rfl
  · exact .of_modules (modules_settle _ _ _) (namespaces_settle _ _ _)

theorem checkAnswer (s : Store) (a : LoadAnswer) : s.Shelved (s.checkAnswer a).2 := by
  have hrecord : ∀ (s : Store) m, s.Shelved (s.recordLoaded a.call m).2 := fun s m ↦ by
    unfold recordLoaded
    split
    · split <;> exact .of_modules rfl rfl
    · exact .modifySource s _ _
  have htake : s.Shelved (s.takeOutstanding a.call) := .of_modules rfl rfl
  unfold Store.checkAnswer
  split
  · dsimp only
    split
    · exact htake.trans (hrecord _ _)
    · exact htake
  · exact .of_modules rfl rfl

end Store.Shelved

theorem LoadWalk.from_shelved (s : Store) (l : LoadingId) (m : ModuleId) :
    s.Shelved (LoadWalk.from s l m).1 := by
  unfold LoadWalk.from
  split
  · exact .of_modules rfl rfl
  · exact .finishDescent s l

theorem LoadWalk.advance_shelved (s : Store) (w : LoadWalk) : s.Shelved (w.advance s).1 := by
  unfold LoadWalk.advance
  split
  · exact .of_modules rfl rfl
  · split
    · exact .of_modules rfl rfl
    · exact .finishDescent s _
    · dsimp only
      split
      · split
        · exact .of_modules rfl rfl
        · exact .finishDescent s _
      · exact .of_modules rfl rfl

theorem Store.takeAnswer_shelved (s : Store) (a : LoadAnswer) : s.Shelved (s.takeAnswer a).1 := by
  have h := Shelved.checkAnswer s a
  unfold takeAnswer
  split
  next outcome s' heq =>
  rw [heq] at h
  split
  · exact h
  · split
    · exact h.trans (LoadWalk.from_shelved _ _ _)
    · exact h.trans (Shelved.failLoading _ _ _)

theorem Store.startSynthetic_shelved (s : Store) (m : ModuleId) :
    s.Shelved (s.startSynthetic m).2 := by
  unfold startSynthetic
  split
  · exact .of_modules rfl rfl
  · split
    · exact .of_modules rfl rfl
    · exact .of_modules rfl rfl
    · exact .modifySynthetic s m fun _ ↦ rfl

/-- Neither loading nor starting the steps of a synthetic module makes a namespace. -/
theorem Task.advance_shelved (s : Store) {t : Task} (ht : t.isRemote = true) :
    s.Shelved (t.advance s).1 := by
  cases t with
  | synthetic m =>
    have h := s.startSynthetic_shelved m
    simp only [advance]
    split <;> next heq => rw [heq] at h; exact h
  | load m hostDefined =>
    simp only [advance]
    split
    · exact .of_modules rfl rfl
    · simp only [Store.startLoading]
      refine .trans (.of_modules ?_ ?_) (LoadWalk.from_shelved _ _ _) <;> rfl
  | loading w =>
    simp only [advance, (LoadStep.next_quiet _ _).1]
    exact w.advance_shelved s
  | ask q => exact .of_modules rfl rfl
  | answers as =>
    rcases as with _ | ⟨a, rest⟩
    · exact .of_modules rfl rfl
    · have h := s.takeAnswer_shelved a
      simp only [advance]
      split <;> next heq => rw [heq] at h; exact h
  | _ => contradiction

/-! ### The machine -/

namespace Machine

variable {M M' : Machine}

/-- A step makes namespaces or loads, but not both. -/
theorem Charted.furnishes (h : M.Charted) (hP : M.Fair M') :
    M.store.Furnishes M.step.store ∨ M.store.Shelved M.step.store := by
  by_cases hin : M.Inner
  · exact .inl (h.among.store h.charts.rounded.knows hP.evaluate hin).same.furnishes
  refine .inr ?_
  rcases hnext : M.next? with _ | x
  · rw [step_of_next?_eq_none hnext]
    exact .of_modules rfl rfl
  rw [step_of_next? hnext, store_apply]
  obtain ⟨s, control, fs⟩ := M
  rcases control with t | r
  · obtain rfl : x = t.advance s := advance_of_next? hnext
    refine Task.advance_shelved s (Bool.not_eq_false _ ▸ fun hlocal ↦ hin ⟨?_, nofun⟩)
    rintro _ ⟨⟩
    exact hlocal
  · rcases fs with _ | ⟨f, fs⟩
    · exact nomatch hnext
    obtain rfl : x = f.resume s r := (Option.some.inj hnext).symm
    by_cases hsteps : ∃ m, f = .syntheticSteps m
    · obtain ⟨m, rfl⟩ := hsteps
      exact .modifySynthetic s m fun _ ↦ rfl
    · refine absurd ⟨nofun, fun _ m _ _ heq ↦ hsteps ⟨m, ?_⟩⟩ hin
      exact (List.cons.inj heq).1

end Machine

/-! ## Runs -/

/-- A call from outside makes namespaces, or does nothing to them. -/
theorem Act.begin_furnishes {a : Act} {st : State} (ha : a.begin s = some st) :
    s.Builds st.store ∧ (s.Furnishes st.store ∨ s.Shelved st.store) := by
  have hsame : ∀ {s'}, s'.modules = s.modules → s'.namespaces = s.namespaces →
      s.Builds s' ∧ (s.Furnishes s' ∨ s.Shelved s') := fun hm hn ↦
    ⟨.of_modules hm, .inr (.of_modules hm hn)⟩
  cases a with
  | namespaceOf m phase =>
    obtain rfl := Option.some.inj ha
    have hapart := s.namespaceOf_apart m phase
    exact ⟨.of_apart hapart, .inl hapart.steady.furnishes⟩
  | job =>
    simp only [begin] at ha
    split at ha
    · contradiction
    · obtain rfl := Option.some.inj ha
      exact hsame rfl rfl
  | settle label c =>
    obtain ⟨p, -, rfl⟩ := Option.map_eq_some_iff.1 ha
    exact hsame (s.modules_settle p c) (s.namespaces_settle p c)
  | _ =>
    obtain rfl := Option.some.inj ha
    exact hsame rfl rfl

namespace State

variable {st st' : State}

theorem Charted.turn_furnishes (h : st.Charted) (ht : Turn Machine.Fair st st') :
    st.store.Builds st'.store ∧ (st.store.Furnishes st'.store ∨ st.store.Shelved st'.store) := by
  cases ht with
  | call a ha => exact Act.begin_furnishes ha
  | step hP => exact ⟨(Machine.Charted.builds h hP).1, Machine.Charted.furnishes h hP⟩
  | consult _ hs => exact ⟨.of_apart hs.aside, .inl hs.aside.steady.furnishes⟩
  | @answer a M q as hq =>
    obtain ⟨s, control, fs⟩ := M
    obtain rfl : control = _ := Machine.control_of_question? hq
    exact ⟨.of_modules rfl, .inr (.of_modules rfl rfl)⟩
  | finish => exact ⟨.of_modules rfl, .inr (.of_modules rfl rfl)⟩

/-- No module has two namespaces for a phase. -/
theorem housed_turns {s₀ : Store} (hs : s₀.Unread) (hnone : s₀.namespaces = #[])
    (h : Turns Machine.Fair (.idle s₀) st) : st.Charted ∧ st.store.Housed := by
  induction h with
  | refl => exact ⟨⟨hs.charts, hs.refers _⟩, fun n r hr ↦ by simp [State.store, Store.namespace?, hnone] at hr⟩
  | tail _ ht ih =>
    refine ⟨ih.1.turn ht, ?_⟩
    exact (ih.1.turn_furnishes ht).2.elim ih.2.furnishes ih.2.shelved

theorem Charted.turn_preserves (h : st.Charted) (ht : Turn Machine.Fair st st') :
    st.store.Preserves st'.store :=
  (h.turn_furnishes ht).2.elim (fun hf ↦ hf.preserves) fun hs ↦ hs.preserves

theorem Charted.turns_preserves (h : st.Charted) (ht : Turns Machine.Fair st st') :
    st.store.Preserves st'.store := by
  induction ht with
  | refl => exact ⟨fun _ ↦ rfl, fun _ ↦ rfl, fun _ _ ↦ id, fun _ _ _ ↦ id⟩
  | tail hst ht ih => exact ih.trans ((h.turns hst).turn_preserves ht)

theorem Charted.turn_echoes (h : st.Charted) (ht : Turn Machine.Fair st st') :
    st.store.Echoes st'.store := by
  have hbuilds := (h.turn_furnishes ht).1
  have hpreserves := h.turn_preserves ht
  exact ⟨hpreserves.isSome, hbuilds.entries, hpreserves.exports, hbuilds.grows⟩

theorem Charted.turns_echoes (h : st.Charted) (ht : Turns Machine.Fair st st') :
    st.store.Echoes st'.store := by
  induction ht with
  | refl => exact .refl _
  | tail hst ht ih => exact ih.trans ((h.turns hst).turn_echoes ht)

/-- In the course of a run, the names of a loaded module stand for the same. -/
theorem Charted.resolveExport_turns (h : st.Charted) (hold : st.store.Old m)
    (ht : Turns Machine.Fair st st') :
    st'.store.Old m ∧ ∀ name, st'.store.resolveExport m name = st.store.resolveExport m name := by
  induction ht with
  | refl => exact ⟨hold, fun _ ↦ rfl⟩
  | @tail st₁ st₂ hst ht ih =>
    have hcharted := h.turns hst
    obtain ⟨hfiled, hrounded⟩ := hcharted.closed
    exact ⟨(hcharted.turn_furnishes ht).1.old m ih.1, fun name ↦
      ((hcharted.turn_echoes ht).resolveExport_of_old hfiled hrounded ih.1 name).trans (ih.2 name)⟩

end State

/-- A namespace lists exactly the names that can be imported. When a namespace of a loaded module is made,
and ever after, its keys are in the order of their code units, each once; they are the names that the
namespace is found to have, and the names that stand for a single thing in the module. The module has no
other namespace for the same phase. -/
theorem namespaces_list_what_resolves {s₀ : Store} {st st₁ st₂ : State} {n : NamespaceId}
    {r : Namespace} (hs : s₀.Unread) (hnone : s₀.namespaces = #[])
    (hbefore : Turns Machine.Fair (.idle s₀) st) (hturn : Turn Machine.Fair st st₁)
    (hnew : st.store.namespace? n = none) (hr : st₁.store.namespace? n = some r)
    (hm : (st₁.store.module? r.module).isSome) (hold : st₁.store.Old r.module)
    (hafter : Turns Machine.Fair st₁ st₂) :
    st₂.store.namespace? n = some r ∧
      r.keys.Pairwise (Text.compare · · = .lt) ∧
      (∀ name, st₂.store.hasExport n name = true ↔ name ∈ r.keys) ∧
      (∀ name, name ∈ r.keys ↔
        ∃ d b, st₂.store.resolveExport r.module name = .binding d b) ∧
      ∀ n' r', st₂.store.namespace? n' = some r' → r'.module = r.module →
        r'.deferred = r.deferred → n' = n := by
  obtain ⟨hcharted, -⟩ := State.housed_turns hs hnone hbefore
  obtain ⟨hcharted₁, -⟩ := State.housed_turns hs hnone (hbefore.tail hturn)
  obtain ⟨hcharted₂, hhoused⟩ := State.housed_turns hs hnone ((hbefore.tail hturn).trans hafter)
  have hlists : r.Lists st₁.store := by
    rcases (hcharted.turn_furnishes hturn).2 with hmade | hshelved
    · exact (hmade.lists hr).resolve_left fun h ↦ nomatch hnew.symm.trans h
    · rw [Store.namespace?, hshelved.namespaces] at hr
      exact nomatch hnew.symm.trans hr
  have hpreserves := hcharted₁.turns_preserves hafter
  have hlists₂ := hlists.congr (hcharted₁.resolveExport_turns hold hafter).2
  have hr₂ := hpreserves.keeps n r hr
  refine ⟨hr₂, hlists.ordered, fun name ↦ Store.hasExport_iff hr₂ hlists.ordered, fun name ↦ ?_,
    fun n' r' hr' ↦ hhoused.eq hr₂ hr' (by rwa [hpreserves.isSome])⟩
  rw [hlists₂.mem]
  cases st₂.store.resolveExport r.module name <;> simp [Resolution.isBinding]

/-- A module of declarations only that has not been loaded. -/
def Module.declaring (ds : List Syntax.Declaration) : Module where
  content := .sourceText { entries := Entries.ofBody true (ds.map .declaration) }

/-- The first module exports everything that the other two do, which have one name in common. -/
def emojiGraph : Store where
  modules := #[
    .declaring [.exportAll none { specifier := "left" }, .exportAll none { specifier := "right" }],
    .declaring [.exportNames [⟨"a", "\uff61"⟩, ⟨"b", "😀"⟩, ⟨"c", "x"⟩]],
    .declaring [.exportNames [⟨"a", "x"⟩]]]

theorem emojiGraph.unread : emojiGraph.Unread := by
  have hsource : ∀ {m r}, emojiGraph.source? m = some r → ∃ ds : List Syntax.Declaration,
      r = { entries := Entries.ofBody true (ds.map .declaration) } ∧
        ∀ d ∈ ds, ∀ q, Entries.requestOf? d = some q → q.attributes = [] := by
    rintro ⟨_ | _ | _ | n⟩ r hr
    · exact ⟨_, (Option.some.inj hr).symm, by simp [Entries.requestOf?]⟩
    · exact ⟨_, (Option.some.inj hr).symm, by simp [Entries.requestOf?]⟩
    · exact ⟨_, (Option.some.inj hr).symm, by simp [Entries.requestOf?]⟩
    · contradiction
  refine ⟨fun m r hr ↦ ?_, fun m r hr ↦ ?_, rfl, rfl, rfl⟩
  · obtain ⟨ds, rfl, -⟩ := hsource hr
    exact ⟨rfl, rfl, rfl, rfl⟩
  · obtain ⟨ds, rfl, hplain⟩ := hsource hr
    refine ⟨_, _, rfl, fun d hd q hq ↦ ?_⟩
    obtain ⟨d', hd', heq⟩ := List.mem_filterMap.1 hd
    obtain ⟨d'', hd'', rfl⟩ := List.mem_map.1 hd'
    obtain rfl := Option.some.inj heq
    simp [Request.Distinct, hplain _ hd'' q hq]

/-- The first module is being loaded, and the host is asked for the second one. -/
def emojiGraph.asked : Machine := Machine.step^[2] (.start emojiGraph (.load ⟨0⟩ none))

/-- The host is asked for the third one. -/
def emojiGraph.askedAgain : Machine :=
  Machine.step^[7] (asked.answer [⟨⟨⟨0⟩, ⟨0⟩, { specifier := "left" }⟩, .ok ⟨1⟩⟩])

/-- The end of loading. -/
def emojiGraph.loaded : Machine :=
  Machine.step^[9] (askedAgain.answer [⟨⟨⟨0⟩, ⟨0⟩, { specifier := "right" }⟩, .ok ⟨2⟩⟩])

theorem namespaces_list_what_resolves_emojiGraph :
    ∃ s : Store, emojiGraph.Unread ∧
      Turns Machine.Fair (.idle emojiGraph) (.idle s) ∧
      s.namespace? ⟨0⟩ = some ⟨⟨0⟩, ["😀", "\uff61"], false⟩ ∧
      s.hasExport ⟨0⟩ "x" = false ∧ ∀ name, s.hasExport ⟨0⟩ name = true ↔
        ∃ d b, s.resolveExport ⟨0⟩ name = .binding d b := by
  obtain ⟨_, hasked⟩ := Option.isSome_iff_exists.1
    (show emojiGraph.asked.question?.isSome by decide +kernel)
  obtain ⟨_, hagain⟩ := Option.isSome_iff_exists.1
    (show emojiGraph.askedAgain.question?.isSome by decide +kernel)
  obtain ⟨_, hresult⟩ := Option.isSome_iff_exists.1
    (show emojiGraph.loaded.result?.isSome by decide +kernel)
  have hfair := Machine.fair_of_fairNow
  have hloaded : Turns Machine.Fair (.idle emojiGraph) (.idle emojiGraph.loaded.store) :=
    .trans (.head (.call (.load ⟨0⟩ none) rfl) (Turns.steps hfair (by decide +kernel))) <|
    .trans (.head (.answer _ hasked) (Turns.steps hfair (by decide +kernel))) <|
    .trans (.head (.answer _ hagain) (Turns.steps hfair (by decide +kernel))) <|
    .single (.finish hresult)
  have hturn : Turn Machine.Fair (.idle emojiGraph.loaded.store)
      (.idle (emojiGraph.loaded.store.namespaceOf ⟨0⟩ .evaluation).2) :=
    .call (.namespaceOf ⟨0⟩ .evaluation) rfl
  have hr : (emojiGraph.loaded.store.namespaceOf ⟨0⟩ .evaluation).2.namespace? ⟨0⟩ =
      some ⟨⟨0⟩, ["😀", "\uff61"], false⟩ := by decide +kernel
  have hold : (emojiGraph.loaded.store.namespaceOf ⟨0⟩ .evaluation).2.Old ⟨0⟩ := by
    unfold Store.Old
    decide +kernel
  obtain ⟨-, -, hhas, hkeys, -⟩ := namespaces_list_what_resolves emojiGraph.unread rfl hloaded hturn
    (by decide +kernel) hr (by decide +kernel) hold .refl
  exact ⟨_, emojiGraph.unread, hloaded.tail hturn, hr, by decide +kernel,
    fun name ↦ (hhas name).trans (hkeys name)⟩

end EcmaModules
