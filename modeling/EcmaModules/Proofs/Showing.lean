import EcmaModules.Proofs.Linked
import EcmaModules.Proofs.Reading

/-!
# What namespaces show

A namespace may show the namespace of a further module, by a star export that has a name. That one is asked
for when it is read, and may only be asked for once its module is linked or being linked. Nobody looks at
that then; it has to be so.

It is, for whatever the body of a linked module can get at. The namespaces that it imports, those that are
shown by them and those that are imported where a name leads to are of modules that requests lead to from
the linked one, so they are linked too; and what is linked stays so, whatever links fail later.

What a body gets at before, when its environment is set up, is another matter. By then the modules of its
component are only being linked, and if this fails they are taken back. The namespace is still there.
-/

namespace EcmaModules

variable {s s' : Store} {m d target : ModuleId} {n : NamespaceId} {r : Namespace} {name : String}

namespace Store

/-! ## Asking for a namespace by reading one -/

/-- The module whose namespace is asked for when the export is read. -/
def asked? (s : Store) (n : NamespaceId) (name : String) : Option ModuleId :=
  (s.namespace? n).bind fun r ↦
    if (r.deferred && name = "then") || !s.hasExport n name then none
    else
      match s.resolveExport r.module name with
      | .binding d none => some d
      | _ => none

theorem readExport_of_asked (h : s.asked? n name = some d) : s.readExport n name =
    (.ok (.namespaceObject (s.namespaceOf d .evaluation).1), (s.namespaceOf d .evaluation).2) := by
  obtain ⟨r, hr, h⟩ := Option.bind_eq_some_iff.1 h
  rw [readExport, hr]
  dsimp only
  split at h
  · contradiction
  · next hshown =>
    rw [if_neg hshown]
    split at h
    · next hfound =>
      obtain rfl := Option.some.inj h
      rw [hfound]
    · contradiction

theorem asked?_eq_some (h : s.asked? n name = some d) :
    ∃ r, s.namespace? n = some r ∧ s.resolveExport r.module name = .binding d none := by
  obtain ⟨r, hr, h⟩ := Option.bind_eq_some_iff.1 h
  refine ⟨r, hr, ?_⟩
  split at h
  · contradiction
  · split at h
    · next hfound => exact Option.some.inj h ▸ hfound
    · contradiction

/-! ## Where names lead -/

theorem Offers.gives {p : ModuleId × String} {v : Denotation} (h : s.Offers p v) :
    Relation.ReflTransGen s.Gives p.1 v.1 := by
  cases h with
  | synthetic => exact .refl
  | own => exact .refl
  | @namespaceOf m target r name e hm hown hindirect hall ht =>
    refine .single ⟨e.request, ?_, ht⟩
    have hmem := List.mem_of_find?_eq_some hindirect
    simp only [Entries.asked, entries_of_source? hm, List.mem_append, List.mem_map]
    exact .inl (.inr ⟨e, hmem, rfl⟩)

theorem Follows.gives {p q : ModuleId × String} (h : s.Follows p q) : s.Gives p.1 q.1 := by
  cases h with
  | @renamed m target r name imported e hm hown hindirect hname ht =>
    refine ⟨e.request, ?_, ht⟩
    have hmem := List.mem_of_find?_eq_some hindirect
    simp only [Entries.asked, entries_of_source? hm, List.mem_append, List.mem_map]
    exact .inl (.inr ⟨e, hmem, rfl⟩)
  | @star m target r name request hm hown hindirect hdefault hr ht =>
    exact ⟨request, List.mem_append_right _ (entries_of_source? hm ▸ hr), ht⟩

theorem Denotes.gives {p : ModuleId × String} {v : Denotation} (h : s.Denotes p v) :
    Relation.ReflTransGen s.Gives p.1 v.1 := by
  induction h with
  | offer h => exact h.gives
  | follow h _ ih => exact .head h.gives ih

theorem gives_of_resolveExport {owned : Option String} (h : s.resolveExport m name = .binding d owned) :
    Relation.ReflTransGen s.Gives m d := by
  have hmem : (d, owned) ∈ s.denoted m name := resolveExport_binding.1 h ▸ Set.mem_singleton _
  exact Denotes.gives hmem

/-- What a text asks for is what it lists. -/
theorem Filed.requires (hs : s.Filed) (h : s.Gives m d) : s.Requires m d := by
  obtain ⟨q, hq, hd⟩ := h
  have hproper := hs.entries m
  obtain ⟨q', hlisted, hsame⟩ := hproper.listed q hq
  have hdistinct := hproper.distinct q' (Entries.requests_subset_asked _ hlisted)
  exact ⟨q', hlisted, (hs.imported_eq hdistinct hsame m).trans hd⟩

theorem LinkClosed.of_gives (h : s.LinkClosed) (hs : s.Filed) (hm : s.Linked m)
    (hd : Relation.ReflTransGen s.Gives m d) : s.Linked d := by
  induction hd with
  | refl => exact hm
  | tail _ hgives ih => exact h _ _ ih (hs.requires hgives)

/-! ## Namespaces are those of their modules -/

/-- The namespaces that were made for a module are namespaces of this module. -/
def Labelled (s : Store) : Prop :=
  ∀ m phase n, s.madeNamespace? m phase = some n → ∃ r, s.namespace? n = some r ∧ r.module = m

theorem Labelled.shelved (h : s.Labelled) (hs : s.Shelved s') : s'.Labelled := fun m phase n hn ↦ by
  rw [madeNamespace?_eq, hs.shelf, ← madeNamespace?_eq] at hn
  obtain ⟨r, hr, hm⟩ := h m phase n hn
  exact ⟨r, hs.preserves.keeps n r hr, hm⟩

theorem Labelled.furnishes (h : s.Labelled) (hs : s.Furnishes s') : s'.Labelled := by
  induction hs with
  | keep hs => exact h.shelved hs
  | @make s m phase hnone =>
    intro x other n hn
    have hold : s.madeNamespace? x other = some n → ∃ r, (s.makeNamespace m phase).2.namespace? n = some r ∧
        r.module = x := fun hn ↦ by
      obtain ⟨r, hr, hm⟩ := h x other n hn
      exact ⟨r, (makeNamespace_preserves hnone).keeps n r hr, hm⟩
    rw [madeNamespace?, module?_makeNamespace] at hn
    split at hn
    · next hx =>
      subst hx
      obtain ⟨t, ht, hn⟩ := Option.bind_eq_some_iff.1 hn
      obtain ⟨t₀, ht₀, rfl⟩ := Option.map_eq_some_iff.1 ht
      by_cases hphase : other = phase
      · have hn : n = ⟨s.namespaces.size⟩ := by
          subst hphase
          cases other <;> exact (Option.some.inj hn).symm
        refine ⟨⟨x, s.namespaceKeys x, phase = .defer⟩, ?_, rfl⟩
        rw [namespace?_makeNamespace, hn, if_pos rfl]
      · refine hold ?_
        rw [madeNamespace?, ht₀]
        cases phase <;> cases other <;> first | exact hn | exact absurd rfl hphase
    · exact hold hn
  | trans _ _ ih ih' => exact ih' (ih h)

/-! ## What imports are bound to -/

/-- Requests lead from the module to the one that the binding is about. -/
def LeadsOn (s : Store) (m : ModuleId) : ImportBinding → Prop
  | .namespaceObject n => ∃ r, s.namespace? n = some r ∧ Relation.ReflTransGen s.Gives m r.module
  | .indirect d _ => Relation.ReflTransGen s.Gives m d

/-- They do so for all that is bound. -/
def Placed (s : Store) : Prop := ∀ m env, s.environment? m = some env →
  ∀ name b, env.lookup name = some b → s.LeadsOn m b

theorem LeadsOn.keep {b : ImportBinding} (h : s.LeadsOn m b) (hs : s.Echoes s') (hp : s.Preserves s') :
    s'.LeadsOn m b := by
  have hgives : ∀ {x}, Relation.ReflTransGen s.Gives m x → Relation.ReflTransGen s'.Gives m x :=
    fun hx ↦ Relation.ReflTransGen.mono (fun y z ⟨q, hq, hd⟩ ↦
      ⟨q, (hs.entries y).symm ▸ hq, hs.grows y q z hd⟩) _ _ hx
  cases b with
  | namespaceObject n =>
    obtain ⟨r, hr, hm⟩ := h
    exact ⟨r, hp.keeps n r hr, hgives hm⟩
  | indirect d name => exact hgives h

/-- What is bound for an import is about a module that requests lead to. -/
theorem Grants.leads {i : ImportEntry} {b : ImportBinding} (h : s.Grants target i b)
    (hf : s.Filed) (hlabelled : s.Labelled) (hi : i ∈ (s.entries m).imports)
    (ht : s.imported? m i.request = some target) : s.LeadsOn m b := by
  have htarget : s.Gives m target := ⟨i.request, Entries.request_mem_asked hi, ht⟩
  have hmeans := h.means hf ht
  obtain ⟨s₁, s₂, hbind, h₁, h₂⟩ := h
  cases hmeans with
  | @namespaceObject n hall =>
    rw [bindImport, hall] at hbind
    obtain rfl : _ = s₂ := congrArg Prod.snd hbind
    have hn : (s₁.namespaceOf target i.request.phase).1 = n :=
      ImportBinding.namespaceObject.inj (Except.ok.inj (congrArg Prod.fst hbind))
    have hsome : (s₁.module? target).isSome :=
      h₁.preserves.isSome target ▸ isSome_of_imported? hf ht
    have hmade := h₂.preserves.made _ _ _ (madeNamespace?_namespaceOf hsome i.request.phase)
    obtain ⟨r, hr, hmodule⟩ := hlabelled _ _ _ hmade
    exact ⟨r, hn ▸ hr, hmodule ▸ .single htarget⟩
  | reexported ht' hname hfound hn =>
    obtain rfl := Option.some.inj (ht.symm.trans ht')
    obtain ⟨r, hr, hmodule⟩ := hlabelled _ _ _ hn
    exact ⟨r, hr, hmodule ▸ .head htarget (gives_of_resolveExport hfound)⟩
  | binding ht' hname hfound =>
    obtain rfl := Option.some.inj (ht.symm.trans ht')
    exact .head htarget (gives_of_resolveExport hfound)

end Store

namespace State

variable {st st' : State}

theorem Charted.turn_placed (h : st.Charted) (hp : st.store.Labelled ∧ st.store.Placed)
    (ht : Turn Machine.Fair st st') : st'.store.Labelled ∧ st'.store.Placed := by
  have hlabelled : st'.store.Labelled :=
    (h.turn_furnishes ht).2.elim hp.1.furnishes hp.1.shelved
  refine ⟨hlabelled, fun m env henv name b hb ↦ ?_⟩
  rcases h.turn_equips ht m with heq | ⟨⟨env', henv', hsuits⟩, -⟩
  · exact (hp.2 m env (heq ▸ henv) name b hb).keep (h.turn_echoes ht) (h.turn_preserves ht)
  · obtain rfl := Option.some.inj (henv.symm.trans henv')
    obtain ⟨i, target, hi, htarget, hgrants⟩ := hsuits.binds name b hb
    exact hgrants.leads (h.turn ht).closed.1 hlabelled (List.mem_reverse.1 (List.mem_of_find?_eq_some hi))
      htarget

theorem Charted.turns_placed (h : st.Charted) (hp : st.store.Labelled ∧ st.store.Placed)
    (ht : Turns Machine.Fair st st') : st'.store.Labelled ∧ st'.store.Placed := by
  induction ht with
  | refl => exact hp
  | tail hst ht ih => exact (h.turns hst).turn_placed ih ht

end State

/-! ## What a body gets at -/

namespace Store

/-- The variable is an import that stands for the namespace, in the end. -/
def Names (s : Store) (p : ModuleId × String) (n : NamespaceId) : Prop :=
  ∃ q, Relation.ReflTransGen s.Borrows p q ∧ s.importBinding? q.1 q.2 = some (.namespaceObject n)

/-- The body of a module gets at the namespace: it imports it, or reads it from one that it gets at,
where it is either what is shown of a further module or imported where the name leads to. -/
inductive Obtains (s : Store) (m : ModuleId) : NamespaceId → Prop
  | imported {name : String} {n : NamespaceId} : s.Names (m, name) n → Obtains s m n
  | shown {n n' : NamespaceId} {name : String} {d : ModuleId} : Obtains s m n →
      s.asked? n name = some d → s.madeNamespace? d .evaluation = some n' → Obtains s m n'
  | read {n n' : NamespaceId} {r : Namespace} {name owned : String} {d : ModuleId} : Obtains s m n →
      s.namespace? n = some r → s.resolveExport r.module name = .binding d (some owned) →
      s.Names (d, owned) n' → Obtains s m n'

theorem Placed.leads (h : s.Placed) {b : ImportBinding} (hb : s.importBinding? m name = some b) :
    s.LeadsOn m b := by
  obtain ⟨env, henv, hb⟩ := Option.bind_eq_some_iff.1 hb
  exact h m env henv name b hb

theorem Placed.names (h : s.Placed) {p : ModuleId × String} (hn : s.Names p n) :
    ∃ r, s.namespace? n = some r ∧ Relation.ReflTransGen s.Gives p.1 r.module := by
  obtain ⟨q, hpq, hq⟩ := hn
  have hway : Relation.ReflTransGen s.Gives p.1 q.1 := by
    clear hq
    induction hpq with
    | refl => exact .refl
    | tail _ hborrows ih => exact ih.trans (h.leads hborrows)
  obtain ⟨r, hr, hm⟩ := h.leads hq
  exact ⟨r, hr, hway.trans hm⟩

/-- Requests lead to the modules of all namespaces that a body gets at. -/
theorem Obtains.leads (hn : s.Obtains m n) (h : s.Placed) (hlabelled : s.Labelled) :
    ∃ r, s.namespace? n = some r ∧ Relation.ReflTransGen s.Gives m r.module := by
  induction hn with
  | imported hnames => exact h.names hnames
  | shown _ hasked hmade ih =>
    obtain ⟨r, hr, hm⟩ := ih
    obtain ⟨r₁, hr₁, hfound⟩ := asked?_eq_some hasked
    obtain rfl := Option.some.inj (hr.symm.trans hr₁)
    obtain ⟨r', hr', hmodule⟩ := hlabelled _ _ _ hmade
    exact ⟨r', hr', hmodule ▸ hm.trans (gives_of_resolveExport hfound)⟩
  | read _ hr₁ hfound hnames ih =>
    obtain ⟨r, hr, hm⟩ := ih
    obtain rfl := Option.some.inj (hr.symm.trans hr₁)
    obtain ⟨r', hr', hway⟩ := h.names hnames
    exact ⟨r', hr', (hm.trans (gives_of_resolveExport hfound)).trans hway⟩

end Store

/-! ## Whatever is linked stays so -/

namespace State

variable {st st' : State} {x : ModuleId}

theorem Interlinked.asserts (h : st.Interlinked) (ht : Turn Machine.LinksApart st st') :
    Turn Machine.Asserts st st' := by
  cases ht with
  | call a ha => exact .call a ha
  | step hP => exact .step (Machine.Interlinked.asserts h hP)
  | consult hq hs => exact .consult hq hs
  | answer as hq => exact .answer as hq
  | finish hr => exact .finish hr

theorem Interlinked.upward (h : st.Interlinked) : st.Upward := by
  cases st with
  | idle s => exact h.2.1
  | busy a M => exact Machine.Interlinked.upward h

theorem Interlinked.turns_linked (h : st.Interlinked) (ht : Turns Machine.LinksApart st st')
    (hx : st.store.Linked x) : st'.store.Linked x := by
  induction ht with
  | refl => exact hx
  | tail hst ht ih =>
    have hinter := h.turns hst
    exact (hinter.upward.turn (hinter.asserts ht)).2.elim ih.ascend fun hfails ↦ ih.relapse hfails.2

theorem Interlinked.charted (h : st.Interlinked) : st.Charted := by
  cases st with
  | idle s => exact h.1
  | busy a M => exact Machine.Interlinked.charted h

end State

/-- In runs in which linking comes to no module that is being linked further up: whatever namespace the
body of a linked module gets at, whether its module is found in an import, behind a name, or in a namespace
that was got at in the same way, reading an export of it asks for no namespace but that of a linked module,
then and later, and whatever is linked in between and fails. -/
theorem obtained_namespaces_ask_for_linked_modules {s₀ : Store} {st st' : State} (hs : s₀.Unread)
    (hfresh : s₀.Fresh) (hbare : ∀ m, s₀.environment? m = none)
    (hunmade : ∀ m phase, s₀.madeNamespace? m phase = none)
    (hturns : Turns Machine.LinksApart (.idle s₀) st) (hm : st.store.Linked m)
    (hn : st.store.Obtains m n) (hafter : Turns Machine.LinksApart st st') :
    (∃ r, st'.store.namespace? n = some r ∧ st'.store.Linked r.module) ∧
      ∀ name d, st'.store.asked? n name = some d →
        st'.store.Linked d ∧ (st'.store.readExport n name).1 =
          .ok (.namespaceObject (st'.store.namespaceOf d .evaluation).1) := by
  have hinter := (hs.interlinked hfresh.upright).turns hturns
  have hinter' := hinter.turns hafter
  have hcharted : (State.idle s₀).Charted := ⟨hs.charts, hs.refers _⟩
  obtain ⟨hlabelled, hplaced⟩ := hcharted.turns_placed
    ⟨fun m phase n hn ↦ absurd ((hunmade m phase).symm.trans hn) (by simp),
      fun m env henv ↦ absurd ((hbare m).symm.trans henv) (by simp)⟩ (hturns.mono fun _ _ ↦ Machine.LinksApart.fair)
  obtain ⟨r, hr, hway⟩ := hn.leads hplaced hlabelled
  have hlinked : st.store.Linked r.module :=
    hinter.linking.1.closed.of_gives hinter.charted.closed.1 hm hway
  have hr' := (hinter.charted.turns_preserves (hafter.mono fun _ _ ↦ Machine.LinksApart.fair)).keeps n r hr
  have hlinked' := hinter.turns_linked hafter hlinked
  refine ⟨⟨r, hr', hlinked'⟩, fun name d hasked ↦ ⟨?_, by rw [Store.readExport_of_asked hasked]⟩⟩
  obtain ⟨r₁, hr₁, hfound⟩ := Store.asked?_eq_some hasked
  obtain rfl := Option.some.inj (hr'.symm.trans hr₁)
  exact hinter'.linking.1.closed.of_gives hinter'.charted.closed.1 hlinked' (Store.gives_of_resolveExport hfound)

/-! ### Graphs for which linking fails -/

/-- The second module imports the namespace of the third one, which shows that of the fourth one. These lead
back to the first one. The fifth module imports a name that is not there. -/
def shownTexts : List (List Syntax.Declaration × List Step) :=
  [([.imports [] { specifier := "reader" }], []),
    ([.imports [⟨none, "ns"⟩] { specifier := "shelf" }], []),
    ([.exportAll (some "c") { specifier := "far" }], []),
    ([.imports [] { specifier := "root" }], []),
    ([.imports [⟨some "missing", "x"⟩] { specifier := "reader" }], [])]

/-- The five modules. -/
def shownGraph : Store where
  modules := (shownTexts.map fun p ↦ Module.written p.1 p.2).toArray
  stage := { modules := [("root", ⟨0⟩), ("reader", ⟨1⟩), ("shelf", ⟨2⟩), ("far", ⟨3⟩), ("broken", ⟨4⟩)] }

/-- The graph when the first four modules are linked. -/
def shownLinked : Store := (shownGraph.linkFirst.serve 20).store

/-- The body of the second module gets at the namespace of the third one, and reads that of the fourth one
after another module has failed to link. -/
theorem obtained_namespaces_ask_for_linked_modules_shownGraph :
    shownGraph.Unread ∧ shownGraph.Fresh ∧ (∀ m, shownGraph.environment? m = none) ∧
    (∀ m phase, shownGraph.madeNamespace? m phase = none) ∧
    ∃ s s' n, Turns Machine.LinksApart (.idle shownGraph) (.idle s) ∧ s.Linked ⟨1⟩ ∧ s.Obtains ⟨1⟩ n ∧
      Turns Machine.LinksApart (.idle s) (.idle s') ∧ s'.status? ⟨4⟩ = some .unlinked ∧
      s'.asked? n "c" = some ⟨3⟩ ∧ s'.Linked ⟨3⟩ := by
  have hcheck := Machine.linksApart_of_linksAside
  obtain ⟨hunread, hfresh, hbare⟩ := Store.unread_of_written (s := shownGraph) (l := shownTexts)
    rfl rfl rfl rfl (by simp [shownTexts, Entries.requestOf?])
  have hunmade : ∀ m phase, shownGraph.madeNamespace? m phase = none := by
    rintro ⟨_ | _ | _ | _ | _ | n⟩ (_ | _) <;> rfl
  have hlinked : Turns Machine.LinksApart (.idle shownGraph) (.idle shownLinked) :=
    Turns.served (a := .link ⟨0⟩)
      (Turns.served (a := .load ⟨0⟩ none) .refl hcheck rfl (by decide +kernel) (by decide +kernel))
      hcheck rfl (by decide +kernel) (by decide +kernel)
  have hstart : Turns Machine.LinksApart (.idle shownLinked) (.idle shownLinked) := .refl
  have hloaded := Turns.served (a := .load ⟨4⟩ none) (n := 20) hstart hcheck rfl (by decide +kernel)
    (by decide +kernel)
  have hafter := Turns.served (a := .link ⟨4⟩) (n := 20) hloaded hcheck rfl (by decide +kernel)
    (by decide +kernel)
  have hstatus : shownLinked.status? ⟨1⟩ = some .linked := by decide +kernel
  have hreader : shownLinked.Linked ⟨1⟩ := Store.linked_iff.2 fun status h ↦
    (Option.some.inj (hstatus.symm.trans h)) ▸ by decide
  have hobtains : shownLinked.Obtains ⟨1⟩ ⟨0⟩ := .imported ⟨(⟨1⟩, "ns"), .refl, by decide +kernel⟩
  have hasked := obtained_namespaces_ask_for_linked_modules hunread hfresh hbare hunmade hlinked hreader
    hobtains hafter
  exact ⟨hunread, hfresh, hbare, hunmade, _, _, ⟨0⟩, hlinked, hreader, hobtains, hafter, by decide +kernel,
    by decide +kernel, (hasked.2 "c" ⟨3⟩ (by decide +kernel)).1⟩

/-- The second module imports the namespace of the third one, which shows that of the fourth one, and takes
note of it when its environment is set up. These lead back to the first one, which imports a name that the
third one does not have. -/
def revertedTexts : List (List Syntax.Declaration × List Step) :=
  [([.imports [] { specifier := "reader" }, .imports [⟨some "missing", "missing"⟩] { specifier := "shelf" }],
      []),
    ([.imports [⟨none, "ns"⟩] { specifier := "shelf" }], [.expose "ns"]),
    ([.exportAll (some "c") { specifier := "far" }], []),
    ([.imports [] { specifier := "root" }], [])]

/-- The four modules. -/
def revertedGraph : Store where
  modules := (revertedTexts.map fun p ↦ Module.written p.1 p.2).toArray
  stage := { modules := [("root", ⟨0⟩), ("reader", ⟨1⟩), ("shelf", ⟨2⟩), ("far", ⟨3⟩)] }

/-- What a body gets at while it is being linked may ask for the namespace of a module that is not linked,
when linking has failed. -/
theorem revertedGraph_asks_for_unlinked :
    revertedGraph.Unread ∧ revertedGraph.Fresh ∧
    ∃ s n, Turns Machine.LinksApart (.idle revertedGraph) (.idle s) ∧ s.stage.exposed = some n ∧
      s.importBinding? ⟨1⟩ "ns" = some (.namespaceObject n) ∧
      s.asked? n "c" = some ⟨3⟩ ∧ s.status? ⟨3⟩ = some .unlinked := by
  have hcheck := Machine.linksApart_of_linksAside
  obtain ⟨hunread, hfresh, -⟩ := Store.unread_of_written (s := revertedGraph) (l := revertedTexts)
    rfl rfl rfl rfl (by simp [revertedTexts, Entries.requestOf?])
  have hloaded : Turns Machine.LinksApart (.idle revertedGraph) _ :=
    Turns.served (a := .load ⟨0⟩ none) (n := 60) .refl hcheck rfl (by decide +kernel) (by decide +kernel)
  have hlinked := Turns.served (a := .link ⟨0⟩) (n := 30) hloaded hcheck rfl (by decide +kernel)
    (by decide +kernel)
  exact ⟨hunread, hfresh, _, ⟨0⟩, hlinked, by decide +kernel, by decide +kernel, by decide +kernel,
    by decide +kernel⟩

end EcmaModules
