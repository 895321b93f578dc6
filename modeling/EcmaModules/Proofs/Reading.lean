import EcmaModules.Proofs.Resolved

/-!
# Reading a variable ends

An imported variable is read from the module that it was imported from, and so on until a module has the
variable itself. What an import is bound to was found by resolving its name, so it is a variable that the
module found exports as its own, and as a rule that one is not imported there. The exception is a name that
a module imports several times: whether it is re-exported shows in its first import, and what it is bound to
is the last one. If the first one is of a namespace and the last one is not, the module exports as its own
what it reads from elsewhere, and that may be the same variable again.

So reading ends if no module imports a name several times that it exports as its own, and then it gives
what the namespace of the module that a variable was imported from holds.

## Main definitions

* `Store.Borrows` – a variable is an import that stands for another variable.
* `Store.Reads` – what reading a variable comes to, without a bound on the way.
* `Store.Means` – what an import is bound to is what its name stands for.
-/

namespace EcmaModules

variable {s s' : Store} {m : ModuleId} {name : String}

/-! ## Ways to a value -/

namespace Store

/-- The first variable is an import that is bound to the second one. -/
def Borrows (s : Store) (p q : ModuleId × String) : Prop :=
  s.importBinding? p.1 p.2 = some (.indirect q.1 q.2)

/-- What reading a variable comes to. -/
inductive Reads (s : Store) : ModuleId → String → Outcome Value × Store → Prop where
  | namespaceObject {m : ModuleId} {name : String} {n : NamespaceId} :
      s.importBinding? m name = some (.namespaceObject n) →
        Reads s m name (.ok (.namespaceObject n), s)
  | own {m : ModuleId} {name : String} : s.importBinding? m name = none →
      Reads s m name (s.ownValue m name)
  | borrow {m target : ModuleId} {name name' : String} {out : Outcome Value × Store} :
      s.Borrows (m, name) (target, name') → Reads s target name' out → Reads s m name out

/-- A variable that is no import of another one is read at once. -/
theorem reads_of_stops (hstop : ∀ q, ¬s.Borrows (m, name) q) (depth : Nat) :
    s.Reads m name (s.bindingValueFrom (depth + 1) m name) := by
  rcases hbinding : s.importBinding? m name with _ | n | ⟨target, owned⟩
  · simpa only [bindingValueFrom, hbinding] using .own hbinding
  · simpa only [bindingValueFrom, hbinding] using .namespaceObject hbinding
  · exact absurd hbinding (hstop (target, owned))

/-- Reading does not depend on the bound once the way has ended. -/
theorem bindingValueFrom_of_stops (hstop : ∀ q, ¬s.Borrows (m, name) q) (depth depth' : Nat) :
    s.bindingValueFrom (depth + 1) m name = s.bindingValueFrom (depth' + 1) m name := by
  rcases hbinding : s.importBinding? m name with _ | n | ⟨target, owned⟩
  · simp only [bindingValueFrom, hbinding]
  · simp only [bindingValueFrom, hbinding]
  · exact absurd hbinding (hstop (target, owned))

/-- No import stands for a variable that is itself an import of another one. -/
def Straight (s : Store) : Prop := ∀ p q, s.Borrows p q → ∀ o, ¬s.Borrows q o

theorem bindingValueFrom_of_borrows {target : ModuleId} {name' : String}
    (h : s.Borrows (m, name) (target, name')) (depth : Nat) :
    s.bindingValueFrom (depth + 1) m name = s.bindingValueFrom depth target name' := by
  have h : s.importBinding? m name = some (.indirect target name') := h
  rw [bindingValueFrom, h]

/-- An import stands for the variable that is read. -/
theorem Straight.bindingValue_eq (h : s.Straight) {target : ModuleId} {name' : String}
    (hf : s.Borrows (m, name) (target, name')) :
    s.bindingValue m name = s.bindingValue target name' :=
  (bindingValueFrom_of_borrows hf _).trans (bindingValueFrom_of_stops (h _ _ hf) _ _)

/-- So reading comes to a value. -/
theorem Straight.reads (h : s.Straight) (m : ModuleId) (name : String) :
    s.Reads m name (s.bindingValue m name) := by
  by_cases hf : ∃ q, s.Borrows (m, name) q
  · obtain ⟨⟨target, name'⟩, hf⟩ := hf
    exact .borrow hf (h.bindingValue_eq hf ▸ reads_of_stops (h _ _ hf) _)
  · exact reads_of_stops (not_exists.1 hf) _

/-- Reading a variable that stands for itself comes to nothing. -/
theorem Reads.not_circular {out : Outcome Value × Store} (h : s.Reads m name out)
    (hcircle : s.Borrows (m, name) (m, name)) : False := by
  have hcircle' : s.importBinding? m name = some (.indirect m name) := hcircle
  induction h with
  | namespaceObject hbinding => simp [hcircle'] at hbinding
  | own hbinding => simp [hcircle'] at hbinding
  | borrow hf _ ih =>
    obtain ⟨rfl, rfl⟩ := ImportBinding.indirect.inj (Option.some.inj (hcircle'.symm.trans hf))
    exact ih hcircle hcircle'

/-- No variable is come to twice. -/
theorem Straight.not_return (h : s.Straight) (p : ModuleId × String) :
    ¬Relation.TransGen s.Borrows p p := fun hp ↦ by
  obtain ⟨q, hpq, hqp⟩ := Relation.TransGen.head'_iff.1 hp
  obtain ⟨o, -, hop⟩ := Relation.TransGen.tail'_iff.1 hp
  exact h _ _ hop _ hpq

/-! ## What imports are bound to -/

/-- The binding is what the import stands for. -/
inductive Means (s : Store) (m : ModuleId) (i : ImportEntry) : ImportBinding → Prop where
  | namespaceObject {n : NamespaceId} : i.imported = none → Means s m i (.namespaceObject n)
  | reexported {target owner : ModuleId} {name : String} {n : NamespaceId} :
      s.imported? m i.request = some target → i.imported = some name →
      s.resolveExport target name = .binding owner none →
      s.madeNamespace? owner .evaluation = some n → Means s m i (.namespaceObject n)
  | binding {target owner : ModuleId} {name owned : String} :
      s.imported? m i.request = some target → i.imported = some name →
      s.resolveExport target name = .binding owner (some owned) → Means s m i (.indirect owner owned)

/-- The module has been loaded, and its environment binds all imports, each name as one of the imports by
that name stands. -/
structure Arranges (s : Store) (m : ModuleId) (env : List (String × ImportBinding)) : Prop where
  old : s.Old m
  all : ∀ i ∈ (s.entries m).imports, (env.lookup i.localName).isSome
  means : ∀ name b, env.lookup name = some b →
    ∃ i ∈ (s.entries m).imports, i.localName = name ∧ s.Means m i b

/-- Every environment does so. -/
def Arranged (s : Store) : Prop := ∀ m env, s.environment? m = some env → s.Arranges m env

theorem Denotes.offered {p : ModuleId × String} {v : Denotation} (h : s.Denotes p v) :
    ∃ q, s.Offers q v := by
  induction h with
  | offer h => exact ⟨_, h⟩
  | follow _ _ ih => exact ih

theorem offers_of_resolveExport {target owner : ModuleId} {n : Option String}
    (h : s.resolveExport target name = .binding owner n) : ∃ q, s.Offers q (owner, n) := by
  have hdenoted := resolveExport_binding.1 h
  have hmem : (owner, n) ∈ s.denoted target name := hdenoted ▸ Set.mem_singleton _
  exact Denotes.offered hmem

theorem isSome_of_imported? {d : ModuleId} {q : Request} (hf : s.Filed) (hd : s.imported? m q = some d) :
    (s.module? d).isSome := by
  obtain ⟨r, hr, hd⟩ := Option.bind_eq_some_iff.1 hd
  obtain ⟨e, he, rfl⟩ := Option.map_eq_some_iff.1 hd
  exact hf.housed m r hr e (List.mem_of_find?_eq_some he)

theorem madeNamespace?_namespaceOf (hm : (s.module? m).isSome) (phase : Phase) :
    (s.namespaceOf m phase).2.madeNamespace? m phase = some (s.namespaceOf m phase).1 := by
  unfold namespaceOf
  split
  · assumption
  · exact madeNamespace?_makeNamespace hm phase

/-- What was bound for an import is what it stands for. -/
theorem Grants.means {target : ModuleId} {i : ImportEntry} {b : ImportBinding}
    (h : s.Grants target i b) (hf : s.Filed) (ht : s.imported? m i.request = some target) :
    s.Means m i b := by
  obtain ⟨s₁, s₂, hbind, h₁, h₂⟩ := h
  rw [bindImport] at hbind
  split at hbind
  · next hall =>
    obtain rfl := Except.ok.inj (congrArg Prod.fst hbind)
    exact .namespaceObject hall
  · next name hname =>
    split at hbind
    · next owner hfound =>
      obtain rfl := Except.ok.inj (congrArg Prod.fst hbind)
      obtain rfl : _ = s₂ := congrArg Prod.snd hbind
      have hfound := (h₁.resolveExport target name).trans hfound
      have howner : (s₁.module? owner).isSome := by
        obtain ⟨_, hoffers⟩ := offers_of_resolveExport hfound
        cases hoffers with
        | namespaceOf _ _ _ _ hd => exact h₁.preserves.isSome owner ▸ isSome_of_imported? hf hd
      exact .reexported ht hname hfound
        (h₂.preserves.made _ _ _ (madeNamespace?_namespaceOf howner .evaluation))
    · next owner owned hfound =>
      obtain rfl := Except.ok.inj (congrArg Prod.fst hbind)
      exact .binding ht hname ((h₁.resolveExport target name).trans hfound)
    · simp at hbind

/-- The meaning of an import stays the same. -/
theorem Means.keep {i : ImportEntry} {b : ImportBinding} (h : s.Means m i b) (hs : s.Echoes s')
    (hp : s.Preserves s') (hf : s.Filed) (hr : s.Rounded) (hm : s.Old m)
    (hi : i ∈ (s.entries m).imports) : s'.Means m i b := by
  obtain ⟨d, hd, hold⟩ := hf.imported hr hm (Entries.request_mem_asked hi)
  have htarget : ∀ {target}, s.imported? m i.request = some target → s.Old target := fun ht ↦
    Option.some.inj (hd.symm.trans ht) ▸ hold
  cases h with
  | namespaceObject hall => exact .namespaceObject hall
  | reexported ht hname hfound hn =>
    exact .reexported (hs.grows _ _ _ ht) hname
      ((hs.resolveExport_of_old hf hr (htarget ht) _).trans hfound) (hp.made _ _ _ hn)
  | binding ht hname hfound =>
    exact .binding (hs.grows _ _ _ ht) hname
      ((hs.resolveExport_of_old hf hr (htarget ht) _).trans hfound)

end Store

namespace State

variable {st st' : State}

theorem Charted.turn_arranged (h : st.Charted) (ha : st.store.Arranged)
    (ht : Turn Machine.Fair st st') : st'.store.Arranged := by
  intro m env henv
  obtain ⟨hfiled, hrounded⟩ := h.closed
  have hechoes := h.turn_echoes ht
  have hold := (h.turn_furnishes ht).1.old
  rcases h.turn_equips ht m with heq | ⟨⟨env', henv', hsuits⟩, hm⟩
  · have h := ha m env (heq ▸ henv)
    refine ⟨hold m h.old, hechoes.entries m ▸ h.all, fun name b hb ↦ ?_⟩
    obtain ⟨i, hi, hname, hmeans⟩ := h.means name b hb
    exact ⟨i, hechoes.entries m ▸ hi, hname,
      hmeans.keep hechoes (State.Charted.turn_preserves ‹_› ht) hfiled hrounded h.old hi⟩
  · obtain rfl := Option.some.inj (henv.symm.trans henv')
    obtain ⟨hfiled', hrounded'⟩ := (h.turn ht).closed
    refine ⟨hold m hm, fun i hi ↦ hsuits.all i hi ?_, fun name b hb ↦ ?_⟩
    · obtain ⟨d, hd, -⟩ := hfiled'.imported hrounded' (hold m hm) (Entries.request_mem_asked hi)
      exact Option.isSome_of_mem hd
    · obtain ⟨i, target, hi, htarget, hgrants⟩ := hsuits.binds name b hb
      have hname : i.localName = name := by
        have := List.find?_some hi
        simp only [Bool.and_eq_true, beq_iff_eq] at this
        exact this.1
      exact ⟨i, List.mem_reverse.1 (List.mem_of_find?_eq_some hi), hname, hgrants.means hfiled' htarget⟩

end State

/-! ## Exported imports -/

/-- No local name that the module exports as its own is imported several times. -/
def Entries.ExportsOnce (es : Entries) : Prop :=
  ∀ e ∈ es.localExports, (es.imports.filter (·.localName == e.localName)).length ≤ 1

instance (es : Entries) : Decidable es.ExportsOnce :=
  inferInstanceAs (Decidable (∀ e ∈ es.localExports, _))

/-- What the module exports as its own, it does not import by name. -/
def Entries.Owns (es : Entries) : Prop :=
  ∀ e ∈ es.localExports, ∀ i ∈ es.imports, i.localName = e.localName → i.imported = none

/-- Imports by name are re-exported as what they are. -/
theorem Entries.owns_ofBody {deferring : Bool} {body : List Syntax.Statement}
    (honce : (Entries.ofBody deferring body).ExportsOnce) : (Entries.ofBody deferring body).Owns := by
  intro e he i hi hname
  have hlocal : (Entries.reexport? (Entries.ofBody deferring body).imports e).isNone :=
    (List.mem_filter.1 he).2
  have hmem : i ∈ (Entries.ofBody deferring body).imports.filter (·.localName == e.localName) :=
    List.mem_filter.2 ⟨hi, by simpa using hname⟩
  obtain ⟨j, hj⟩ := List.length_eq_one_iff.1 (le_antisymm (honce e he) (List.length_pos_of_mem hmem))
  obtain rfl : i = j := by simpa [hj] using hmem
  have hfind : (Entries.ofBody deferring body).imports.find? (·.localName == e.localName) = some i := by
    rw [← List.head?_filter, hj, List.head?_cons]
  simpa [Entries.reexport?, hfind] using hlocal

namespace Store

theorem entries_of_source? {r : SourceText} (hr : s.source? m = some r) : s.entries m = r.entries := by
  rw [entries, hr, Option.map_some, Option.getD_some]

/-- Then an import is bound to a variable that belongs to its module. -/
theorem Arranged.straight (h : s.Arranged) (hown : ∀ m, (s.entries m).Owns) : s.Straight := by
  rintro p ⟨owner, owned⟩ hpq o hqo
  obtain ⟨env, henv, hb⟩ := Option.bind_eq_some_iff.1 hpq
  obtain ⟨env', henv', hb'⟩ := Option.bind_eq_some_iff.1 hqo
  obtain ⟨i, -, -, hmeans⟩ := (h _ env henv).means _ _ hb
  obtain ⟨j, hj, hname, hmeans'⟩ := (h _ env' henv').means _ _ hb'
  cases hmeans with
  | binding _ _ hfound =>
    obtain ⟨_, hoffers⟩ := offers_of_resolveExport hfound
    cases hoffers with
    | synthetic hm _ =>
      simp [source?_eq_none_of_synthetic? hm] at henv'
    | own hm hown' =>
      have hmem := List.mem_of_find?_eq_some hown'
      rw [← entries_of_source? hm] at hmem
      have hall := hown owner _ hmem j hj hname
      cases hmeans' with
      | binding _ hname' _ => exact absurd (hall.symm.trans hname') (by simp)

/-- What an import is bound to is what the namespace of the module that it is from holds. -/
theorem Arranged.readExport_eq (h : s.Arranged) (hstraight : s.Straight)
    {env : List (String × ImportBinding)} (henv : s.environment? m = some env)
    {i : ImportEntry} (hi : i ∈ (s.entries m).imports) (hname : i.imported = some name)
    (honly : ∀ j ∈ (s.entries m).imports, j.localName = i.localName → j = i)
    {n : NamespaceId} {r : Namespace} (hr : s.namespace? n = some r) (hlists : r.Lists s)
    (hdeferred : r.deferred = false) (ht : s.imported? m i.request = some r.module) :
    s.readExport n name = s.bindingValue m i.localName := by
  obtain ⟨-, hall, hmeans⟩ := h m env henv
  obtain ⟨b, hb⟩ := Option.isSome_iff_exists.1 (hall i hi)
  obtain ⟨j, hj, hlocal, hmeans⟩ := hmeans _ _ hb
  obtain rfl := honly j hj hlocal
  have hbinding : s.importBinding? m j.localName = some b := by
    rw [importBinding?]
    exact Option.bind_eq_some_iff.2 ⟨env, henv, hb⟩
  have hhas : ∀ {owner k}, s.resolveExport r.module name = .binding owner k → s.hasExport n name = true :=
    fun hfound ↦ by
      rw [hasExport_iff hr hlists.ordered, hlists.mem, hfound]
      rfl
  have hread : ∀ {owner owned}, s.resolveExport r.module name = .binding owner (some owned) →
      s.readExport n name = s.bindingValue owner owned := fun hfound ↦ by
    simp [readExport, hr, hdeferred, hhas hfound, hfound]
  have hspace : ∀ {owner}, s.resolveExport r.module name = .binding owner none →
      s.readExport n name = (.ok (.namespaceObject (s.namespaceOf owner .evaluation).1),
        (s.namespaceOf owner .evaluation).2) := fun hfound ↦ by
    simp [readExport, hr, hdeferred, hhas hfound, hfound]
  cases hmeans with
  | namespaceObject hall => exact absurd (hname.symm.trans hall) (by simp)
  | reexported ht' hname' hfound hmade =>
    obtain rfl := Option.some.inj (ht.symm.trans ht')
    obtain rfl := Option.some.inj (hname.symm.trans hname')
    simp [hspace hfound, bindingValue, followLimit, bindingValueFrom, hbinding, namespaceOf, hmade]
  | binding ht' hname' hfound =>
    obtain rfl := Option.some.inj (ht.symm.trans ht')
    obtain rfl := Option.some.inj (hname.symm.trans hname')
    rw [hread hfound, hstraight.bindingValue_eq hbinding]

end Store

namespace State

/-- In the course of the run the namespace was made, of a module that had been loaded. -/
def Makes (s₀ : Store) (st : State) (n : NamespaceId) (r : Namespace) : Prop :=
  ∃ st₁ st₂, Turns Machine.Fair (.idle s₀) st₁ ∧ Turn Machine.Fair st₁ st₂ ∧
    st₁.store.namespace? n = none ∧ st₂.store.namespace? n = some r ∧ st₂.store.Old r.module ∧
      Turns Machine.Fair st₂ st

theorem Makes.lists {s₀ : Store} {st : State} {n : NamespaceId} {r : Namespace}
    (h : Makes s₀ st n r) (hs : s₀.Unread) :
    st.store.namespace? n = some r ∧ r.Lists st.store := by
  obtain ⟨st₁, st₂, hbefore, hturn, hnew, hr, hold, hafter⟩ := h
  have hcharted : (State.idle s₀).Charted := ⟨hs.charts, hs.refers _⟩
  have hcharted₁ := hcharted.turns hbefore
  have hcharted₂ := hcharted₁.turn hturn
  have hlists : r.Lists st₂.store := by
    rcases (hcharted₁.turn_furnishes hturn).2 with hmade | hshelved
    · exact (hmade.lists hr).resolve_left fun h ↦ by simp [hnew] at h
    · rw [Store.namespace?, hshelved.namespaces] at hr
      exact absurd (hnew.symm.trans hr) (by simp)
  exact ⟨(hcharted₂.turns_preserves hafter).keeps n r hr,
    hlists.congr (hcharted₂.resolveExport_turns hold hafter).2⟩

theorem Charted.turns_arranged {st st' : State} (h : st.Charted) (ha : st.store.Arranged)
    (ht : Turns Machine.Fair st st') : st'.store.Arranged := by
  induction ht with
  | refl => exact ha
  | tail hst ht ih => exact (h.turns hst).turn_arranged ih ht

end State

/-- Reading a variable ends, and no variable is come to twice on the way, unless a module imports a name
several times that it exports as its own. An import that is the only one by its name then gives what the
namespace of the module that it is from gives: the same value, or the same error. -/
theorem reading_ends_and_agrees {s₀ : Store} {st : State} (hs : s₀.Unread)
    (hbare : ∀ m, s₀.environment? m = none) (honce : ∀ m, (s₀.entries m).ExportsOnce)
    (hturns : Turns Machine.Fair (.idle s₀) st) :
    (∀ m name, st.store.Reads m name (st.store.bindingValue m name)) ∧
    (∀ p, ¬Relation.TransGen st.store.Borrows p p) ∧
    ∀ m, (st.store.environment? m).isSome → ∀ i ∈ (st.store.entries m).imports,
      (∀ j ∈ (st.store.entries m).imports, j.localName = i.localName → j = i) →
      ∀ name n r, i.imported = some name → st.store.imported? m i.request = some r.module →
        r.deferred = false → State.Makes s₀ st n r →
          st.store.readExport n name = st.store.bindingValue m i.localName := by
  have hcharted : (State.idle s₀).Charted := ⟨hs.charts, hs.refers _⟩
  have harranged : st.store.Arranged := hcharted.turns_arranged
    (fun m env henv ↦ absurd ((hbare m).symm.trans henv) (by simp)) hturns
  have hown : ∀ m, (st.store.entries m).Owns := fun m ↦ by
    rw [(hcharted.turns_echoes hturns).entries m]
    rcases hm : s₀.source? m with _ | r
    · intro e he
      simp [State.store, Store.entries, hm] at he
    · obtain ⟨deferring, body, heq, -⟩ := hs.entries m r hm
      have hentries := (Store.entries_of_source? hm).trans heq
      exact hentries ▸ Entries.owns_ofBody (hentries ▸ honce m)
  have hstraight := harranged.straight hown
  refine ⟨hstraight.reads, hstraight.not_return, fun m hm i hi honly name n r hname ht hdeferred hmade ↦ ?_⟩
  obtain ⟨env, henv⟩ := Option.isSome_iff_exists.1 hm
  obtain ⟨hr, hlists⟩ := hmade.lists hs
  exact harranged.readExport_eq hstraight henv hi hname honly hr hlists hdeferred ht

/-- Modules of declarations only, in which no request has attributes, have not been loaded. -/
theorem Store.unread_of_declaring {l : List (List Syntax.Declaration)} {s : Store}
    (hs : s.modules = (l.map Module.declaring).toArray) (hl : s.loadings = #[]) (hp : s.promises = #[])
    (hj : s.jobs = [])
    (hplain : ∀ ds ∈ l, ∀ d ∈ ds, ∀ q, Entries.requestOf? d = some q → q.attributes = []) :
    s.Unread ∧ ∀ m, s.environment? m = none := by
  have hwritten : s.modules = ((l.map fun ds ↦ (ds, [])).map fun p ↦ Module.written p.1 p.2).toArray := by
    rw [hs, List.map_map]
    rfl
  obtain ⟨hunread, -, hbare⟩ := unread_of_written hwritten hl hp hj <| by simpa using hplain
  exact ⟨hunread, hbare⟩

/-- The first module is loaded from the stage. -/
def Store.loadFirst (s : Store) : Machine := .start s (.load ⟨0⟩ none)

/-- Then it is linked. -/
def Store.linkFirst (s : Store) : Machine := .start (s.loadFirst.serve 40).store (.link ⟨0⟩)

theorem Store.turns_linkFirst {s : Store}
    (hload : ∀ i < 40, (s.loadFirst.serve i).fairNow = true) (hloaded : (s.loadFirst.serve 40).result?.isSome)
    (hlink : ∀ i < 20, (s.linkFirst.serve i).fairNow = true)
    (hlinked : (s.linkFirst.serve 20).result?.isSome) :
    Turns Machine.Fair (.idle s) (.idle (s.linkFirst.serve 20).store) :=
  Turns.served (a := .link ⟨0⟩)
    (Turns.served (a := .load ⟨0⟩ none) .refl Machine.fair_of_fairNow rfl hload hloaded)
    Machine.fair_of_fairNow rfl hlink hlinked

/-- Two modules that import from each other, and re-export what they import. -/
def mutualNames : List (List Syntax.Declaration) :=
  [[.imports [⟨some "b", "b"⟩] { specifier := "right" }, .exportNames [⟨"b", "a"⟩],
      .exportVariables ⟨.let, [⟨.leaf (.identifier "x"), none⟩]⟩],
    [.imports [⟨some "x", "y"⟩] { specifier := "left" },
      .exportVariables ⟨.let, [⟨.leaf (.identifier "b"), none⟩]⟩, .exportNames [⟨"y", "y"⟩]]]

/-- The two modules. -/
def mutualNamesGraph : Store where
  modules := (mutualNames.map Module.declaring).toArray
  stage := { modules := [("left", ⟨0⟩), ("right", ⟨1⟩)] }

theorem reading_ends_and_agrees_mutualNamesGraph :
    mutualNamesGraph.Unread ∧ (∀ m, mutualNamesGraph.environment? m = none) ∧
    (∀ m, (mutualNamesGraph.entries m).ExportsOnce) ∧
    ∃ s n, Turns Machine.Fair (.idle mutualNamesGraph) (.idle s) ∧
      s.status? ⟨1⟩ = some .linked ∧ s.Borrows (⟨1⟩, "y") (⟨0⟩, "x") ∧
      s.Reads ⟨1⟩ "y" (s.bindingValue ⟨1⟩ "y") ∧
      s.readExport n "x" = s.bindingValue ⟨1⟩ "y" := by
  obtain ⟨hunread, hbare⟩ := Store.unread_of_declaring (s := mutualNamesGraph) (l := mutualNames)
    rfl rfl rfl rfl (by simp [mutualNames, Entries.requestOf?])
  have honce : ∀ m, (mutualNamesGraph.entries m).ExportsOnce := by
    rintro ⟨_ | _ | n⟩
    · decide +kernel
    · decide +kernel
    · exact fun e he ↦ absurd he List.not_mem_nil
  have hlinked := Store.turns_linkFirst (s := mutualNamesGraph) (by decide +kernel) (by decide +kernel)
    (by decide +kernel) (by decide +kernel)
  have hturn : Turn Machine.Fair (.idle (mutualNamesGraph.linkFirst.serve 20).store)
      (.idle ((mutualNamesGraph.linkFirst.serve 20).store.namespaceOf ⟨0⟩ .evaluation).2) :=
    .call (.namespaceOf ⟨0⟩ .evaluation) rfl
  obtain ⟨hreads, -, hagrees⟩ := reading_ends_and_agrees hunread hbare honce (hlinked.tail hturn)
  refine ⟨hunread, hbare, honce, _, ⟨0⟩, hlinked.tail hturn, by decide +kernel, ?_, hreads ⟨1⟩ "y", ?_⟩
  · unfold Store.Borrows
    decide +kernel
  · refine hagrees ⟨1⟩ (by decide +kernel) ⟨{ specifier := "left" }, some "x", "y"⟩ (by decide +kernel)
      (by decide +kernel) "x" ⟨0⟩ ⟨⟨0⟩, ["a", "x"], false⟩ rfl (by decide +kernel) rfl
      ⟨_, _, hlinked, hturn, by decide +kernel, by decide +kernel, ?_, .refl⟩
    unfold Store.Old
    decide +kernel

/-- A module that imports its own export by the name of a namespace that it imports, too. -/
def circularNames : List (List Syntax.Declaration) :=
  [[.imports [⟨none, "a"⟩] { specifier := "o" }, .imports [⟨some "a", "a"⟩] { specifier := "m" },
      .exportNames [⟨"a", "a"⟩]], []]

/-- The module, and an empty one. -/
def circularNamesGraph : Store where
  modules := (circularNames.map Module.declaring).toArray
  stage := { modules := [("m", ⟨0⟩), ("o", ⟨1⟩)] }

/-- The module is read and linked, but reading what it exports does not end: the variable is come to again
and again. -/
theorem circularNamesGraph_reading_does_not_end :
    Entries.ofText? true "import*as a from\"o\";import{a}from\"m\";export{a}" =
      some (circularNamesGraph.entries ⟨0⟩) ∧
    circularNamesGraph.Unread ∧ (∀ m, circularNamesGraph.environment? m = none) ∧
    ∃ s, Turns Machine.Fair (.idle circularNamesGraph) (.idle s) ∧ s.status? ⟨0⟩ = some .linked ∧
      s.Borrows (⟨0⟩, "a") (⟨0⟩, "a") ∧ ∀ out, ¬s.Reads ⟨0⟩ "a" out := by
  obtain ⟨hunread, hbare⟩ := Store.unread_of_declaring (s := circularNamesGraph) (l := circularNames)
    rfl rfl rfl rfl (by simp [circularNames, Entries.requestOf?])
  have hlinked := Store.turns_linkFirst (s := circularNamesGraph) (by decide +kernel) (by decide +kernel)
    (by decide +kernel) (by decide +kernel)
  have hborrows : (circularNamesGraph.linkFirst.serve 20).store.Borrows (⟨0⟩, "a") (⟨0⟩, "a") := by
    unfold Store.Borrows
    decide +kernel
  refine ⟨by decide +kernel, hunread, hbare, _, hlinked, by decide +kernel, hborrows, fun out h ↦ ?_⟩
  exact h.not_circular hborrows

end EcmaModules
